/-
  Who encloses and who owns what.

  1. **Any history (`Built`)** — graphs that come about through operations of the store, documents and
     passes in any order.  A handle may be of something that is gone, a declaration may be moved
     under itself or under what it encloses, and a pass may give up halfway.

  2. **Both ends agree (`Ownership`)** — what lists a declaration or a reference is what it calls its
     parent or owner, and both are there.

  3. **Every history (`ownership_of_built`)** — documents and passes are series of operations, and one
     operation keeps the parts of a graph in agreement, whatever it is given.
-/
import Deadwood.Proofs.Evolution
import Deadwood.Proofs.Ingest.Merging

namespace Deadwood.Graph

variable {g : Graph} {d : DeclId} {r : RefId}

/-- Graphs that come about through operations with handles that were given out, documents, and
passes. -/
inductive Built : Graph → Prop where
  | empty : Built ∅
  | apply {g : Graph} (hg : Built g) (op : Operation) (hop : op.Issued g) : Built (op.apply g)
  | addUsr {g : Graph} (hg : Built g) (id : DeclId) (usr : String) : Built (g.addUsr id usr)
  | ingest {g : Graph} (hg : Built g) (doc : Document) : Built (g.ingest doc).1
  | run {g : Graph} (hg : Built g) (pass : Pass) (s : Settings) : Built (pass.run s g).graph

/-- Operations that store no handle without looking it up may come in any order. -/
theorem Built.foldl_apply (hg : g.Built) {ops : List Operation}
    (hops : ∀ op ∈ ops, ∀ k, op.Issued k) : (ops.foldl Operation.apply g).Built :=
  List.foldlRecOn (motive := Built) ops Operation.apply hg fun k hk op hop =>
    hk.apply op (hops op hop k)

theorem Reachable.built (hg : g.Reachable) : g.Built := by
  induction hg with
  | empty => exact .empty
  | step op _ hop ih => exact ih.apply op hop.issued

/-- **Whatever happens to a graph, its parts agree.**  Only identifiers may be missing. -/
theorem Built.coherent (hg : g.Built) : g.Coherent False := by
  induction hg with
  | empty => exact coherent_empty
  | apply _ op hop ih => exact ih.apply op hop False.elim
  | addUsr _ id usr ih => exact ih.addUsr
  | ingest _ doc ih => exact (ingests_ingest doc).coherent ih
  | run _ pass s ih => exact Pass.coherent_run ih

/-- Both ends of every link say the same, and marks are on live declarations. -/
structure Ownership (g : Graph) : Prop where
  /-- A declaration lists, as members and as unused parameters, those that call it their parent. -/
  children : ∀ p c, (∃ x, g.declaration? p = some x ∧
      (c ∈ x.members.toList ∨ c ∈ x.parameters.toList)) ↔
    g.hasDeclaration p = true ∧ ∃ y, g.declaration? c = some y ∧ y.parent = some p
  /-- Nothing is listed as both. -/
  apart : ∀ p x c, g.declaration? p = some x → c ∈ x.members.toList → c ∉ x.parameters.toList
  /-- The roots are the declarations without parent. -/
  roots : ∀ c, c ∈ g.roots.toList ↔ ∃ y, g.declaration? c = some y ∧ y.parent = none
  /-- A declaration lists as ordinary references those that it owns and that are not structural. -/
  references : ∀ d r, (∃ x, g.declaration? d = some x ∧ r ∈ x.references.toList) ↔
    g.hasDeclaration d = true ∧ ∃ y, g.reference? r = some y ∧
      y.owner = some (.declaration d) ∧ y.isRelated = false
  /-- It lists apart those that it owns and that are structural. -/
  related : ∀ d r, (∃ x, g.declaration? d = some x ∧ r ∈ x.related.toList) ↔
    g.hasDeclaration d = true ∧ ∃ y, g.reference? r = some y ∧
      y.owner = some (.declaration d) ∧ y.isRelated = true
  /-- A reference lists those that it owns. -/
  nested : ∀ o r, (∃ x, g.reference? o = some x ∧ r ∈ x.nested.toList) ↔
    g.hasReference o = true ∧ ∃ y, g.reference? r = some y ∧ y.owner = some (.reference o)
  /-- The root references are those without owner. -/
  rootReferences : ∀ r, r ∈ g.rootReferences.toList ↔
    ∃ y, g.reference? r = some y ∧ y.owner = none
  /-- Parents are there. -/
  parent_live : ∀ c y p, g.declaration? c = some y → y.parent = some p → g.hasDeclaration p = true
  /-- Owners are there. -/
  owner_live : ∀ r y o, g.reference? r = some y → y.owner = some o → g.hasOwner o = true
  /-- What is marked is there. -/
  marked_live : ∀ mark d, g.isMarked mark d = true → g.hasDeclaration d = true

/-- What a declaration lists of one sort is what calls it its owner and is of that sort. -/
theorem Owned.mem_held_iff (hg : g.Owned) (isRelated : Bool) :
    (∃ x, g.declaration? d = some x ∧ r ∈ (x.held isRelated).toList) ↔
      g.hasDeclaration d = true ∧ ∃ y, g.reference? r = some y ∧
        y.owner = some (.declaration d) ∧ y.isRelated = isRelated := by
  refine (mem_heldBy_iff.symm.trans (hg.held_iff d isRelated r)).trans (and_iff_right_of_imp ?_).symm
  rintro ⟨y, hy, ho, -⟩
  exact hg.owner_live (ownerOf?_eq_some_iff.2 ⟨y, hy, ho⟩)

theorem Coherent.ownership {named : Prop} (hg : g.Coherent named) : g.Ownership where
  children p c := by
    rw [← mem_childrenOf_iff, hg.child_iff, ← parentOf?_eq_some_iff]
    exact (and_iff_right_of_imp hg.toNested.parent_live).symm
  apart := hg.apart
  roots c := by
    rw [hg.root_iff, hasDeclaration, parentOf?]
    cases g.declaration? c <;> simp
  references _ _ := hg.toOwned.mem_held_iff false
  related _ _ := hg.toOwned.mem_held_iff true
  nested o r := by
    rw [← mem_nestedReferences_iff, hg.nested_iff, ← ownerOf?_eq_some_iff]
    exact (and_iff_right_of_imp fun ho => hg.toOwned.owner_live ho).symm
  rootReferences r := by
    rw [hg.rootReference_iff, hasReference, ownerOf?]
    cases g.reference? r <;> simp
  parent_live c y p hy hp := hg.toNested.parent_live (parentOf?_eq_some_iff.2 ⟨y, hy, hp⟩)
  owner_live r y o hy ho := hg.toOwned.owner_live (ownerOf?_eq_some_iff.2 ⟨y, hy, ho⟩)
  marked_live mark d hd := hg.marked_live mark d (isMarked_iff.1 hd)

/-- **Both ends of every link agree after every history.** -/
theorem ownership_of_built (hg : g.Built) : g.Ownership := hg.coherent.ownership

/-- A class is moved under its own method and another one under itself.  A method is removed, and
then used as the parent of a declaration without identifiers, the owner of a reference, the target
of a move, and the function of a parameter. -/
def tangledOperations : List Operation :=
  let spot (line : Nat) : Location := ⟨⟨"a.swift"⟩, line, 1⟩
  let symbol (kind : Kind) (usr : String) (line : Nat) : Symbol :=
    { kind, usrs := .singleton usr, location := spot line }
  [ .addDeclaration (symbol .classType "A" 1) none,
    .addDeclaration (symbol .instanceMethod "A.f" 2) (some ⟨0⟩),
    .addUnusedParameter (symbol .parameter "A.f.x" 3) ⟨1⟩,
    .addDeclaration (symbol .classType "B" 10) none,
    .addDeclaration (symbol .instanceMethod "B.g" 11) (some ⟨3⟩),
    .addReference { kind := .classType, usr := "B", location := spot 4 } (some (.declaration ⟨4⟩)),
    .addReference { kind := .classType, usr := "A", location := spot 5 } (some (.reference ⟨0⟩)),
    .mark .retained ⟨4⟩, .mark .retained ⟨1⟩,
    .moveDeclaration ⟨0⟩ ⟨1⟩, .moveDeclaration ⟨3⟩ ⟨3⟩, .moveReference ⟨1⟩ ⟨3⟩,
    .removeDeclaration ⟨4⟩, .removeDeclaration ⟨4⟩,
    .addReference { kind := .classType, usr := "B", location := spot 6 } (some (.declaration ⟨4⟩)),
    .moveDeclaration ⟨2⟩ ⟨4⟩, .moveReference ⟨1⟩ ⟨4⟩, .mark .used ⟨4⟩,
    .addUnusedParameter (symbol .parameter "y" 7) ⟨4⟩ ]

/-- A document ingested after these operations, and the search for what is used. -/
def tangled : Graph :=
  let unnamed : Symbol := { kind := .freeFunction, usrs := ∅, location := ⟨⟨"a.swift"⟩, 9, 1⟩ }
  let g := (Operation.addDeclaration unnamed (some ⟨4⟩)).apply
    (tangledOperations.foldl Operation.apply ∅)
  let doc : Document := { fragments := [
    { file := { path := ⟨"b.swift"⟩, modules := ∅ }
      declarations := [{ kind := .structType, usrs := ["C"], line := 1 }] }] }
  (Pass.reachability.run {} (g.ingest doc).1).graph

theorem ownership_of_built_tangled : tangled.Ownership ∧
    tangled.parentOf? ⟨0⟩ = some ⟨1⟩ ∧ tangled.parentOf? ⟨1⟩ = some ⟨0⟩ ∧
    tangled.parentOf? ⟨3⟩ = some ⟨3⟩ ∧ tangled.hasDeclaration ⟨4⟩ = false ∧
    tangled.declIds.length = 7 := by
  have hops : Operation.AllSound ∅ tangledOperations :=
    ⟨List.cons_ne_nil _ _, List.cons_ne_nil _ _, ⟨List.cons_ne_nil _ _, by decide +kernel⟩,
      List.cons_ne_nil _ _, List.cons_ne_nil _ _, trivial, trivial, trivial, trivial, trivial, trivial,
      trivial, trivial, trivial, trivial, trivial, trivial, trivial,
      ⟨List.cons_ne_nil _ _, by decide +kernel⟩, trivial⟩
  have hbuilt : tangled.Built :=
    ((((Reachable.empty.foldl_apply hops).built.apply (.addDeclaration _ _) trivial).ingest _).run
      .reachability {})
  exact ⟨ownership_of_built hbuilt, by decide +kernel⟩

end Deadwood.Graph

/-
  The graphs that operations build.

  1. **`Operation`** — one change to the graph: everything that merging a document or a pass over
     the graph can do to it, in one call.

  2. **`Sound`** — what the callers of an operation promise: a new symbol carries an identifier, and
     a handle that is stored without being looked up was given out before.

  3. **Step and run** — one sound operation leaves a consistent graph consistent
     (`Consistent.apply`), so every graph that is built from the empty one is consistent
     (`Reachable.consistent`).

  4. **`Evolves`** — operations of some sort, each sound when its turn comes, lead from one graph to
     another.  What one operation keeps, a series of them keeps.
-/
import Deadwood.Proofs.Store.Felling
import Deadwood.Proofs.Store.Move

namespace Deadwood

namespace Graph

/-- One change to the graph. -/
inductive Operation where
  | addDeclaration (s : Symbol) (parent : Option DeclId)
  | addUnusedParameter (s : Symbol) (function : DeclId)
  | unify (id : DeclId) (s : Symbol)
  | setAccess (id : DeclId) (access : Access)
  | moveDeclaration (id target : DeclId)
  | removeDeclaration (id : DeclId)
  | addReference (m : Mention) (owner : Option Owner)
  | removeReference (id : RefId)
  | moveReference (id : RefId) (target : DeclId)
  | mark (mark : Mark) (id : DeclId)
  | recordFolded (extension target : DeclId)
  | recordRedundantProtocol (id : DeclId) (result : RedundantProtocol)
  | recordRedundantAccess (id : DeclId) (result : RedundantAccess)
  | recordUnusedImport (i : UnusedImport)
  | addFile (file : SourceFile)
  | addModuleExport (module exported : String)
  | addAsset (asset : AssetReference)

namespace Operation

/-- The graph after an operation. -/
def apply (g : Graph) : Operation → Graph
  | addDeclaration s parent => (g.addDeclaration s parent).1
  | addUnusedParameter s function => (g.addUnusedParameter s function).1
  | unify id s => g.unify id s
  | setAccess id access => g.setAccess id access
  | moveDeclaration id target => g.moveDeclaration id target
  | removeDeclaration id => g.removeDeclaration id
  | addReference m owner => (g.addReference m owner).1
  | removeReference id => g.removeReference id
  | moveReference id target => g.moveReference id target
  | mark m id => g.mark m id
  | recordFolded extension target => g.recordFolded extension target
  | recordRedundantProtocol id result => g.recordRedundantProtocol id result
  | recordRedundantAccess id result => g.recordRedundantAccess id result
  | recordUnusedImport i => g.recordUnusedImport i
  | addFile file => g.addFile file
  | addModuleExport module exported => g.addModuleExport module exported
  | addAsset asset => g.addAsset asset

/-- What the caller of an operation promises. -/
def Sound (g : Graph) : Operation → Prop
  | addDeclaration s _ => s.usrs.toList ≠ []
  | addUnusedParameter s function =>
      s.usrs.toList ≠ [] ∧ function.index < g.declarations.size
  | recordRedundantProtocol _ result =>
      ∀ r, r ∈ result.references.toList ∨ r ∈ result.inherited.toList →
        r.index < g.references.size
  | _ => True

/-- A handle that an operation stores without looking it up was given out before. -/
def Issued (g : Graph) : Operation → Prop
  | addUnusedParameter _ function => function.index < g.declarations.size
  | recordRedundantProtocol _ result =>
      ∀ r, r ∈ result.references.toList ∨ r ∈ result.inherited.toList →
        r.index < g.references.size
  | _ => True

theorem Sound.issued {g : Graph} {op : Operation} (h : op.Sound g) : op.Issued g := by
  cases op with
  | addUnusedParameter s function => exact h.2
  | recordRedundantProtocol id result => exact h
  | _ => trivial

/-- Operations that are sound, each when its turn comes. -/
def AllSound (g : Graph) : List Operation → Prop
  | [] => True
  | op :: ops => op.Sound g ∧ AllSound (op.apply g) ops

end Operation

/-- A graph that sound operations build from the empty one. -/
inductive Reachable : Graph → Prop where
  | empty : Reachable ∅
  | step {g : Graph} (op : Operation) : Reachable g → op.Sound g → Reachable (op.apply g)

variable {g h : Graph} {d : DeclId} {r : RefId} {named : Prop}

/-! ## Notes -/

/-- Notes may change as long as they stay on what is there. -/
theorem Coherent.of_noted (hg : g.Coherent named) (hn : h.Noted)
    (hd : h.declarations = g.declarations) (hr : h.references = g.references)
    (hu : h.declarationsByUsr = g.declarationsByUsr)
    (hk : h.declarationsByKind = g.declarationsByKind)
    (hru : h.referencesByUsr = g.referencesByUsr) (hroots : h.roots = g.roots)
    (hrr : h.rootReferences = g.rootReferences) : h.Coherent named := by
  have hdecl : ∀ d, h.declaration? d = g.declaration? d := fun d => by simp only [declaration?, hd]
  have href : ∀ r, h.reference? r = g.reference? r := fun r => by simp only [reference?, hr]
  exact
    { toIndexed := hg.toIndexed.congr (fun d => by rw [hdecl]) hu hk
      toNested := hg.toNested.congr (fun d => by rw [hdecl]) hroots
      toOwned := hg.toOwned.congr href (fun d b r => by simp only [heldBy, hdecl]) hrr hru
      toNoted := hn
      identified := fun hn d x hx => hg.identified hn d x (hdecl d ▸ hx) }

theorem Marks.mem_add {m : Marks} {mark other : Mark} {c : DeclId} :
    c ∈ ((m.add mark d).of other).toList ↔
      (c = d ∧ mark = other) ∨ c ∈ (m.of other).toList := by
  cases mark <;> cases other <;> simp [Marks.add, Marks.of]

theorem Coherent.mark (hg : g.Coherent named) {mark : Mark} :
    (g.mark mark d).Coherent named := by
  unfold Graph.mark
  split
  · rename_i hd
    refine hg.of_noted ⟨fun other c hc => ?_, hg.recorded⟩ rfl rfl rfl rfl rfl rfl rfl
    rcases Marks.mem_add.1 hc with ⟨rfl, -⟩ | hc
    · exact hd
    · exact hg.marked_live other c hc
  · exact hg

theorem Coherent.recordRedundantProtocol (hg : g.Coherent named) {result : RedundantProtocol}
    (hr : ∀ r, r ∈ result.references.toList ∨ r ∈ result.inherited.toList →
      r.index < g.references.size) : (g.recordRedundantProtocol d result).Coherent named := by
  refine hg.of_noted ⟨hg.marked_live, fun c p r hp hm => ?_⟩ rfl rfl rfl rfl rfl rfl rfl
  simp only [Graph.recordRedundantProtocol, SortedMap.find?_insert] at hp
  split at hp
  · cases hp
    exact hr r hm
  · exact hg.recorded c p r hp hm

/-! ## Steps and runs -/

/-- **One operation leaves the parts of a graph in agreement**, when it is given handles that were
given out.  Declarations keep their identifiers as long as new ones bring some. -/
theorem Coherent.apply (hg : g.Coherent named) (op : Operation) (hop : op.Issued g)
    (hsound : named → op.Sound g) : (op.apply g).Coherent named := by
  cases op with
  | addDeclaration s parent => exact hg.addDeclaration hsound
  | addUnusedParameter s function =>
      refine hg.addUnusedParameter (fun hn => (hsound hn).1) fun he => ?_
      have hlt : function.index < g.declarations.size := hop
      rw [he] at hlt
      exact Nat.lt_irrefl _ hlt
  | unify id s => exact hg.unify
  | setAccess id access => exact hg.setAccess
  | moveDeclaration id target => exact hg.moveDeclaration
  | removeDeclaration id => exact hg.removeDeclaration
  | addReference m owner => exact hg.addReference
  | removeReference id => exact hg.removeReference
  | moveReference id target => exact hg.moveReference
  | mark mark id => exact hg.mark
  | recordRedundantProtocol id result => exact hg.recordRedundantProtocol hop
  | recordFolded | recordRedundantAccess | recordUnusedImport | addFile | addModuleExport
    | addAsset => exact hg.of_noted ⟨hg.marked_live, hg.recorded⟩ rfl rfl rfl rfl rfl rfl rfl

/-- **One sound operation leaves a consistent graph consistent.** -/
theorem Consistent.apply (hg : g.Consistent) (op : Operation) (hop : op.Sound g) :
    (op.apply g).Consistent := Coherent.apply hg op hop.issued fun _ => hop

/-! ## Series of operations -/

variable {P : Operation → Prop} {k : Graph}

/-- Operations of the sort `P`, each sound when its turn comes, lead from `g` to `h`. -/
inductive Evolves (P : Operation → Prop) (g : Graph) : Graph → Prop where
  | refl : Evolves P g g
  | step {h : Graph} (op : Operation) : Evolves P g h → P op → op.Sound h → Evolves P g (op.apply h)

namespace Evolves

theorem one (op : Operation) (hop : P op) (hs : op.Sound g) : Evolves P g (op.apply g) :=
  .step op .refl hop hs

theorem trans (H : Evolves P g h) (H' : Evolves P h k) : Evolves P g k := by
  induction H' with
  | refl => exact H
  | step op _ hop hs ih => exact .step op ih hop hs

/-- Going through a list, where every step keeps what the next one needs. -/
theorem foldl_of {α : Type} {f : Graph → α → Graph} {I : Graph → Prop} {xs : List α} (hI : I g)
    (hstep : ∀ k, ∀ a ∈ xs, I k → I (f k a) ∧ Evolves P k (f k a)) : Evolves P g (xs.foldl f g) := by
  refine And.right (List.foldlRecOn (motive := fun k : Graph => I k ∧ Evolves P g k) xs f ⟨hI, .refl⟩
    fun k hk a ha => ?_)
  obtain ⟨hnext, hone⟩ := hstep k a ha hk.1
  exact ⟨hnext, hk.2.trans hone⟩

theorem foldl {α : Type} {f : Graph → α → Graph} {xs : List α}
    (hstep : ∀ k, ∀ a ∈ xs, Evolves P k (f k a)) : Evolves P g (xs.foldl f g) :=
  foldl_of (I := fun _ => True) trivial fun k a ha _ => ⟨trivial, hstep k a ha⟩

/-- **A series of sound operations keeps the parts of a graph in agreement.** -/
theorem coherent (H : Evolves P g h) (hg : g.Coherent named) : h.Coherent named := by
  induction H with
  | refl => exact hg
  | step op _ _ hs ih => exact ih.apply op hs.issued fun _ => hs

end Evolves

/-- Sound operations lead from reachable graphs to reachable graphs. -/
theorem Reachable.evolves (hg : g.Reachable) (H : Evolves P g h) : h.Reachable := by
  induction H with
  | refl => exact hg
  | step op _ _ hs ih => exact ih.step op hs

/-- A run of sound operations goes from reachable graphs to reachable graphs. -/
theorem Reachable.foldl_apply (hg : g.Reachable) {ops : List Operation}
    (hops : Operation.AllSound g ops) : (ops.foldl Operation.apply g).Reachable := by
  induction ops generalizing g with
  | nil => exact hg
  | cons op ops ih => exact ih (hg.step op hops.1) hops.2

/-- **Every graph that is built is consistent.** -/
theorem Reachable.consistent (hg : g.Reachable) : g.Consistent := by
  induction hg with
  | empty => exact coherent_empty
  | step op _ hop ih => exact ih.apply op hop

end Graph

end Deadwood

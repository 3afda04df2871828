/-
  Nobody holds the same reference twice.

  1. **Careful histories (`Tended`)** — operations with any handles, documents and passes in any order,
     where a reference is added to nothing or to something that is there.

  2. **Keys (`Tended.distinctKeys`)** — what has an owner is told apart by its key after every history.
     Root references are told apart because they come about in one way only: by an addition to
     nothing, which looks for an equal one first.

  3. **Adding and moving (`unique_of_tended`)** — so there is one reference to answer when an equal one is
     added, and a moved reference either arrives or meets its equal and goes, with what is nested in
     it.
-/
import Deadwood.Proofs.Adoption
import Deadwood.Proofs.Ingest.Union
import Deadwood.Proofs.ReferenceForest

namespace Deadwood.Graph

variable {g h : Graph} {d : DeclId} {p q r : RefId} {m : Mention} {w : Option Owner}

/-! ## Careful histories -/

/-- A reference is added to nothing, or to something that is there. -/
def Operation.Careful (g : Graph) : Operation → Prop
  | .addReference _ w => ∀ o, w = some o → g.hasOwner o = true
  | _ => True

/-- Graphs that come about through careful operations, documents, and passes. -/
inductive Tended : Graph → Prop where
  | empty : Tended ∅
  | apply {g : Graph} (hg : Tended g) (op : Operation) (hop : op.Careful g) : Tended (op.apply g)
  | addUsr {g : Graph} (hg : Tended g) (id : DeclId) (usr : String) : Tended (g.addUsr id usr)
  | ingest {g : Graph} (hg : Tended g) (doc : Document) : Tended (g.ingest doc).1
  | run {g : Graph} (hg : Tended g) (pass : Pass) (s : Settings) : Tended (pass.run s g).graph

theorem Tended.stored (hg : g.Tended) : g.Stored := by
  induction hg with
  | empty => exact .empty
  | apply _ op _ ih => exact ih.apply op
  | addUsr _ id usr ih => exact ih.addUsr id usr
  | ingest _ doc ih => exact ih.ingest doc
  | run _ pass s ih => exact ih.run pass s

/-! ## Keys -/

/-- Where no root reference comes, keys stay distinct. -/
theorem DistinctKeys.of_rootsWithin (hd : g.DistinctKeys) (H : RootsWithin g h) (hh : h.Owned) :
    h.DistinctKeys := by
  intro r s x y hx hy ho hk
  by_cases hn : x.owner = none
  · have hold : ∀ q z, h.reference? q = some z → z.owner = none →
        ∃ v, g.reference? q = some v ∧ v.owner = none ∧ v.toMention = z.toMention := by
      intro q z hz hzo
      obtain ⟨v, hv, hbare⟩ := Option.map_eq_some_iff.1
        (H q z.toMention (by rw [hz, Option.map_some, Reference.bare, hzo]))
      exact ⟨v, hv, congrArg Prod.snd hbare, congrArg Prod.fst hbare⟩
    obtain ⟨v, hv, hvo, hvm⟩ := hold r x hx hn
    obtain ⟨u, hu, huo, hum⟩ := hold s y hy (ho ▸ hn)
    exact hd r s v u hv hu (hvo.trans huo.symm) (by rw [hvm, hum, hk])
  · exact hh.distinct r s x y hx hy ho hn hk

theorem DistinctKeys.of_references (hd : g.DistinctKeys) (hr : h.references = g.references) :
    h.DistinctKeys := by
  intro r s x y hx hy
  simp only [reference?, hr] at hx hy
  exact hd r s x y hx hy

/-- A reference added to nothing or to something that is there has a key of its own. -/
theorem DistinctKeys.addReference_of_live (hd : g.DistinctKeys) (hg : g.Owned)
    (hw : ∀ o, w = some o → g.hasOwner o = true) : (g.addReference m w).1.DistinctKeys := by
  cases hnew : g.equalReference? m.key w with
  | some q =>
      rw [addReference_eq_of_some hnew]
      exact hd
  | none => exact hd.addReference hg hw hnew

/-- **One careful operation keeps keys distinct.** -/
theorem DistinctKeys.apply (hd : g.DistinctKeys) (hg : g.Filed) {op : Operation}
    (hop : op.Careful g) : (op.apply g).DistinctKeys := by
  by_cases ha : op.Attached g
  · exact hd.of_rootsWithin (rootsWithin_apply ha) (hg.apply op).toOwned
  · cases op with
    | addReference m w => exact hd.addReference_of_live hg.toOwned hop
    | _ => exact absurd trivial ha

/-- Merging a fragment keeps keys distinct. -/
theorem DistinctKeys.merge (hd : g.DistinctKeys) (hg : g.Filed) {f : PreparedFragment} :
    (g.merge f).Filed ∧ (g.merge f).DistinctKeys := by
  refine merge_induction (P := fun k => k.Filed ∧ k.DistinctKeys) ?_ ?_ ?_ ⟨hg, hd⟩
  · exact fun k hk => ⟨hk.1.apply (.addFile f.file), hk.2.of_references rfl⟩
  · intro k s n parent _ hk _
    refine ⟨?_, hk.2.of_references references_placeSymbol.1⟩
    rcases placeSymbol_cases k s n parent with ⟨c, -, he⟩ | ⟨-, ⟨function, -, -, he⟩ | he⟩ <;> rw [he]
    · exact hk.1.unify
    · exact hk.1.addUnusedParameter
    · exact hk.1.addDeclaration
  · exact fun k m w hk hw _ => ⟨hk.1.addReference, hk.2.addReference_of_live hk.1.toOwned hw⟩

theorem DistinctKeys.ingest (hd : g.DistinctKeys) (hg : g.Filed) (doc : Document) :
    (g.ingest doc).1.DistinctKeys := by
  have hmerged : ∀ fs : List PreparedFragment,
      (fs.foldl Graph.merge g).Filed ∧ (fs.foldl Graph.merge g).DistinctKeys := fun fs =>
    List.foldlRecOn (motive := fun k : Graph => k.Filed ∧ k.DistinctKeys) fs _ ⟨hg, hd⟩
      fun _ hk _ _ => hk.2.merge hk.1
  unfold Graph.ingest
  dsimp only
  rw [addMetadata_eq]
  exact (hmerged _).2.of_references rfl

/-- **No owner holds two references with one key**, and nothing does at the root, after every careful
history. -/
theorem Tended.distinctKeys (hg : g.Tended) : g.DistinctKeys := by
  induction hg with
  | empty => exact fun r s x y hx => by simp at hx
  | apply hg op hop ih => exact ih.apply hg.stored.filed hop
  | addUsr _ id usr ih => exact ih.of_references references_addUsr
  | ingest hg doc ih => exact ih.ingest hg.stored.filed doc
  | run hg pass s ih =>
      exact ih.of_rootsWithin Pass.rootsWithin_run (hg.run pass s).stored.filed.toOwned

/-! ## Adding and moving -/

/-- Another reference of the declaration has the key of this one. -/
def HasEqual (g : Graph) (d : DeclId) (r : RefId) (x : Reference) : Prop :=
  ∃ q y, q ≠ r ∧ g.reference? q = some y ∧ y.owner = some (.declaration d) ∧
    y.toMention.key = x.toMention.key

/-- From `g` to `h` a reference went to a declaration, and nothing else happened to any reference,
apart from what is nested in it. -/
structure Moved (g : Graph) (r : RefId) (d : DeclId) (h : Graph) : Prop where
  live : ∀ p, h.hasReference p = g.hasReference p
  owner : h.ownerOf? r = some (.declaration d)
  mention : (h.reference? r).map (·.toMention) = (g.reference? r).map (·.toMention)
  others : ∀ p, p ≠ r → (h.reference? p).map Reference.bare = (g.reference? p).map Reference.bare

/-- From `g` to `h` a reference went, with what is nested in it, and nothing else. -/
structure Dropped (g : Graph) (r : RefId) (h : Graph) : Prop where
  live : ∀ p, h.hasReference p = true ↔
    g.hasReference p = true ∧ ¬ Relation.ReflTransGen g.NestedIn p r
  others : ∀ p, h.hasReference p = true →
    (h.reference? p).map Reference.bare = (g.reference? p).map Reference.bare

/-- A removal takes the reference with what is nested in it. -/
theorem Owned.dropped (hg : g.Owned) : Dropped g r (g.removeReference r) := by
  have hp := pruned_removeReference hg r
  refine ⟨fun p => ?_, fun p hlive => hp.bare (hp.hasReference_iff.1 hlive).2⟩
  rw [hp.hasReference_iff, hg.mem_referenceTree_iff]
  tauto

/-- Where a declaration holds references with distinct keys, it has an equal of its own reference only
if that is the same one. -/
theorem DistinctKeys.not_hasEqual (hd : g.DistinctKeys) {x : Reference} (hx : g.reference? r = some x)
    (ho : x.owner = some (.declaration d)) : ¬ HasEqual g d r x := by
  rintro ⟨q, y, hne, hy, hyo, hk⟩
  exact hne (hd q r y x hy hx (hyo.trans ho.symm) hk)

/-- A reference that meets no equal arrives. -/
theorem Owned.moved (hg : g.Owned) {x : Reference} (hx : g.reference? r = some x)
    (ht : g.hasDeclaration d = true) (hfree : ¬ HasEqual g d r x) :
    Moved g r d (g.moveReference r d) := by
  by_cases ho : x.owner = some (.declaration d)
  · rw [moveReference_of_stay hx (.inr ho)]
    exact ⟨fun _ => rfl, ownerOf?_eq_some_iff.2 ⟨x, hx, ho⟩, rfl, fun _ _ => rfl⟩
  · have hnew : g.equalReference? x.toMention.key (some (.declaration d)) = none := by
      refine hg.equalReference?_eq_none_iff.2 fun q y hy hyo hk => hfree ⟨q, y, ?_, hy, hyo, hk⟩
      rintro rfl
      rw [hx] at hy
      cases hy
      exact ho hyo
    rw [moveReference_of_new hx ht ho hnew]
    refine ⟨fun _ => hasReference_reowned, ?_, toMention_reowned, fun p hp => ?_⟩
    · rw [ownerOf?_reowned hx, if_pos rfl]
    · rw [reference?_reowned, Option.map_map]
      refine congrArg (Option.map · _) (funext fun y => ?_)
      rw [Function.comp_apply]
      dsimp only
      rw [if_neg (Ne.symm hp)]
      split <;> rfl

/-- A reference that meets its equal goes. -/
theorem Owned.dropped_moveReference (hg : g.Owned) (hd : g.DistinctKeys) {x : Reference}
    (hx : g.reference? r = some x) (ht : g.hasDeclaration d = true) (hequal : HasEqual g d r x) :
    Dropped g r (g.moveReference r d) := by
  have ho : x.owner ≠ some (.declaration d) := fun ho => hd.not_hasEqual hx ho hequal
  have hfound : g.equalReference? x.toMention.key (some (.declaration d)) ≠ none := by
    obtain ⟨q, y, -, hy, hyo, hk⟩ := hequal
    exact fun hnone => hg.equalReference?_eq_none_iff.1 hnone q y hy hyo hk
  rw [moveReference_of_equal hx ht ho hfound]
  exact hg.dropped

/-- Nobody holds the same reference twice, and additions and moves see to it. -/
structure HoldsOnce (g : Graph) : Prop where
  /-- Two references of one owner, or of none, differ in their keys. -/
  distinct : ∀ r s x y, g.reference? r = some x → g.reference? s = some y → x.owner = y.owner →
    x.toMention.key = y.toMention.key → r = s
  /-- Adding what the owner has already answers what it has. -/
  again : ∀ m r x, g.reference? r = some x → x.toMention.key = m.key → g.addReference m x.owner = (g, r)
  /-- A reference that meets no equal arrives. -/
  moves : ∀ r d x, g.reference? r = some x → g.hasDeclaration d = true → ¬ HasEqual g d r x →
    Moved g r d (g.moveReference r d)
  /-- One that meets its equal goes, with what is nested in it. -/
  drops : ∀ r d x, g.reference? r = some x → g.hasDeclaration d = true → HasEqual g d r x →
    Dropped g r (g.moveReference r d)

theorem DistinctKeys.addReference_again (hd : g.DistinctKeys) (hg : g.Owned) {x : Reference}
    (hx : g.reference? r = some x) (hk : x.toMention.key = m.key) :
    g.addReference m x.owner = (g, r) := by
  cases hfound : g.equalReference? m.key x.owner with
  | none => exact absurd hk (hg.equalReference?_eq_none_iff.1 hfound r x hx rfl)
  | some q =>
      obtain ⟨y, hy, hyo, hyk⟩ := reference?_of_equalReference? hfound
      rw [addReference_eq_of_some hfound, hd q r y x hy hx hyo (hyk.trans hk.symm)]

/-- **Nobody holds the same reference twice**, after every careful history. -/
theorem holdsOnce_of_tended (hg : g.Tended) : g.HoldsOnce where
  distinct := hg.distinctKeys
  again _ _ _ hx hk := hg.distinctKeys.addReference_again hg.stored.filed.toOwned hx hk
  moves _ _ _ hx ht hfree := hg.stored.filed.toOwned.moved hx ht hfree
  drops _ _ _ hx ht hequal :=
    hg.stored.filed.toOwned.dropped_moveReference hg.distinctKeys hx ht hequal

/-- Operations that are careful, each when its turn comes. -/
def Operation.AllCareful (g : Graph) : List Operation → Prop
  | [] => True
  | op :: ops => op.Careful g ∧ AllCareful (op.apply g) ops

theorem Tended.foldl_apply (hg : g.Tended) {ops : List Operation}
    (hops : Operation.AllCareful g ops) : (ops.foldl Operation.apply g).Tended := by
  induction ops generalizing g with
  | nil => exact hg
  | cons op ops ih => exact ih (hg.apply op hops.1) hops.2

/-- Two functions with one use of the same thing at the same place, as two parts of a macro would have
it; something is nested in the one.  The same root reference is added twice. -/
def sharedOperations : List Operation :=
  let spot (line : Nat) : Location := ⟨⟨"a.swift"⟩, line, 1⟩
  let function (usr : String) (line : Nat) : Symbol :=
    { kind := .freeFunction, usrs := .singleton usr, location := spot line }
  let mention (line : Nat) : Mention := { kind := .freeFunction, usr := "h", location := spot line }
  [ .addDeclaration (function "f" 1) none, .addDeclaration (function "g" 5) none,
    .addReference (mention 2) (some (.declaration ⟨0⟩)),
    .addReference (mention 3) (some (.reference ⟨0⟩)),
    .addReference (mention 2) (some (.declaration ⟨1⟩)),
    .addReference (mention 9) none, .addReference (mention 9) none ]

/-- An enum whose cases can be produced from texts. -/
def suits : Document :=
  { fragments := [
      { file := { path := ⟨"b.swift"⟩, modules := .singleton "App" }
        declarations := [
          { kind := .enumType, usrs := ["Suit"], name := some "Suit", line := 1
            declarations := [
              { kind := .enumCase, usrs := ["Suit.hearts"], name := some "hearts", line := 2 }]
            related := [{ kind := .structType, usr := "String", name := some "String", line := 1
                          role := .inheritedType }] }] }] }

/-- The graph after these operations, the document, and the pass for enums. -/
def shared : Graph :=
  (Pass.enumCases.run {} ((sharedOperations.foldl Operation.apply ∅).ingest suits).1).graph

/-- The use in the first function moves to the enum; moved to the second function, it goes. -/
theorem holdsOnce_of_tended_shared : shared.HoldsOnce ∧
    shared.refIds = [⟨0⟩, ⟨1⟩, ⟨2⟩, ⟨3⟩, ⟨4⟩, ⟨5⟩] ∧ shared.rootReferences.toList = [⟨3⟩] ∧
    Dropped shared ⟨0⟩ (shared.moveReference ⟨0⟩ ⟨1⟩) ∧
    (shared.moveReference ⟨0⟩ ⟨1⟩).refIds = [⟨2⟩, ⟨3⟩, ⟨4⟩, ⟨5⟩] ∧
    Moved shared ⟨0⟩ ⟨2⟩ (shared.moveReference ⟨0⟩ ⟨2⟩) := by
  have hops : Operation.AllCareful ∅ sharedOperations :=
    ⟨trivial, trivial, fun o ho => by cases ho; decide +kernel,
      fun o ho => by cases ho; decide +kernel, fun o ho => by cases ho; decide +kernel,
      fun o ho => by (cases ho), fun o ho => by (cases ho), trivial⟩
  have htended : shared.Tended := ((Tended.empty.foldl_apply hops).ingest suits).run .enumCases {}
  have hexact := holdsOnce_of_tended htended
  obtain ⟨x, hx⟩ := hasReference_iff.1 (show shared.hasReference ⟨0⟩ = true by decide +kernel)
  obtain ⟨y, hy⟩ := hasReference_iff.1 (show shared.hasReference ⟨2⟩ = true by decide +kernel)
  have hequal : ∀ x ∈ shared.reference? ⟨0⟩, ∀ y ∈ shared.reference? ⟨2⟩,
      y.owner = some (.declaration ⟨1⟩) ∧ y.toMention.key = x.toMention.key := by decide +kernel
  have hfree : ∀ x ∈ shared.reference? ⟨0⟩, ∀ q ∈ shared.refIds, ∀ y ∈ shared.reference? q,
      y.owner = some (.declaration ⟨2⟩) → y.toMention.key ≠ x.toMention.key := by decide +kernel
  refine ⟨hexact, by decide +kernel, by decide +kernel, ?_, by decide +kernel, ?_⟩
  · exact hexact.drops ⟨0⟩ ⟨1⟩ x hx (by decide +kernel) ⟨⟨2⟩, y, by decide, hy, hequal x hx y hy⟩
  · refine hexact.moves ⟨0⟩ ⟨2⟩ x hx (by decide +kernel) ?_
    rintro ⟨q, z, -, hz, hzo, hk⟩
    exact hfree x hx q (mem_refIds.2 (hasReference_of_eq hz)) z hz hzo hk

end Deadwood.Graph

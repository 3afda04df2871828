/-
  References form a forest, and every tree of it has one owner.

  1. **Way out (`NestedIn`)** — from a reference to the one in whose expression it stands.  Nothing
     checks that this makes no cycle.  It follows from how references come about: what a reference
     is nested in was there before it, so its number is smaller, and a move only ever leads out of
     the nesting.

  2. **Where it ends** — at an outermost reference, which a declaration owns or nobody does.  The way
     out has no branches, so this end is the only one (`outermost_unique`), and the walk from a
     reference to its declaration gets there before its steps are used up (`not_runsOut`).

  3. **Trees (`isForest_of_stored`)** — the trees of the outermost references are what is reached
     the other way round.  So they are disjoint, together they hold every reference, and the
     declaration found on the way out is the one whose trees hold the reference.
-/
import Deadwood.Proofs.Filing
import Mathlib.Data.List.Nodup
import Mathlib.Data.Nat.Init

namespace Deadwood.Graph

variable {g : Graph} {d : DeclId} {r o t u : RefId}

/-! ## The way out -/

/-- The one reference stands directly in the expression of the other. -/
def NestedIn (g : Graph) (r o : RefId) : Prop := g.ownerOf? r = some (.reference o)

/-- A reference that stands in no other. -/
def Outermost (g : Graph) (t : RefId) : Prop :=
  g.hasReference t = true ∧ ∀ o, ¬ g.NestedIn t o

/-- A walk out of the nesting is not at its end after a number of steps. -/
def RunsOut (g : Graph) : Nat → RefId → Prop
  | 0, _ => True
  | steps + 1, r => ∃ o, g.NestedIn r o ∧ g.RunsOut steps o

theorem rightUnique_nestedIn : Relator.RightUnique g.NestedIn := by
  intro r o u ho hu
  rw [NestedIn, ho] at hu
  cases hu
  rfl

/-- Further out the numbers are smaller. -/
theorem Owned.index_lt_of_transGen (hg : g.Owned) (h : Relation.TransGen g.NestedIn r o) :
    o.index < r.index := by
  induction h with
  | single ho => exact hg.owner_lt _ _ ho
  | tail _ ho ih =>
      have hlt := hg.owner_lt _ _ ho
      omega

theorem Owned.le_index_of_runsOut (hg : g.Owned) {steps : Nat} (h : g.RunsOut steps r) :
    steps ≤ r.index := by
  induction steps generalizing r with
  | zero => omega
  | succ steps ih =>
      obtain ⟨o, ho, hrest⟩ := h
      have hlt := hg.owner_lt r o ho
      have hle := ih hrest
      omega

/-- The walk from a reference to its declaration ends before its steps are used up. -/
theorem Owned.not_runsOut (hg : g.Owned) : ¬ g.RunsOut (g.references.size + 1) r := by
  intro h
  have hle := hg.le_index_of_runsOut h
  -- only a live reference is nested in anything, and its number was given out
  obtain ⟨o, ho, -⟩ := h
  have hlt := index_lt_of_hasReference (live_of_ownerOf? ho)
  omega

/-- **The way out ends.** -/
theorem Owned.exists_outermost (hg : g.Owned) (hr : g.hasReference r = true) :
    ∃ t, Relation.ReflTransGen g.NestedIn r t ∧ g.Outermost t := by
  induction hn : r.index using Nat.strong_induction_on generalizing r with
  | _ n ih =>
      by_cases hout : ∃ o, g.NestedIn r o
      · obtain ⟨o, ho⟩ := hout
        have hlive : g.hasReference o = true := hg.owner_live ho
        obtain ⟨t, hpath, ht⟩ := ih o.index (hn ▸ hg.owner_lt r o ho) hlive rfl
        exact ⟨t, .head ho hpath, ht⟩
      · exact ⟨r, .refl, hr, fun o ho => hout ⟨o, ho⟩⟩

/-- **It has one end.** -/
theorem outermost_unique (ht : Relation.ReflTransGen g.NestedIn r t) (hto : g.Outermost t)
    (hu : Relation.ReflTransGen g.NestedIn r u) (huo : g.Outermost u) : t = u := by
  have hstuck : ∀ {a b}, g.Outermost a → Relation.ReflTransGen g.NestedIn a b → a = b := by
    intro a b ha hab
    rcases hab.cases_head with he | ⟨c, hc, -⟩
    · exact he
    · exact absurd hc (ha.2 c)
  rcases ht.total_of_right_unique rightUnique_nestedIn hu with htu | hut
  · exact hstuck hto htu
  · exact (hstuck huo hut).symm

/-- What holds an outermost reference: a declaration that is there, or nobody. -/
theorem Owned.outermost_cases (hg : g.Owned) (ht : g.Outermost t) :
    (∃ d, g.ownerOf? t = some (.declaration d) ∧ g.hasDeclaration d = true) ∨
      t ∈ g.rootReferences.toList := by
  rcases ho : g.ownerOf? t with _ | ⟨d | o⟩
  · exact .inr ((hg.rootReference_iff t).2 ⟨ht.1, ho⟩)
  · exact .inl ⟨d, rfl, hg.owner_live ho⟩
  · exact absurd ho (ht.2 o)

theorem outermost_of_held (ho : g.ownerOf? t = some (.declaration d)) : g.Outermost t := by
  refine ⟨live_of_ownerOf? ho, fun o hno => ?_⟩
  rw [NestedIn, ho] at hno
  cases hno

theorem Owned.outermost_of_root (hg : g.Owned) (ht : t ∈ g.rootReferences.toList) :
    g.Outermost t := by
  obtain ⟨hlive, ho⟩ := (hg.rootReference_iff t).1 ht
  refine ⟨hlive, fun o hno => ?_⟩
  rw [NestedIn, ho] at hno
  cases hno

/-! ## Trees -/

/-- A tree is what finds its way out to its root. -/
theorem Owned.mem_referenceTree_iff (hg : g.Owned) : r ∈ g.referenceTree t ↔
    g.hasReference r = true ∧ Relation.ReflTransGen g.NestedIn r t := by
  rw [mem_referenceTree]
  constructor
  · intro hn
    refine ⟨hn.live_right, ?_⟩
    induction hn with
    | here _ => exact .refl
    | step _ hz _ ih => exact .head ((hg.nested_iff _ _).1 hz) ih
  · rintro ⟨hr, hpath⟩
    induction hpath using Relation.ReflTransGen.head_induction_on with
    | refl => exact .here (mem_refIds.2 hr)
    | head ho _ ih =>
        exact .step (ih (hg.owner_live ho)) ((hg.nested_iff _ _).2 ho) (mem_refIds.2 hr)

theorem nodup_refIds : g.refIds.Nodup :=
  Arena.nodup_live.map fun a b h => by simpa using h

theorem nodup_referenceTree : (g.referenceTree t).Nodup := nodup_explore nodup_refIds

/-- The trees of different outermost references have nothing in common. -/
theorem Owned.disjoint_referenceTree (hg : g.Owned) (ht : g.Outermost t) (hu : g.Outermost u)
    (hne : t ≠ u) : List.Disjoint (g.referenceTree t) (g.referenceTree u) := by
  intro r hrt hru
  obtain ⟨-, hpath⟩ := hg.mem_referenceTree_iff.1 hrt
  obtain ⟨-, hpath'⟩ := hg.mem_referenceTree_iff.1 hru
  exact hne (outermost_unique hpath ht hpath' hu)

theorem Owned.mem_referencesFrom (hg : g.Owned) : r ∈ g.referencesFrom d ↔
    ∃ t, g.ownerOf? t = some (.declaration d) ∧ r ∈ g.referenceTree t := by
  rw [mem_referencesFrom_iff]
  constructor
  · rintro ⟨b, t, ht, hn⟩
    obtain ⟨x, hx, ho, -⟩ := (hg.held_iff d b t).1 ht
    exact ⟨t, ownerOf?_eq_some_iff.2 ⟨x, hx, ho⟩, mem_referenceTree.2 hn⟩
  · rintro ⟨t, ho, hn⟩
    obtain ⟨x, hx, hxo⟩ := ownerOf?_eq_some_iff.1 ho
    exact ⟨x.isRelated, t, (hg.held_iff d x.isRelated t).2 ⟨x, hx, hxo, rfl⟩,
      mem_referenceTree.1 hn⟩

/-! ## Who makes a reference -/

/-- One step of the walk to the declaration. -/
theorem Owned.referencingDeclaration?_step (hg : g.Owned) (r : RefId) :
    g.referencingDeclaration? r = match g.ownerOf? r with
      | some (.declaration d) => some d
      | some (.reference o) => g.referencingDeclaration? o
      | none => none := by
  rw [referencingDeclaration?_eq hg (Nat.lt_succ_self r.index), ownerWithin]
  rcases ho : g.ownerOf? r with _ | ⟨d | o⟩
  · rw [ownerOf?] at ho
    simp [ho]
  · rw [ownerOf?] at ho
    simp [ho]
  · have hlt := hg.owner_lt r o ho
    rw [ownerOf?] at ho
    simp only [ho]
    exact (referencingDeclaration?_eq hg hlt).symm

/-- All along the way out, the declaration is the same. -/
theorem Owned.referencingDeclaration?_of_path (hg : g.Owned)
    (h : Relation.ReflTransGen g.NestedIn r t) :
    g.referencingDeclaration? r = g.referencingDeclaration? t := by
  induction h with
  | refl => rfl
  | tail _ ho ih =>
      rw [ih, hg.referencingDeclaration?_step, show g.ownerOf? _ = _ from ho]

theorem Owned.referencingDeclaration?_of_held (hg : g.Owned)
    (ho : g.ownerOf? t = some (.declaration d)) : g.referencingDeclaration? t = some d := by
  rw [hg.referencingDeclaration?_step, ho]

theorem Owned.referencingDeclaration?_of_root (hg : g.Owned) (ht : t ∈ g.rootReferences.toList) :
    g.referencingDeclaration? t = none := by
  rw [hg.referencingDeclaration?_step, ((hg.rootReference_iff t).1 ht).2]

/-- **The declaration found is the one whose trees hold the reference.** -/
theorem Owned.referencingDeclaration?_eq_some_iff (hg : g.Owned) :
    g.referencingDeclaration? r = some d ↔ r ∈ g.referencesFrom d := by
  rw [hg.mem_referencesFrom]
  constructor
  · intro hd
    have hr : g.hasReference r = true := by
      by_contra hdead
      rw [hg.referencingDeclaration?_step] at hd
      have hnone : g.ownerOf? r = none := by
        cases ho : g.ownerOf? r with
        | none => rfl
        | some o => exact absurd (live_of_ownerOf? ho) hdead
      rw [hnone] at hd
      cases hd
    obtain ⟨t, hpath, ht⟩ := hg.exists_outermost hr
    refine ⟨t, ?_, hg.mem_referenceTree_iff.2 ⟨hr, hpath⟩⟩
    rw [hg.referencingDeclaration?_of_path hpath] at hd
    rcases hg.outermost_cases ht with ⟨e, ho, -⟩ | hroot
    · rw [hg.referencingDeclaration?_of_held ho] at hd
      cases hd
      exact ho
    · rw [hg.referencingDeclaration?_of_root hroot] at hd
      cases hd
  · rintro ⟨t, ho, hn⟩
    obtain ⟨-, hpath⟩ := hg.mem_referenceTree_iff.1 hn
    rw [hg.referencingDeclaration?_of_path hpath, hg.referencingDeclaration?_of_held ho]

/-- **No declaration is found exactly in the trees of root references.** -/
theorem Owned.referencingDeclaration?_eq_none_iff (hg : g.Owned) (hr : g.hasReference r = true) :
    g.referencingDeclaration? r = none ↔
      ∃ t ∈ g.rootReferences.toList, r ∈ g.referenceTree t := by
  constructor
  · intro hnone
    obtain ⟨t, hpath, ht⟩ := hg.exists_outermost hr
    rw [hg.referencingDeclaration?_of_path hpath] at hnone
    rcases hg.outermost_cases ht with ⟨e, ho, -⟩ | hroot
    · rw [hg.referencingDeclaration?_of_held ho] at hnone
      cases hnone
    · exact ⟨t, hroot, hg.mem_referenceTree_iff.2 ⟨hr, hpath⟩⟩
  · rintro ⟨t, hroot, hn⟩
    obtain ⟨-, hpath⟩ := hg.mem_referenceTree_iff.1 hn
    rw [hg.referencingDeclaration?_of_path hpath, hg.referencingDeclaration?_of_root hroot]

/-! ## All references, tree by tree -/

/-- What each declaration refers to, and then the trees of the root references. -/
def referenceTrees (g : Graph) : List RefId :=
  g.declIds.flatMap g.referencesFrom ++ g.rootReferences.toList.flatMap g.referenceTree

theorem Owned.mem_referenceTrees (hg : g.Owned) (hr : g.hasReference r = true) :
    r ∈ g.referenceTrees := by
  rw [referenceTrees, List.mem_append, List.mem_flatMap, List.mem_flatMap]
  cases hd : g.referencingDeclaration? r with
  | some d =>
      have hmem := hg.referencingDeclaration?_eq_some_iff.1 hd
      obtain ⟨t, ho, -⟩ := hg.mem_referencesFrom.1 hmem
      exact .inl ⟨d, mem_declIds.2 (hg.owner_live ho), hmem⟩
  | none => exact .inr ((hg.referencingDeclaration?_eq_none_iff hr).1 hd)

theorem Owned.nodup_referencesFrom (hg : g.Owned) : (g.referencesFrom d).Nodup := by
  unfold referencesFrom
  cases hx : g.declaration? d with
  | none => exact .nil
  | some x =>
      have hout : ∀ t ∈ x.ownReferences, g.Outermost t := by
        intro t ht
        obtain ⟨b, hb⟩ := Declaration.mem_ownReferences.1 ht
        exact outermost_of_held (hg.listed.held d x b t hx hb)
      refine List.nodup_flatMap.2 ⟨fun _ _ => nodup_referenceTree, ?_⟩
      exact (hg.nodup_ownReferences hx).pairwise_of_forall_ne fun t ht u hu hne =>
        hg.disjoint_referenceTree (hout t ht) (hout u hu) hne

/-- **No reference is listed twice**: its declaration, if any, says in which trees it is. -/
theorem Owned.nodup_referenceTrees (hg : g.Owned) : g.referenceTrees.Nodup := by
  refine List.nodup_append'.2 ⟨?_, ?_, ?_⟩
  · refine List.nodup_flatMap.2 ⟨fun _ _ => hg.nodup_referencesFrom, ?_⟩
    refine nodup_declIds.pairwise_of_forall_ne fun d _ e _ hne r hd he => hne ?_
    rw [← hg.referencingDeclaration?_eq_some_iff] at hd he
    rw [hd] at he
    cases he
    rfl
  · refine List.nodup_flatMap.2 ⟨fun _ _ => nodup_referenceTree, ?_⟩
    exact (SortedSet.nodup _).pairwise_of_forall_ne fun t ht u hu hne =>
      hg.disjoint_referenceTree (hg.outermost_of_root ht) (hg.outermost_of_root hu) hne
  · intro r hr hr'
    obtain ⟨d, -, hd⟩ := List.mem_flatMap.1 hr
    have hsome := hg.referencingDeclaration?_eq_some_iff.2 hd
    obtain ⟨t, ht, hn⟩ := List.mem_flatMap.1 hr'
    have hlive := (hg.mem_referenceTree_iff.1 hn).1
    rw [(hg.referencingDeclaration?_eq_none_iff hlive).2 ⟨t, ht, hn⟩] at hsome
    cases hsome

/-! ## Every history -/

/-- References are nested without cycles, and their trees are divided among the declarations and the
root references. -/
structure IsForest (g : Graph) : Prop where
  /-- The way out never comes back to a reference. -/
  acyclic : ∀ r, ¬ Relation.TransGen g.NestedIn r r
  /-- It ends where a declaration that is there owns the reference, or nobody does. -/
  ends : ∀ r, g.hasReference r = true → ∃ t, Relation.ReflTransGen g.NestedIn r t ∧
    ((∃ d, g.ownerOf? t = some (.declaration d) ∧ g.hasDeclaration d = true) ∨
      t ∈ g.rootReferences.toList)
  /-- The walk to the declaration does not use up its steps. -/
  steps : ∀ r, ¬ g.RunsOut (g.references.size + 1) r
  made : ∀ r d, g.hasReference r = true → g.hasDeclaration d = true →
    (g.referencingDeclaration? r = some d ↔ r ∈ g.referencesFrom d)
  unmade : ∀ r, g.hasReference r = true → (g.referencingDeclaration? r = none ↔
    ∃ t ∈ g.rootReferences.toList, r ∈ g.referenceTree t)
  once : ∀ r, g.hasReference r = true → g.referenceTrees.count r = 1

theorem Owned.isForest (hg : g.Owned) : g.IsForest where
  acyclic r hcycle := Nat.lt_irrefl _ (hg.index_lt_of_transGen hcycle)
  ends r hr := by
    obtain ⟨t, hpath, ht⟩ := hg.exists_outermost hr
    exact ⟨t, hpath, hg.outermost_cases ht⟩
  steps _ := hg.not_runsOut
  made _ _ _ _ := hg.referencingDeclaration?_eq_some_iff
  unmade _ hr := hg.referencingDeclaration?_eq_none_iff hr
  once _ hr := List.count_eq_one_of_mem hg.nodup_referenceTrees (hg.mem_referenceTrees hr)

/-- **References form a forest after every history**, whatever handles were passed. -/
theorem isForest_of_stored (hg : g.Stored) : g.IsForest := hg.filed.toOwned.isForest

/-- A chain of three nested references, whose middle one moves to another declaration, a reference
nested in one that was never added, and one nested in itself, as it would be if it were added
already. -/
def transplantedOperations : List Operation :=
  let spot (line : Nat) : Location := ⟨⟨"a.swift"⟩, line, 1⟩
  let function (usr : String) (line : Nat) : Symbol :=
    { kind := .freeFunction, usrs := .singleton usr, location := spot line }
  let mention (line : Nat) : Mention := { kind := .freeFunction, usr := "f", location := spot line }
  [ .addDeclaration (function "f" 1) none, .addDeclaration (function "g" 5) none,
    .addReference (mention 2) (some (.declaration ⟨0⟩)),
    .addReference (mention 3) (some (.reference ⟨0⟩)),
    .addReference (mention 4) (some (.reference ⟨1⟩)),
    .moveReference ⟨1⟩ ⟨1⟩,
    .addReference (mention 6) (some (.reference ⟨9⟩)),
    .addReference (mention 7) (some (.reference ⟨4⟩)),
    .addReference (mention 8) (some (.reference ⟨3⟩)) ]

/-- The graph after these operations. -/
def transplanted : Graph := transplantedOperations.foldl Operation.apply ∅

theorem isForest_of_stored_transplanted : transplanted.IsForest ∧
    transplanted.referencesFrom ⟨0⟩ = [⟨0⟩] ∧ transplanted.referencesFrom ⟨1⟩ = [⟨1⟩, ⟨2⟩] ∧
    transplanted.referencingDeclaration? ⟨2⟩ = some ⟨1⟩ ∧
    transplanted.referenceTrees = [⟨0⟩, ⟨1⟩, ⟨2⟩, ⟨3⟩, ⟨5⟩, ⟨4⟩] := by
  have hstored : transplanted.Stored := Stored.empty.foldl_apply transplantedOperations
  exact ⟨isForest_of_stored hstored, by decide +kernel⟩

end Deadwood.Graph

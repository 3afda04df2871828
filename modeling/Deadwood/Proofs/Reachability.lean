/-
  What is used, as a least set.

  1. **Specification (`ClosedUnderUse`)** — a set of live declarations that holds the retained ones
     and what the outer references name, and with a declaration also what its references name and,
     for an accessor, its property.

  2. **The search finds the least such set (`isLeast_reachable`)** — every such set holds the
     starting points and is closed under the steps of the search, and what the search finds is such
     a set itself.

  3. **Marking twice (`marks_markUsed_markUsed`)** — the second time at most more references into
     dead types go.  Fewer references reach less, so nothing new is used, and what is ignored
     depends on the tree of declarations and on the marks of use alone.
-/
import Deadwood.Pass.Reachability
import Deadwood.Proofs.Ownership
import Deadwood.Proofs.Store.Sparser
import Mathlib.Order.Bounds.Basic

namespace Deadwood.Reachability

open Deadwood.Graph

/-- A set of declarations that holds all that its members and the outside use. -/
structure ClosedUnderUse (g : Graph) (S : Set DeclId) : Prop where
  live : ∀ d ∈ S, g.hasDeclaration d = true
  retained : ∀ d, g.hasDeclaration d = true → g.isRetained d = true → d ∈ S
  outer : ∀ q ∈ g.rootReferences.toList, ∀ r, g.Nests q r → ∀ d, g.Names r d → d ∈ S
  uses : ∀ d ∈ S, ∀ r ∈ g.referencesFrom d, ∀ t, g.Names r t → t ∈ S
  property : ∀ a ∈ S, ∀ x, g.declaration? a = some x → x.kind.isAccessor = true →
    ∀ p, x.parent = some p → p ∈ S

variable {g h k : Graph} {c d t : DeclId} {r : RefId} {S : Set DeclId} {gone : List RefId}
  {named : Prop}

/-! ## The search -/

theorem mem_targets (hg : g.Indexed) : d ∈ targets g r ↔ g.Names r d := by
  unfold targets Names
  cases g.reference? r with
  | none => simp
  | some x => simp [hg.mem_declarationsWithUsr]

theorem mem_usedBy (hg : g.Indexed) : t ∈ usedBy g d ↔
    (∃ r ∈ g.referencesFrom d, g.Names r t) ∨
      ∃ x, g.declaration? d = some x ∧ x.kind.isAccessor = true ∧ x.parent = some t := by
  simp only [usedBy, List.mem_append, List.mem_flatMap, mem_targets hg]
  refine or_congr_right ?_
  cases g.declaration? d with
  | none => simp
  | some x => by_cases hx : x.kind.isAccessor = true <;> simp [hx]

theorem mem_startingPoints (hg : g.Indexed) : d ∈ startingPoints g ↔
    g.isRetained d = true ∨
      ∃ q ∈ g.rootReferences.toList, ∃ r, g.Nests q r ∧ g.Names r d := by
  have hr : d ∈ g.marks.retained.toList ↔ g.isRetained d = true := by
    rw [isRetained, isMarked_iff, Marks.of]
  simp only [startingPoints, List.mem_append, List.mem_flatMap, mem_targets hg, mem_referenceTree,
    hr]
  refine or_congr_right ⟨?_, ?_⟩
  · rintro ⟨r, ⟨q, hq, hn⟩, hd⟩
    exact ⟨q, hq, r, hn, hd⟩
  · rintro ⟨q, hq, r, hn, hd⟩
    exact ⟨r, ⟨q, hq, hn⟩, hd⟩

theorem Names.live (hn : g.Names r d) : g.hasDeclaration d = true := by
  obtain ⟨_, y, _, hy, _⟩ := hn
  exact hasDeclaration_of_eq hy

/-- What the search finds holds all that it uses. -/
theorem closedUnderUse_reachable (hg : g.Coherent named) :
    ClosedUnderUse g {d | d ∈ reachable g} where
  live d hd := mem_declIds.1 (mem_nodes_of_mem_explore hd)
  retained d hd hr :=
    mem_explore_iff.2 ⟨d, (mem_startingPoints hg.toIndexed).2 (.inl hr), .here (mem_declIds.2 hd)⟩
  outer q hq r hn d hd :=
    mem_explore_iff.2 ⟨d, (mem_startingPoints hg.toIndexed).2 (.inr ⟨q, hq, r, hn, hd⟩),
      .here (mem_declIds.2 (Names.live hd))⟩
  uses d hd r hr t ht := by
    obtain ⟨s, hs, hp⟩ := mem_explore_iff.1 hd
    have hstep : t ∈ usedBy g d := (mem_usedBy hg.toIndexed).2 (.inl ⟨r, hr, ht⟩)
    exact mem_explore_iff.2 ⟨s, hs, hp.step hstep (mem_declIds.2 (Names.live ht))⟩
  property a ha x hx hk p hp := by
    obtain ⟨s, hs, hpath⟩ := mem_explore_iff.1 ha
    have hstep : p ∈ usedBy g a := (mem_usedBy hg.toIndexed).2 (.inr ⟨x, hx, hk, hp⟩)
    have hlive := hg.parent_live (parentOf?_eq_some_iff.2 ⟨x, hx, hp⟩)
    exact mem_explore_iff.2 ⟨s, hs, hpath.step hstep (mem_declIds.2 hlive)⟩

/-- A path of the search does not leave a set that holds all it uses. -/
theorem ClosedUnderUse.mem_of_reaches (hg : g.Indexed) (hS : ClosedUnderUse g S) (hd : d ∈ S)
    (hp : Reaches (usedBy g) g.declIds d t) : t ∈ S := by
  induction hp with
  | here _ => exact hd
  | step _ hz _ ih =>
      rcases (mem_usedBy hg).1 hz with ⟨r, hr, ht⟩ | ⟨x, hx, hk, hp⟩
      · exact hS.uses _ ih r hr _ ht
      · exact hS.property _ ih x hx hk _ hp

/-- **The search finds the least set that holds all that is used.** -/
theorem isLeast_reachable (hg : g.Coherent named) :
    IsLeast {S | ClosedUnderUse g S} {d | d ∈ reachable g} := by
  refine ⟨closedUnderUse_reachable hg, fun S hS d hd => ?_⟩
  obtain ⟨s, hs, hp⟩ := mem_explore_iff.1 hd
  refine ClosedUnderUse.mem_of_reaches hg.toIndexed hS ?_ hp
  rcases (mem_startingPoints hg.toIndexed).1 hs with hr | ⟨q, hq, r, hn, hd⟩
  · exact hS.retained s (mem_declIds.1 hp.mem_left) hr
  · exact hS.outer q hq r hn s hd

/-! ## Fewer references -/

/-- A set that holds all that is used does so where there are fewer references, and where less is
retained. -/
theorem ClosedUnderUse.sparser (hg : g.Owned) (hh : h.Owned) (H : Sparser g h)
    (hretained : ∀ d, g.isRetained d = true → h.isRetained d = true) (hS : ClosedUnderUse h S) :
    ClosedUnderUse g S where
  live d hd := by rw [← H.outline.hasDeclaration]; exact hS.live d hd
  retained d hd hr := hS.retained d (by rw [H.outline.hasDeclaration]; exact hd) (hretained d hr)
  outer q hq r hn d hd :=
    hS.outer q (H.mem_rootReferences hg hh hq) r (H.nests hg hh hn) d (H.names hd)
  uses d hd r hr t ht := hS.uses d hd r (H.mem_referencesFrom hg hh hr) t (H.names ht)
  property a ha x hx hk p hp := by
    obtain ⟨y, hy, hs, hl⟩ := H.outline.exists_declaration hx
    exact hS.property a ha y hy (by rw [hs]; exact hk) p ((congrArg Prod.fst hl).trans hp)

/-! ## Dead conformers -/

/-- The references that go are the structural ones of requirements that lead into something dead. -/
theorem mem_erroneous (hg : g.Coherent named) : r ∈ erroneous g ↔ ∃ x member,
    g.reference? r = some x ∧ x.owner = some (.declaration member) ∧ x.isRelated = true ∧
      g.isProtocolMember member = true ∧ ∃ d, g.Names r d ∧ hasDeadAncestor g d = true := by
  simp only [erroneous, List.mem_flatMap, mem_sortedDeclarations, List.mem_filter, mem_declIds]
  constructor
  · rintro ⟨member, ⟨⟨hlive, hmember⟩, -⟩, hr⟩
    obtain ⟨y, hy⟩ := hasDeclaration_iff.1 hlive
    rw [hy] at hr
    obtain ⟨hr, hdead⟩ := List.mem_filter.1 hr
    obtain ⟨x, hx, ho, hrelated⟩ := (hg.held_iff member true r).1
      (mem_heldBy_iff.2 ⟨y, hy, (mem_sortedReferences.1 hr).1⟩)
    rw [hx, Option.any_some] at hdead
    obtain ⟨d, hd, hdead⟩ := List.any_eq_true.1 hdead
    obtain ⟨z, hz, husr⟩ := hg.mem_declarationsWithUsr.1 hd
    exact ⟨x, member, hx, ho, hrelated, hmember, d, ⟨x, z, hx, hz, husr⟩, hdead⟩
  · rintro ⟨x, member, hx, ho, hrelated, hmember, d, ⟨x', z, hx', hz, husr⟩, hdead⟩
    obtain ⟨y, hy, hheld⟩ := mem_heldBy_iff.1 ((hg.held_iff member true r).2 ⟨x, hx, ho, hrelated⟩)
    have hlive := hasDeclaration_of_eq hy
    rw [hx] at hx'
    cases hx'
    refine ⟨member, ⟨⟨hlive, hmember⟩, hlive⟩, ?_⟩
    rw [hy]
    refine List.mem_filter.2 ⟨mem_sortedReferences.2 ⟨hheld, hasReference_of_eq hx⟩, ?_⟩
    rw [hx, Option.any_some, List.any_eq_true]
    exact ⟨d, hg.mem_declarationsWithUsr.2 ⟨z, hz, husr⟩, hdead⟩

theorem pruned_removeErroneous (hg : g.Owned) :
    Pruned ((erroneous g).flatMap g.referenceTree) g (removeErroneous g) :=
  pruned_foldl_removeReference hg _

theorem coherent_removeErroneous (hg : g.Coherent named) : (removeErroneous g).Coherent named :=
  hg.foldl_removeReference _

theorem marks_removeErroneous (hg : g.Owned) : (removeErroneous g).marks = g.marks :=
  congrArg Notes.marks (pruned_removeErroneous hg).notes

theorem isRetained_removeErroneous (hg : g.Owned) :
    (removeErroneous g).isRetained d = g.isRetained d := by
  rw [isRetained, isMarked, marks_removeErroneous hg]
  rfl

theorem hasDeclaration_removeErroneous (hg : g.Owned) :
    (removeErroneous g).hasDeclaration d = g.hasDeclaration d :=
  (pruned_removeErroneous hg).sameOutline.hasDeclaration

/-! ## Marking -/

/-- The graph with its marks of use, before anything is ignored. -/
def withUses (g : Graph) : Graph := (removeErroneous g).markAll .used (reachable (removeErroneous g))

theorem markUsed_eq : markUsed g = (withUses g).markAll .ignored (shadowed (withUses g)) := rfl

theorem coherent_withUses (hg : g.Coherent named) : (withUses g).Coherent named :=
  (coherent_removeErroneous hg).markAll _

theorem coherent_markUsed (hg : g.Coherent named) : (markUsed g).Coherent named :=
  (coherent_withUses hg).markAll _

theorem sameOutline_markUsed (hg : g.Coherent named) : SameOutline g (markUsed g) :=
  ((pruned_removeErroneous hg.toOwned).sameOutline.trans sameOutline_markAll).trans
    sameOutline_markAll

/-- **What is used after marking**: what was, and what the search finds. -/
theorem isUsed_markUsed (hg : g.Coherent named) : (markUsed g).isUsed d = true ↔
    g.isUsed d = true ∨ d ∈ reachable (removeErroneous g) := by
  have hlive : d ∈ reachable (removeErroneous g) → (removeErroneous g).hasDeclaration d = true :=
    fun hd => mem_declIds.1 (mem_nodes_of_mem_explore hd)
  simp only [isUsed, isMarked_iff, markUsed_eq, withUses, mem_marks_markAll, reduceCtorEq,
    false_and, false_or, true_and, marks_removeErroneous hg.toOwned]
  rw [or_comm, and_iff_left_of_imp hlive]

/-- Where nothing was marked before, what is used is what the search finds. -/
theorem isUsed_markUsed_of_unmarked (hg : g.Coherent named) (hnone : g.marks.used = ∅) :
    (markUsed g).isUsed d = true ↔ d ∈ reachable (removeErroneous g) := by
  have hunmarked : g.isUsed d = false := by
    simp [isUsed, isMarked, Marks.of, hnone, SortedSet.contains]
  rw [isUsed_markUsed hg, hunmarked, Bool.false_eq_true, false_or]

/-- What is retained is used. -/
theorem isUsed_markUsed_of_retained (hg : g.Coherent named) (hd : g.hasDeclaration d = true)
    (hr : g.isRetained d = true) : (markUsed g).isUsed d = true := by
  rw [← hasDeclaration_removeErroneous hg.toOwned] at hd
  rw [← isRetained_removeErroneous hg.toOwned] at hr
  exact (isUsed_markUsed hg).2 (.inr
    ((closedUnderUse_reachable (coherent_removeErroneous hg)).retained d hd hr))

theorem isUsed_withUses : (withUses g).isUsed d = (markUsed g).isUsed d := by
  rw [Bool.eq_iff_iff]
  simp [isUsed, isMarked_iff, markUsed_eq, mem_marks_markAll]

/-- Marking what is used leaves the other marks of `g` alone. -/
theorem marks_markUsed_of_ne (hg : g.Coherent named) {mark : Mark} (hu : mark ≠ .used)
    (hi : mark ≠ .ignored) : (markUsed g).marks.of mark = g.marks.of mark :=
  SortedSet.eq_of_mem_iff fun d => by
    simp [markUsed_eq, withUses, mem_marks_markAll, marks_removeErroneous hg.toOwned, hu.symm,
      hi.symm]

theorem isRetained_markUsed (hg : g.Coherent named) : (markUsed g).isRetained d = g.isRetained d := by
  rw [isRetained, isMarked, marks_markUsed_of_ne hg (by decide) (by decide)]
  rfl

theorem mem_shadowed : c ∈ shadowed g ↔ ∃ d, g.hasDeclaration d = true ∧ g.isUsed d = false ∧
    g.childrenOf d ≠ [] ∧ g.Encloses d c ∧ c ≠ d ∧ g.isUsed c = false := by
  simp only [shadowed, List.mem_flatMap, List.mem_filter, mem_declIds, mem_descendants,
    Bool.and_eq_true, Bool.not_eq_true', List.isEmpty_eq_false_iff, and_assoc]

/-- What is shadowed depends on the tree of declarations and on the marks of use alone. -/
theorem mem_shadowed_congr (hlive : ∀ d, h.hasDeclaration d = g.hasDeclaration d)
    (hchildren : ∀ d, h.childrenOf d = g.childrenOf d) (hused : ∀ d, h.isUsed d = g.isUsed d) :
    c ∈ shadowed h ↔ c ∈ shadowed g := by
  have hids : h.declIds ⊆ g.declIds ∧ g.declIds ⊆ h.declIds := by
    constructor <;> intro d hd <;> simpa [hlive] using hd
  have henc : ∀ d, h.Encloses d c ↔ g.Encloses d c := fun d =>
    ⟨fun hp => hp.imp (fun x => by rw [hchildren x]; exact List.Subset.refl _) hids.1,
      fun hp => hp.imp (fun x => by rw [hchildren x]; exact List.Subset.refl _) hids.2⟩
  simp only [mem_shadowed, hlive, hchildren, hused, henc]

/-! ## Marking twice -/

theorem childrenOf_markUsed (hg : g.Coherent named) : (markUsed g).childrenOf d = g.childrenOf d := by
  simp only [childrenOf, markUsed_eq, withUses, declaration?_markAll,
    (pruned_removeErroneous hg.toOwned).declaration]
  cases g.declaration? d <;> rfl

theorem hasDeclaration_markUsed (hg : g.Coherent named) :
    (markUsed g).hasDeclaration d = g.hasDeclaration d := by
  simp [hasDeclaration, markUsed_eq, withUses, (pruned_removeErroneous hg.toOwned).declaration]

theorem markUsed_eq_marks : markUsed g = { removeErroneous g with marks := (markUsed g).marks } := by
  rw [markUsed_eq, markAll_eq]
  unfold withUses
  rw [markAll_eq]

/-- Only the retained declarations count among the marks. -/
theorem ClosedUnderUse.of_marks {m : Marks} (hm : m.retained = g.marks.retained)
    (hS : ClosedUnderUse g S) : ClosedUnderUse { g with marks := m } S where
  live := hS.live
  retained d hd hr := by
    refine hS.retained d hd ?_
    simpa only [isRetained, isMarked, Marks.of, hm] using hr
  outer := hS.outer
  uses := hS.uses
  property := hS.property

/-- What the search found stays closed under use when the marks are put. -/
theorem closedUnderUse_markUsed (hg : g.Coherent named) :
    ClosedUnderUse (markUsed g) {d | d ∈ reachable (removeErroneous g)} := by
  rw [markUsed_eq_marks]
  refine (closedUnderUse_reachable (coherent_removeErroneous hg)).of_marks ?_
  rw [marks_removeErroneous hg.toOwned]
  exact marks_markUsed_of_ne hg (fun h : Mark.retained = .used => by cases h) (by simp)

/-- The second search finds nothing that the first one did not find. -/
theorem reachable_markUsed_subset (hg : g.Coherent named) :
    {d | d ∈ reachable (removeErroneous (markUsed g))} ⊆ {d | d ∈ reachable (removeErroneous g)} := by
  have hm := coherent_markUsed hg
  have hm' := coherent_removeErroneous hm
  refine (isLeast_reachable hm').2 ((closedUnderUse_markUsed hg).sparser hm'.toOwned hm.toOwned
    (pruned_removeErroneous hm.toOwned).sparser fun d hd => ?_)
  rw [isRetained_removeErroneous hm.toOwned] at hd
  exact hd

theorem isUsed_markUsed_markUsed (hg : g.Coherent named) :
    (markUsed (markUsed g)).isUsed d = (markUsed g).isUsed d := by
  rw [Bool.eq_iff_iff, isUsed_markUsed (coherent_markUsed hg)]
  refine or_iff_left_of_imp fun hd => ?_
  exact (isUsed_markUsed hg).2 (.inr (reachable_markUsed_subset hg hd))

theorem mem_ignored_markUsed (hg : g.Coherent named) :
    d ∈ ((markUsed g).marks.of .ignored).toList ↔
      d ∈ shadowed (markUsed g) ∨ d ∈ (g.marks.of .ignored).toList := by
  have hshadow : d ∈ shadowed (withUses g) ↔ d ∈ shadowed (markUsed g) :=
    (mem_shadowed_congr (fun d => by simp [markUsed_eq, hasDeclaration])
      (fun d => by simp [markUsed_eq, childrenOf]) fun d => isUsed_withUses.symm).symm
  have hlive : d ∈ shadowed (withUses g) → (withUses g).hasDeclaration d = true := by
    intro hd
    obtain ⟨_, _, _, _, henc, _⟩ := mem_shadowed.1 hd
    exact mem_declIds.1 henc.mem_right
  have hw : d ∈ ((withUses g).marks.of .ignored).toList ↔ d ∈ (g.marks.of .ignored).toList := by
    rw [withUses, mem_marks_markAll, marks_removeErroneous hg.toOwned]
    simp
  rw [← hshadow, markUsed_eq, mem_marks_markAll, hw]
  refine or_congr_left ⟨fun hd => hd.2.1, fun hd => ⟨rfl, hd, hlive hd⟩⟩

/-- **Marking twice changes nothing more.** -/
theorem marks_markUsed_markUsed (hg : g.Coherent named) (mark : Mark) :
    (markUsed (markUsed g)).marks.of mark = (markUsed g).marks.of mark := by
  have hm := coherent_markUsed hg
  cases mark with
  | retained => exact marks_markUsed_of_ne hm (by simp) (by simp)
  | assignOnly => exact marks_markUsed_of_ne hm (by simp) (by simp)
  | used =>
      refine SortedSet.eq_of_mem_iff fun d => ?_
      rw [← isMarked_iff, ← isMarked_iff]
      exact Bool.eq_iff_iff.1 (isUsed_markUsed_markUsed hg)
  | ignored =>
      refine SortedSet.eq_of_mem_iff fun d => ?_
      rw [mem_ignored_markUsed hm,
        mem_shadowed_congr (fun d => hasDeclaration_markUsed hm)
          (fun d => childrenOf_markUsed hm) fun d => isUsed_markUsed_markUsed hg]
      exact or_iff_right_of_imp fun hd => (mem_ignored_markUsed hg).2 (.inl hd)

/-! ## The pass -/

/-- **Marking finds exactly what is used**, after every history.  After the references into dead types
are gone, a least set `S` holds all that is used.  The used declarations are those that were marked
before and the members of `S`, so they are `S` where nothing was marked before, and marking once more
changes no mark. -/
theorem isLeast_markUsed (hg : g.Built) :
    (∃ S : Set DeclId, IsLeast {T | ClosedUnderUse (removeErroneous g) T} S ∧
      {d | (markUsed g).isUsed d = true} = {d | g.isUsed d = true} ∪ S ∧
      (g.marks.used = ∅ → {d | (markUsed g).isUsed d = true} = S)) ∧
    ∀ mark, (markUsed (markUsed g)).marks.of mark = (markUsed g).marks.of mark := by
  have hc := hg.coherent
  have hunion : {d | (markUsed g).isUsed d = true} =
      {d | g.isUsed d = true} ∪ {d | d ∈ reachable (removeErroneous g)} :=
    Set.ext fun d => isUsed_markUsed hc
  refine ⟨⟨_, isLeast_reachable (coherent_removeErroneous hc), hunion, fun hu => ?_⟩,
    marks_markUsed_markUsed hc⟩
  have hnone : {d | g.isUsed d = true} = (∅ : Set DeclId) :=
    Set.ext fun d => by simp [isUsed, isMarked, Marks.of, hu, SortedSet.contains]
  rw [hunion, hnone, Set.empty_union]

/-- Two functions that call each other; the first one is retained. -/
def mutualCalls : Graph :=
  let spot (line : Nat) : Location := ⟨⟨"a.swift"⟩, line, 1⟩
  let ops : List Operation := [
    .addDeclaration { kind := .freeFunction, usrs := .singleton "f", location := spot 1 } none,
    .addDeclaration { kind := .freeFunction, usrs := .singleton "g", location := spot 5 } none,
    .addReference { kind := .freeFunction, usr := "g", location := spot 2 } (some (.declaration ⟨0⟩)),
    .addReference { kind := .freeFunction, usr := "f", location := spot 6 } (some (.declaration ⟨1⟩)),
    .mark .retained ⟨0⟩]
  ops.foldl Operation.apply ∅

theorem reachable_mutualCalls : mutualCalls.Reachable :=
  Reachable.empty.foldl_apply
    ⟨List.cons_ne_nil _ _, List.cons_ne_nil _ _, trivial, trivial, trivial, trivial⟩

theorem isLeast_markUsed_mutualCalls : ∃ S : Set DeclId,
    IsLeast {T | ClosedUnderUse (removeErroneous mutualCalls) T} S ∧
      {d | (markUsed mutualCalls).isUsed d = true} = S := by
  obtain ⟨⟨S, hS, -, hu⟩, -⟩ := isLeast_markUsed reachable_mutualCalls.built
  exact ⟨S, hS, hu rfl⟩

example : (markUsed mutualCalls).marks.used.toList = [⟨0⟩, ⟨1⟩] := by decide +kernel

end Deadwood.Reachability

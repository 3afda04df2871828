/-
  What a graph with more loses less of.

  1. **`Leaner g h`** — two consistent graphs, where `g` has no references and retains nothing that `h`
     does not.

  2. **Properties that are only written** — what makes `h` take the writes of a property for its only
     uses makes `g` do so: there are fewer reads in `g`, and what is retained in `g` is retained in
     `h`.  So of the references of `g`, all go that go from `h` (`Leaner.eliminate`).

  3. **Dead conformers** — likewise what nothing retains or refers to in `h` is dead in `g`
     (`Leaner.removeErroneous`).

  4. **The search (`Leaner.isUsed_markUsed`)** — what is left of `g` leads nowhere where what is left of
     `h` does not lead.
-/
import Deadwood.Proofs.Reachability
import Deadwood.Pass.AssignOnly

namespace Deadwood

open Deadwood.Graph

variable {g h : Graph} {a d : DeclId} {q r : RefId}

namespace Graph

/-- `g` has no references that `h` has not, and retains nothing that `h` does not. -/
structure Leaner (g h : Graph) : Prop extends Sparser g h where
  left : g.Consistent
  right : h.Consistent
  retained : ∀ d, g.isRetained d = true → h.isRetained d = true

namespace Leaner

/-- Removing references on both sides, where `g` loses whatever it has of what `h` loses. -/
theorem foldl_removeReference (H : Leaner g h) {ids ids' : List RefId}
    (hids : ∀ q ∈ ids', g.hasReference q = true → q ∈ ids) :
    Leaner (ids.foldl removeReference g) (ids'.foldl removeReference h) where
  toSparser := H.toSparser.foldl_removeReference H.left.toOwned H.right.toOwned hids
  left := H.left.foldl_removeReference ids
  right := H.right.foldl_removeReference ids'
  retained d hd := by
    have hmarks := congrArg Notes.marks (pruned_foldl_removeReference H.left.toOwned ids).notes
    have hmarks' := congrArg Notes.marks (pruned_foldl_removeReference H.right.toOwned ids').notes
    have hold : g.isRetained d = true :=
      (congrArg (fun m : Marks => m.retained.contains d) hmarks).symm.trans hd
    exact (congrArg (fun m : Marks => m.retained.contains d) hmarks').trans (H.retained d hold)

/-- Marks other than those of retention do not matter. -/
theorem markAll (H : Leaner g h) {mark : Mark} (hm : mark ≠ .retained) (ids ids' : List DeclId) :
    Leaner (g.markAll mark ids) (h.markAll mark ids') where
  toSparser := H.toSparser.markAll ids ids'
  left := H.left.markAll ids
  right := H.right.markAll ids'
  retained d hd := by
    simp only [isRetained, isMarked_iff, mem_marks_markAll, hm, false_and, false_or] at hd ⊢
    exact isMarked_iff.1 (H.retained d (isMarked_iff.2 hd))

end Leaner

end Graph

/-! ## Properties that are only written -/

namespace AssignOnly

theorem accessorsOf_congr (H : SameOutline g h) {setters : Bool} :
    accessorsOf h d setters = accessorsOf g d setters := by
  unfold accessorsOf
  cases hx : g.declaration? d with
  | none => rw [H.declaration?_eq_none hx]
  | some x =>
      obtain ⟨y, hy, -, hl⟩ := H.exists_declaration hx
      have hmembers : y.members = x.members := congrArg (fun l => l.2.1) hl
      rw [hy]
      simp only [hmembers]
      exact List.filter_congr fun a _ => H.any_declaration fun x y hs => by rw [hs]

theorem mem_writes_iff (hg : g.Owned) :
    r ∈ writes g d ↔ ∃ a ∈ accessorsOf g d true, g.Names r a := by
  simp only [writes, List.mem_flatMap, hg.mem_referencesTo]

/-- The references that go when a property is judged. -/
def dropped (g : Graph) (d : DeclId) : List RefId :=
  if isCandidate g d && (reads g d).isEmpty then writes g d else []

theorem eliminateOne_eq : ∃ ids, eliminateOne g d =
    ((dropped g d).foldl Graph.removeReference g).markAll .assignOnly ids := by
  unfold eliminateOne dropped
  by_cases hjudged : (isCandidate g d && (reads g d).isEmpty) = true
  · rw [hjudged, Bool.true_and, if_pos rfl]
    by_cases hwrites : writes g d = []
    · exact ⟨[], by rw [hwrites]; rfl⟩
    · exact ⟨[d], by rw [if_pos (by simpa using hwrites)]; rfl⟩
  · rw [Bool.not_eq_true] at hjudged
    exact ⟨[], by rw [hjudged]; rfl⟩

end AssignOnly

namespace Graph.Sparser

open AssignOnly

variable (H : Sparser g h) (hg : g.Owned) (hh : h.Owned)

include H hg hh

theorem isRelatedTarget (hd : isRelatedTarget g d = true) : isRelatedTarget h d = true := by
  obtain ⟨r, hr, hrelated⟩ := List.any_eq_true.1 hd
  obtain ⟨x, hx, hrelated⟩ := (Option.any_eq_true _ _).1 hrelated
  obtain ⟨y, hy, hmention, -⟩ := H.exists_reference hx
  refine List.any_eq_true.2 ⟨r, H.mem_referencesTo hg hh hr, (Option.any_eq_true _ _).2 ⟨y, hy, ?_⟩⟩
  rw [hmention]
  exact hrelated

theorem related_isEmpty {x y : Declaration} (hx : g.declaration? d = some x)
    (hy : h.declaration? d = some y) (hempty : y.related.isEmpty = true) :
    x.related.isEmpty = true := by
  refine SortedSet.isEmpty_iff.2 fun r hr => ?_
  have hheld : r ∈ g.heldBy d true := mem_heldBy_iff.2 ⟨x, hx, hr⟩
  obtain ⟨y', hy', hr'⟩ := mem_heldBy_iff.1 (H.mem_heldBy hg hh hheld)
  rw [hy] at hy'
  cases hy'
  exact SortedSet.isEmpty_iff.1 hempty r hr'

/-- What qualifies in `h` qualifies in `g`, unless `g` retains it and `h` does not. -/
theorem isCandidate (hretained : g.isRetained d = true → h.isRetained d = true)
    (hd : isCandidate h d = true) : isCandidate g d = true := by
  obtain ⟨y, hy, hd⟩ := (Option.any_eq_true _ _).1 hd
  obtain ⟨x, hx, hs, hl⟩ := H.outline.symm.exists_declaration hy
  have hmembers : x.members = y.members := congrArg (fun l => l.2.1) hl
  have hwritten : hasWrittenAccessor g x = hasWrittenAccessor h y := by
    unfold hasWrittenAccessor
    rw [hmembers]
    exact List.any_congr rfl fun a => H.outline.symm.any_declaration fun x y hs => by rw [hs]
  refine (Option.any_eq_true _ _).2 ⟨x, hx, ?_⟩
  simp only [Bool.and_eq_true, Bool.not_eq_true', and_assoc] at hd ⊢
  obtain ⟨hproperty, hfree, hattributes, hoverride, hmember, hrelated, htarget, haccessor⟩ := hd
  rw [hs, hwritten, ← H.outline.isProtocolMember]
  exact ⟨hproperty, Bool.eq_false_iff.2 fun hyes => Bool.eq_false_iff.1 hfree (hretained hyes),
    hattributes, hoverride, hmember, H.related_isEmpty hg hh hx hy hrelated,
    Bool.eq_false_iff.2 fun hyes => Bool.eq_false_iff.1 htarget (H.isRelatedTarget hg hh hyes),
    haccessor⟩

theorem reads_eq_nil (hd : reads h d = []) : reads g d = [] := by
  refine List.eq_nil_iff_forall_not_mem.2 fun r hr => ?_
  have hmem : r ∈ reads h d := by
    unfold reads at hr ⊢
    rw [accessorsOf_congr H.outline]
    simp only [List.mem_append, List.mem_flatMap] at hr ⊢
    obtain hr | ⟨a, ha, hr⟩ := hr
    · exact .inl (H.mem_referencesTo hg hh hr)
    · exact .inr ⟨a, ha, H.mem_referencesTo hg hh hr⟩
  rw [hd] at hmem
  cases hmem

/-- Of the references of `g`, those go that go from `h`. -/
theorem mem_dropped (hretained : g.isRetained d = true → h.isRetained d = true)
    (hq : q ∈ dropped h d) (hlive : g.hasReference q = true) : q ∈ dropped g d := by
  unfold dropped at hq ⊢
  split at hq
  · rename_i hjudged
    rw [Bool.and_eq_true, List.isEmpty_iff] at hjudged
    rw [if_pos (by rw [H.isCandidate hg hh hretained hjudged.1, H.reads_eq_nil hg hh hjudged.2]; rfl)]
    obtain ⟨a, ha, hn⟩ := (mem_writes_iff hh).1 hq
    rw [accessorsOf_congr H.outline] at ha
    exact (mem_writes_iff hg).2 ⟨a, ha, H.names_of_live hlive hn⟩
  · cases hq

/-- Judging one property, which the one graph retains only where the other one does. -/
theorem eliminateOne (hretained : g.isRetained d = true → h.isRetained d = true) :
    Sparser (eliminateOne g d) (eliminateOne h d) := by
  obtain ⟨ids, he⟩ := eliminateOne_eq (g := g) (d := d)
  obtain ⟨ids', he'⟩ := eliminateOne_eq (g := h) (d := d)
  rw [he, he']
  exact (H.foldl_removeReference hg hh fun q hq hlive =>
    H.mem_dropped hg hh hretained hq hlive).markAll ids ids'

end Graph.Sparser

namespace Graph.Leaner

open AssignOnly

variable (H : Leaner g h)

include H

/-- **Judging one property keeps the leaner graph leaner.** -/
theorem eliminateOne : Leaner (eliminateOne g d) (eliminateOne h d) := by
  obtain ⟨ids, he⟩ := eliminateOne_eq (g := g) (d := d)
  obtain ⟨ids', he'⟩ := eliminateOne_eq (g := h) (d := d)
  rw [he, he']
  have hfold := H.foldl_removeReference fun q hq hlive =>
    H.toSparser.mem_dropped H.left.toOwned H.right.toOwned (H.retained d) hq hlive
  exact hfold.markAll (by decide) ids ids'

/-- Judging a property on the leaner side only. -/
theorem eliminateOne_left : Leaner (AssignOnly.eliminateOne g d) h := by
  obtain ⟨ids, he⟩ := eliminateOne_eq (g := g) (d := d)
  have hleft : Leaner ((dropped g d).foldl Graph.removeReference g) h :=
    H.foldl_removeReference fun q (hq : q ∈ []) => by cases hq
  rw [he]
  exact hleft.markAll (by decide) ids []

/-- **Cleaning up keeps the leaner graph leaner**, also where `h` is left alone. -/
theorem eliminate {s t : Settings}
    (hst : s.retainAssignOnlyProperties = true → t.retainAssignOnlyProperties = true) :
    Leaner (eliminate s g) (eliminate t h) := by
  unfold AssignOnly.eliminate
  rw [H.outline.declarationsWhere fun x y hs => by rw [hs]]
  generalize g.declarationsWhere (·.kind.isProperty) = ids
  by_cases hs : s.retainAssignOnlyProperties = true
  · rw [if_pos hs, if_pos (hst hs)]
    exact H
  · -- both sides judge the same properties in the same order; where `h` is left alone, the
    -- induction is on the graph of `g` only
    rw [if_neg hs]
    split
    · induction ids generalizing g with
      | nil => exact H
      | cons d ids ih => exact ih H.eliminateOne_left
    · induction ids generalizing g h with
      | nil => exact H
      | cons d ids ih => exact ih H.eliminateOne

/-! ## The search -/

theorem hasDeadAncestor (hd : Reachability.hasDeadAncestor h d = true) :
    Reachability.hasDeadAncestor g d = true := by
  obtain ⟨a, ha, hdead⟩ := List.any_eq_true.1 hd
  simp only [Bool.and_eq_true, Bool.not_eq_true'] at hdead
  obtain ⟨⟨hkind, hretained⟩, hreferenced⟩ := hdead
  refine List.any_eq_true.2 ⟨a, H.outline.mem_ancestors.1 ha, ?_⟩
  rw [H.outline.any_declaration fun x y hs => by rw [hs]] at hkind
  simp only [Bool.and_eq_true, Bool.not_eq_true']
  refine ⟨⟨hkind, ?_⟩, ?_⟩
  · exact Bool.eq_false_iff.2 fun hyes => Bool.eq_false_iff.1 hretained (H.retained a hyes)
  · exact Bool.eq_false_iff.2 fun hyes => Bool.eq_false_iff.1 hreferenced
      (H.toSparser.isReferenced H.left.toOwned H.right.toOwned hyes)

/-- **Of the references of `g`, those into dead types go that go from `h`.** -/
theorem removeErroneous : Leaner (Reachability.removeErroneous g) (Reachability.removeErroneous h) := by
  refine H.foldl_removeReference fun q hq hlive => ?_
  obtain ⟨y, member, hy, ho, hrelated, hmember, d, hn, hdead⟩ :=
    (Reachability.mem_erroneous H.right).1 hq
  obtain ⟨x, hx⟩ := hasReference_iff.1 hlive
  obtain ⟨y', hy', hmention, howner⟩ := H.exists_reference hx
  rw [hy] at hy'
  cases hy'
  refine (Reachability.mem_erroneous H.left).2 ⟨x, member, hx, howner.symm.trans ho, ?_, ?_, d,
    H.names_of_live hlive hn, H.hasDeadAncestor hdead⟩
  · rw [← hmention]; exact hrelated
  · rw [← H.outline.isProtocolMember]; exact hmember

/-- What the search finds in the leaner graph it finds in the other one. -/
theorem reachable_subset (hd : d ∈ Reachability.reachable (Reachability.removeErroneous g)) :
    d ∈ Reachability.reachable (Reachability.removeErroneous h) := by
  have H' := H.removeErroneous
  -- what is reached in `h` is closed under the uses of `g`, which are fewer
  have hclosed := (Reachability.closedUnderUse_reachable H'.right).sparser H'.left.toOwned
    H'.right.toOwned H'.toSparser H'.retained
  exact (Reachability.isLeast_reachable H'.left).2 hclosed hd

/-- **What is used in the leaner graph is used in the other one.** -/
theorem isUsed_markUsed (hnone : g.marks.used = ∅)
    (hd : (Reachability.markUsed g).isUsed d = true) : (Reachability.markUsed h).isUsed d = true := by
  have hreached := (Reachability.isUsed_markUsed_of_unmarked H.left hnone).1 hd
  exact (Reachability.isUsed_markUsed H.right).2 (.inr (H.reachable_subset hreached))

end Graph.Leaner

end Deadwood

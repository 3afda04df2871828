/-
  The search with more roots.

  1. **`MoreRoots new g h`** — the same program twice, where `h` retains what `g` retains and besides
     only what is in `new`.

  2. **Properties that are only written (`MoreRoots.eliminate`)** — both graphs lose the same
     references, as long as no property is new.

  3. **Dead conformers** — `g` may lose more than `h`.  What only `g` loses leads into something that a
     new root encloses (`exists_root_of_lost`), and it is not made outside of all declarations
     (`hasReference_of_nests_root`).

  4. **The search (`mem_of_absorbs`)** — what `h` reaches was reached in `g` or is in any set that takes
     in the rest (`Absorbs`): the new roots and what is used through them, or through references that
     only `g` lost.
-/
import Deadwood.Proofs.ReferenceForest
import Deadwood.Proofs.Retaining.Leaner

namespace Deadwood

open Deadwood.Graph Reachability

variable {g h : Graph} {a d : DeclId} {q r : RefId} {new T : Set DeclId} {s : Settings}

/-- What is retained does not change when a property is judged. -/
theorem AssignOnly.isRetained_eliminateOne (hg : g.Owned) :
    (eliminateOne g d).isRetained a = g.isRetained a := by
  obtain ⟨ids, he⟩ := eliminateOne_eq (g := g) (d := d)
  have hmarks := congrArg Notes.marks (pruned_foldl_removeReference hg (dropped g d)).notes
  rw [Bool.eq_iff_iff, isRetained, isMarked_iff, isRetained, isMarked_iff, he, mem_marks_markAll]
  rw [show ((dropped g d).foldl Graph.removeReference g).marks = g.marks from hmarks]
  simp

namespace Graph

/-- What encloses a declaration has children. -/
theorem Nested.childrenOf_ne_nil (hg : g.Nested) (ha : a ∈ g.ancestors d) : g.childrenOf a ≠ [] := by
  obtain ⟨hup, hne⟩ := mem_ancestors.1 ha
  cases hup with
  | here _ => exact absurd rfl hne
  | @step c _ _ hparent _ =>
      have hchild : c ∈ g.childrenOf a := (hg.child_iff a c).2 (by simpa using hparent)
      exact List.ne_nil_of_mem hchild

/-- The same program, where `h` retains what `g` retains and besides only what is in `new`. -/
structure MoreRoots (new : Set DeclId) (g h : Graph) : Prop extends Leaner g h where
  back : Sparser h g
  kept : ∀ d, h.isRetained d = true → g.isRetained d = true ∨ d ∈ new

namespace MoreRoots

/-- Declarations that are retained in addition. -/
theorem retainAll (hg : g.Consistent) {ids : List DeclId} (hids : ∀ d ∈ ids, d ∈ new) :
    MoreRoots new g (g.retainAll ids) where
  toSparser := Sparser.refl.markAll [] ids
  left := hg
  right := hg.markAll ids
  retained d hd := by
    rw [isRetained, isMarked_iff] at hd ⊢
    exact mem_marks_markAll.2 (.inr hd)
  back := Sparser.refl.markAll ids []
  kept d hd := by
    rw [isRetained, isMarked_iff] at hd ⊢
    rcases mem_marks_markAll.1 hd with ⟨-, hmem, -⟩ | hold
    · exact .inr (hids d hmem)
    · exact .inl hold

/-- More may count as new. -/
theorem mono {new' : Set DeclId} (hnew : new ⊆ new') (H : MoreRoots new g h) :
    MoreRoots new' g h where
  toLeaner := H.toLeaner
  back := H.back
  kept d hd := (H.kept d hd).imp_right fun hmem => hnew hmem

variable (H : MoreRoots new g h)

include H

/-- What is not new is retained in both graphs or in none. -/
theorem isRetained_iff (hd : d ∉ new) : h.isRetained d = true ↔ g.isRetained d = true :=
  ⟨fun hr => (H.kept d hr).resolve_right hd, H.retained d⟩

/-! ## Properties that are only written -/

theorem eliminateOne (hd : d ∉ new) :
    MoreRoots new (AssignOnly.eliminateOne g d) (AssignOnly.eliminateOne h d) where
  toLeaner := H.toLeaner.eliminateOne
  back := H.back.eliminateOne H.right.toOwned H.left.toOwned (H.isRetained_iff hd).1
  kept c hc := by
    rw [AssignOnly.isRetained_eliminateOne H.right.toOwned] at hc
    rw [AssignOnly.isRetained_eliminateOne H.left.toOwned]
    exact H.kept c hc

/-- **Cleaning up loses the same references**, where no property is new. -/
theorem eliminate (hnew : ∀ d ∈ g.declarationsWhere (·.kind.isProperty), d ∉ new) :
    MoreRoots new (AssignOnly.eliminate s g) (AssignOnly.eliminate s h) := by
  unfold AssignOnly.eliminate
  rw [H.outline.declarationsWhere fun x y hs => by rw [hs]]
  revert hnew
  generalize g.declarationsWhere (·.kind.isProperty) = ids
  intro hnew
  split
  · exact H
  · induction ids generalizing g h with
    | nil => exact H
    | cons d ids ih =>
        have hone := H.eliminateOne (hnew d List.mem_cons_self)
        exact ih hone fun c hc => hnew c (List.mem_cons_of_mem d hc)

/-! ## Dead conformers -/

/-- What is made outside of all declarations in the larger graph is there in the smaller one. -/
theorem hasReference_of_nests_root (hq : q ∈ (removeErroneous h).rootReferences.toList)
    (hn : (removeErroneous h).Nests q r) :
    (removeErroneous g).hasReference r = true := by
  have P := pruned_removeErroneous H.left.toOwned
  have hc' := coherent_removeErroneous H.right
  -- in the graph that loses more, before it loses anything
  have hsub : Sparser (removeErroneous h) g :=
    (pruned_removeErroneous H.right.toOwned).sparser.trans H.back
  have hroot := hsub.mem_rootReferences hc'.toOwned H.left.toOwned hq
  have hn' := hsub.nests hc'.toOwned H.left.toOwned hn
  refine P.hasReference_iff.2 ⟨hn'.live_right, fun hgone => ?_⟩
  obtain ⟨e, he, hmem⟩ := List.mem_flatMap.1 hgone
  obtain ⟨x, member, hx, ho, -⟩ := (mem_erroneous H.left).1 he
  have howner : g.ownerOf? e = some (.declaration member) := ownerOf?_eq_some_iff.2 ⟨x, hx, ho⟩
  -- the tree of a root reference has nothing in common with what a requirement makes
  have hne : e ≠ q := by
    rintro rfl
    rw [((H.left.rootReference_iff e).1 hroot).2] at howner
    cases howner
  exact H.left.disjoint_referenceTree (outermost_of_held howner)
    (H.left.toOwned.outermost_of_root hroot) hne hmem (mem_referenceTree.2 hn')

/-- What is dead in the smaller graph only stands in a new root. -/
theorem exists_root_of_revived (hdead : hasDeadAncestor g d = true)
    (halive : hasDeadAncestor h d = false) :
    ∃ p ∈ h.ancestors d, h.isRetained p = true ∧ g.isRetained p = false := by
  obtain ⟨p, hp, hdead⟩ := List.any_eq_true.1 hdead
  simp only [Bool.and_eq_true, Bool.not_eq_true'] at hdead
  obtain ⟨⟨hkind, hfree⟩, hunnamed⟩ := hdead
  have hp' : p ∈ h.ancestors d := H.outline.mem_ancestors.2 hp
  refine ⟨p, hp', ?_, hfree⟩
  -- otherwise it would be dead in the larger graph for the same reasons
  have hkind' : (h.declaration? p).any (·.kind != .protocolType) = true := by
    rw [H.outline.any_declaration fun x y hs => by rw [hs]]
    exact hkind
  have hunnamed' : h.isReferenced p = false := Bool.eq_false_iff.2 fun hyes =>
    Bool.eq_false_iff.1 hunnamed (H.back.isReferenced H.right.toOwned H.left.toOwned hyes)
  have hstands := List.any_eq_false.1 halive p hp'
  rw [hkind', hunnamed'] at hstands
  simpa using hstands

/-- **What only the smaller graph loses leads into something that a new root encloses.** -/
theorem exists_root_of_lost (hr : (removeErroneous h).hasReference r = true)
    (hlost : (removeErroneous g).hasReference r = false) :
    ∃ p, h.isRetained p = true ∧ g.isRetained p = false ∧ h.childrenOf p ≠ [] := by
  have P := pruned_removeErroneous H.left.toOwned
  have P' := pruned_removeErroneous H.right.toOwned
  obtain ⟨hlive, hstays⟩ := P'.hasReference_iff.1 hr
  have hgone : r ∈ (erroneous g).flatMap g.referenceTree := by
    by_contra hno
    rw [P.hasReference_iff.2 ⟨H.back.hasReference hlive, hno⟩] at hlost
    cases hlost
  obtain ⟨e, he, hmem⟩ := List.mem_flatMap.1 hgone
  obtain ⟨x, member, hx, ho, hrelated, hmember, c, hnames, hdead⟩ := (mem_erroneous H.left).1 he
  obtain ⟨y, hy, hmention, howner⟩ := H.exists_reference hx
  -- the larger graph keeps it, so what it leads into is not dead there
  have halive : hasDeadAncestor h c = false := by
    refine Bool.eq_false_iff.2 fun hyes => hstays (List.mem_flatMap.2 ⟨e, ?_, ?_⟩)
    · refine (mem_erroneous H.right).2 ⟨y, member, hy, howner.trans ho, ?_, ?_, c,
        H.names hnames, hyes⟩
      · rw [hmention]; exact hrelated
      · rw [H.outline.isProtocolMember]; exact hmember
    · exact mem_referenceTree.2
        (H.toSparser.nests H.left.toOwned H.right.toOwned (mem_referenceTree.1 hmem))
  obtain ⟨p, hp, hretained, hfree⟩ := H.exists_root_of_revived hdead halive
  exact ⟨p, hretained, hfree, H.right.childrenOf_ne_nil hp⟩

/-! ## The search -/

/-- `T` holds the new roots and, with what was reached without them, whatever is used through a
declaration or a reference that the search did not have then. -/
structure Absorbs (g h : Graph) (T : Set DeclId) : Prop where
  live : ∀ d ∈ T, (removeErroneous h).hasDeclaration d = true
  roots : ∀ d, h.isRetained d = true → g.isRetained d = false → d ∈ T
  uses : ∀ d, d ∈ reachable (removeErroneous g) ∨ d ∈ T →
    ∀ r ∈ (removeErroneous h).referencesFrom d, ∀ t, (removeErroneous h).Names r t →
    d ∉ reachable (removeErroneous g) ∨ (removeErroneous g).hasReference r = false →
    t ∈ reachable (removeErroneous g) ∨ t ∈ T
  property : ∀ a ∈ T, ∀ x, (removeErroneous h).declaration? a = some x →
    x.kind.isAccessor = true → ∀ p, x.parent = some p → p ∈ reachable (removeErroneous g) ∨ p ∈ T

omit H in
/-- What was reached, with a set that takes in the rest, holds all that is used. -/
theorem Absorbs.closedUnderUse (A : Absorbs g h T) (H : MoreRoots new g h) :
    ClosedUnderUse (removeErroneous h) ({d | d ∈ reachable (removeErroneous g)} ∪ T) := by
  have H' : Leaner (removeErroneous g) (removeErroneous h) := H.toLeaner.removeErroneous
  have hclosed := closedUnderUse_reachable H'.left
  refine ⟨?_, ?_, ?_, ?_, ?_⟩
  · rintro d (hd | hd)
    · rw [H'.outline.hasDeclaration]
      exact hclosed.live d hd
    · exact A.live d hd
  · intro d hlive hd
    rw [H'.outline.hasDeclaration] at hlive
    by_cases hold : (removeErroneous g).isRetained d = true
    · exact .inl (hclosed.retained d hlive hold)
    · rw [isRetained_removeErroneous H.right.toOwned] at hd
      rw [isRetained_removeErroneous H.left.toOwned, Bool.not_eq_true] at hold
      exact .inr (A.roots d hd hold)
  · -- references outside of all declarations
    intro q hq r hn d hnames
    have hr := H.hasReference_of_nests_root hq hn
    have hn' := H'.nests_of_live H'.left.toOwned H'.right.toOwned hn hr
    have hq' : q ∈ (removeErroneous g).rootReferences.toList := by
      refine (H'.left.rootReference_iff q).2 ⟨hn'.live_left, ?_⟩
      rw [← H'.ownerOf? hn'.live_left]
      exact ((H'.right.rootReference_iff q).1 hq).2
    exact .inl (hclosed.outer q hq' r hn' d (H'.names_of_live hr hnames))
  · intro d hd r hr t hnames
    by_cases hold : d ∈ reachable (removeErroneous g) ∧ (removeErroneous g).hasReference r = true
    · have hr' := H'.mem_referencesFrom_of_live H'.left.toOwned H'.right.toOwned hr hold.2
      exact .inl (hclosed.uses d hold.1 r hr' t (H'.names_of_live hold.2 hnames))
    · rw [not_and_or, Bool.not_eq_true] at hold
      exact A.uses d hd r hr t hnames hold
  · rintro a (ha | ha) x hx hk p hp
    · obtain ⟨y, hy, hs, hl⟩ := H'.outline.symm.exists_declaration hx
      exact .inl (hclosed.property a ha y hy (by rw [hs]; exact hk) p
        ((congrArg Prod.fst hl).trans hp))
    · exact A.property a ha x hx hk p hp

/-- **More roots lead no further than the new ones do.**  What is reached with them was reached before
or is in a set that takes in the rest. -/
theorem mem_of_absorbs (A : Absorbs g h T) (hd : d ∈ reachable (removeErroneous h)) :
    d ∈ reachable (removeErroneous g) ∨ d ∈ T :=
  (isLeast_reachable H.toLeaner.removeErroneous.right).2 (A.closedUnderUse H) hd

end MoreRoots

end Graph

end Deadwood

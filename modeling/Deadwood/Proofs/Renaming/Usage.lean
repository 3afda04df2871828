/-
  What is used does not depend on numbers.

  The removal of writes, the removal of references into dead types and the search for what is used
  read sets of handles, and corresponding sets give corresponding answers.  Nothing here adds a
  reference, so the renaming stays as it is.
-/
import Deadwood.Pass.AssignOnly
import Deadwood.Pass.Reachability
import Deadwood.Proofs.Renaming.Rules

namespace Deadwood

open Deadwood.Graph

variable {δ : DeclId ≃ DeclId} {ρ : RefId ≃ RefId} {g h : Graph} {d : DeclId} {r : RefId}

/-- The references to corresponding declarations. -/
theorem Graph.Twin.mapped_referencesTo (T : Twin δ ρ g h) :
    Mapped ρ (g.referencesTo d) (h.referencesTo (δ d)) := fun _ => T.mem_referencesTo

/-! ## Properties that are only written -/

namespace AssignOnly

variable (T : Twin δ ρ g h)
include T

theorem isRelatedTarget_eq : isRelatedTarget h (δ d) = isRelatedTarget g d :=
  T.mapped_referencesTo.any fun _ _ => T.any_reference fun _ _ => rfl

theorem hasWrittenAccessor_rename {x : Declaration} :
    hasWrittenAccessor h (x.rename δ ρ) = hasWrittenAccessor g x :=
  Mapped.any (e := δ) (fun _ => Declaration.mem_members_rename) fun _ _ =>
    T.any_declaration fun _ _ => rfl

theorem isCandidate_eq : isCandidate h (δ d) = isCandidate g d := by
  refine T.any_declaration fun x _ => ?_
  have hrelated : (x.rename δ ρ).related.isEmpty = x.related.isEmpty := SortedSet.isEmpty_image
  have hretained : h.isRetained (δ d) = g.isRetained d := T.isMarked
  simp only [Declaration.toSymbol_rename, hretained, T.isProtocolMember, hrelated,
    isRelatedTarget_eq T, hasWrittenAccessor_rename T]

theorem mapped_accessorsOf {setters : Bool} :
    Mapped δ (accessorsOf g d setters) (accessorsOf h (δ d) setters) := by
  unfold accessorsOf
  rw [T.declaration]
  cases g.declaration? d with
  | none => exact .nil
  | some x =>
      refine Mapped.filter (fun _ => Declaration.mem_members_rename) fun _ _ => ?_
      exact T.any_declaration fun _ _ => rfl

theorem mapped_reads : Mapped ρ (reads g d) (reads h (δ d)) :=
  T.mapped_referencesTo.append ((mapped_accessorsOf T).flatMap fun _ _ => T.mapped_referencesTo)

theorem mapped_writes : Mapped ρ (writes g d) (writes h (δ d)) :=
  (mapped_accessorsOf T).flatMap fun _ _ => T.mapped_referencesTo

theorem tracks_eliminateOne : Tracks δ ρ g h (eliminateOne g d) (eliminateOne h (δ d)) := by
  unfold eliminateOne
  rw [isCandidate_eq T, (mapped_reads T).isEmpty, (mapped_writes T).isEmpty]
  split
  · refine (T.tracks_foldl_removeReference (mapped_writes T (d := d))).bind fun _ _ T' => ?_
    exact T'.tracks_markAll .assignOnly (Mapped.nil.cons (a := d))
  · exact .refl T

/-- The same properties are only written. -/
theorem tracks_eliminate {s : Settings} : Tracks δ ρ g h (eliminate s g) (eliminate s h) := by
  unfold eliminate
  split
  · exact .refl T
  · rw [T.declarationsWhere (p := (·.kind.isProperty)) fun _ _ _ => rfl]
    exact T.foldl_map _ fun _ _ _ _ T' _ _ => tracks_eliminateOne T'

end AssignOnly

/-! ## Reachability -/

namespace Reachability

variable (T : Twin δ ρ g h)
include T

theorem hasDeadAncestor_eq : hasDeadAncestor h (δ d) = hasDeadAncestor g d := by
  refine (Mapped.of_eq_map T.ancestors).any fun a _ => ?_
  have hretained : h.isRetained (δ a) = g.isRetained a := T.isMarked
  rw [hretained, T.isReferenced, T.any_declaration fun _ _ => rfl]
  rfl

theorem mapped_erroneous : Mapped ρ (erroneous g) (erroneous h) := by
  have hmembers : Mapped δ (g.sortedDeclarations (g.declIds.filter g.isProtocolMember))
      (h.sortedDeclarations (h.declIds.filter h.isProtocolMember)) :=
    .of_eq_map (T.sortedDeclarations fun d _ => by
      rw [List.mem_filter, List.mem_filter, T.mem_declIds, T.isProtocolMember])
  refine hmembers.flatMap fun d _ => ?_
  rw [T.declaration]
  cases hx : g.declaration? d with
  | none => exact .nil
  | some x =>
      refine Mapped.filter (.of_eq_map (T.sortedReferences_related hx)) fun r _ => ?_
      refine T.any_reference fun y _ => ?_
      exact T.mapped_declarationsWithUsr.any fun _ _ => hasDeadAncestor_eq T

theorem mapped_targets : Mapped δ (targets g r) (targets h (ρ r)) := by
  unfold targets
  rw [T.reference]
  cases g.reference? r with
  | none => exact .nil
  | some x => exact T.mapped_declarationsWithUsr

theorem mapped_usedBy : Mapped δ (usedBy g d) (usedBy h (δ d)) := by
  refine Mapped.append (Mapped.flatMap (fun _ => T.mem_referencesFrom) fun _ _ => mapped_targets T) ?_
  rw [T.declaration]
  cases g.declaration? d with
  | none => exact .nil
  | some x =>
      simp only [Option.map_some, Declaration.toSymbol_rename, Declaration.parent_rename]
      by_cases hx : x.kind.isAccessor = true
      · refine .of_eq_map ?_
        simp only [hx, if_true]
        cases x.parent <;> rfl
      · simp only [hx, if_false, Bool.false_eq_true]
        exact .nil

theorem mapped_startingPoints : Mapped δ (startingPoints g) (startingPoints h) := by
  refine Mapped.append (fun d => ?_) ?_
  · rw [show h.marks.retained = g.marks.retained.image δ from T.marks .retained,
      SortedSet.mem_image_iff δ.injective]
  · have hroots : Mapped ρ g.rootReferences.toList h.rootReferences.toList := fun r => by
      rw [T.rootReferences, SortedSet.mem_image_iff ρ.injective]
    exact (hroots.flatMap fun _ _ _ => T.mem_referenceTree).flatMap fun _ _ => mapped_targets T

/-- **Corresponding declarations are reached.** -/
theorem mapped_reachable : Mapped δ (reachable g) (reachable h) := fun _ =>
  mem_explore_map_iff δ (fun _ c => mapped_usedBy T c) (fun _ => T.mem_declIds)
    (mapped_startingPoints T)

theorem mapped_shadowed : Mapped δ (shadowed g) (shadowed h) := by
  have hused : ∀ d, h.isUsed (δ d) = g.isUsed d := fun _ => T.isMarked
  have hinner : ∀ d, Mapped δ (g.childrenOf d) (h.childrenOf (δ d)) := fun d _ => T.mem_childrenOf
  have houter : Mapped δ (g.declIds.filter fun id => !g.isUsed id && !(g.childrenOf id).isEmpty)
      (h.declIds.filter fun id => !h.isUsed id && !(h.childrenOf id).isEmpty) :=
    Mapped.filter (fun _ => T.mem_declIds) fun d _ => by rw [hused, (hinner d).isEmpty]
  refine houter.flatMap fun d _ => Mapped.filter (.of_eq_map T.descendants) fun c _ => ?_
  rw [hused]

/-- The same declarations are used, and the same ones ignored. -/
theorem tracks_markUsed : Tracks δ ρ g h (markUsed g) (markUsed h) := by
  refine (T.tracks_foldl_removeReference (mapped_erroneous T)).bind fun _ _ T₁ => ?_
  refine (T₁.tracks_markAll .used (mapped_reachable T₁)).bind fun _ _ T₂ => ?_
  exact T₂.tracks_markAll .ignored (mapped_shadowed T₂)

end Reachability

end Deadwood

/-
  Folding extensions does not depend on numbers.

  An extension gives its members and its references to what it extends, in the order of their
  numbers.  Moving two declarations to one target commutes, and so does moving two references of
  one owner: an equal reference that the target has already decides for each of them alone.
-/
import Deadwood.Proofs.Renaming.Synthesis

namespace Deadwood.Extensions

open Deadwood.Graph

variable {δ : DeclId ≃ DeclId} {ρ : RefId ≃ RefId} {b g h k : Graph} {d e t : DeclId} {r s : RefId}

/-! ## Moving members -/

/-- A state between two moves of declarations. -/
structure Sound (b k : Graph) : Prop where
  consistent : k.Consistent
  unambiguous : k.Unambiguous
  size : b.references.size ≤ k.references.size

theorem Sound.moveDeclaration (H : Sound b k) : Sound b (k.moveDeclaration d t) where
  consistent := H.consistent.moveDeclaration
  unambiguous := ((Twin.refl H.consistent H.unambiguous).moveDeclaration (d := d) (t := t)).unambiguous
  size := by rw [references_size_moveDeclaration]; exact H.size

/-- Moving declarations to one target, in another order. -/
theorem alike_foldl_moveDeclaration (H : Sound b k) {xs ys : List DeclId} (hp : xs.Perm ys) :
    Alike b (xs.foldl (fun g m => g.moveDeclaration m t) k)
      (ys.foldl (fun g m => g.moveDeclaration m t) k) := by
  have hcomm : ∀ (k : Graph) (x y : DeclId) (_ : List DeclId), True → True → Sound b k →
      Alike b ((k.moveDeclaration x t).moveDeclaration y t)
        ((k.moveDeclaration y t).moveDeclaration x t) := fun k x y _ _ _ hk =>
    .of_twin hk.moveDeclaration.moveDeclaration.size hk.moveDeclaration.moveDeclaration.size
      (moveDeclaration_comm hk.consistent hk.unambiguous)
  refine foldl_alike (I := fun k _ => Sound b k)
    (fun k _ hk => .rfl hk.size hk.consistent hk.unambiguous) (fun _ _ _ _ hk => hk)
    (fun k m _ hk => hk.moveDeclaration) (fun k l m _ hk H => H.step fun τ _ T => ?_) hcomm hp
    (List.pairwise_of_forall fun _ _ => trivial) (List.pairwise_of_forall fun _ _ => trivial) H
  exact .of_twin (Nat.le_of_eq references_size_moveDeclaration.symm)
    (Nat.le_of_eq references_size_moveDeclaration.symm) T.moveDeclaration

/-- Moving corresponding declarations, each graph in its own order. -/
theorem tracks_foldl_moveDeclaration (T : Twin δ ρ g h) {xs ys : List DeclId}
    (hp : (xs.map δ).Perm ys) :
    Tracks δ ρ g h (xs.foldl (fun g m => g.moveDeclaration m t) g)
      (ys.foldl (fun g m => g.moveDeclaration m (δ t)) h) := by
  have hinorder : Tracks δ ρ g h (xs.foldl (fun g m => g.moveDeclaration m t) g)
      ((xs.map δ).foldl (fun g m => g.moveDeclaration m (δ t)) h) :=
    T.foldl_map xs fun ρ' g' h' _ T' m _ =>
      .of_twin (Nat.le_of_eq references_size_moveDeclaration.symm)
        (Nat.le_of_eq references_size_moveDeclaration.symm) T'.moveDeclaration
  exact hinorder.along
    (alike_foldl_moveDeclaration ⟨T.right, T.unambiguous_right, Nat.le_refl _⟩ hp)

/-! ## Moving references -/

/-- Another reference of a declaration stays where it is. -/
theorem ownerOf?_moveReference (hk : k.Consistent) (hr : k.ownerOf? r = some (.declaration e))
    (hs : k.ownerOf? s = some (.declaration e)) (hne : s ≠ r) :
    (k.moveReference r t).ownerOf? s = some (.declaration e) := by
  obtain ⟨x, hx, hxo⟩ := ownerOf?_eq_some_iff.1 hr
  by_cases hstay : k.hasDeclaration t ≠ true ∨ x.owner = some (.declaration t)
  · rw [moveReference_of_stay hx hstay]
    exact hs
  · obtain ⟨ht, ho⟩ := not_or.1 hstay
    rw [ne_eq, not_not] at ht
    by_cases heq : k.equalReference? x.toMention.key (some (.declaration t)) = none
    · obtain ⟨y, hy, hyo⟩ := ownerOf?_eq_some_iff.1 hs
      rw [moveReference_of_new hx ht ho heq, ownerOf?, reference?_reowned, hy]
      simp [hxo, Ne.symm hne, hyo]
    · rw [moveReference_of_equal hx ht ho heq,
        (pruned_removeReference hk.toOwned r).ownerOf?
          (not_mem_referenceTree hk.toOwned hs hne)]
      exact hs

/-- A state between two moves of references: what is left to move belongs to the extension. -/
structure Leaving (b : Graph) (e : DeclId) (k : Graph) (ids : List RefId) : Prop
    extends Sound b k where
  nodup : ids.Nodup
  owner : ∀ r ∈ ids, k.ownerOf? r = some (.declaration e)
  issued : ∀ r ∈ ids, r.index < b.references.size

namespace Leaving

variable {ids ids' : List RefId}

theorem perm (hp : ids.Perm ids') (H : Leaving b e k ids) : Leaving b e k ids' :=
  ⟨H.toSound, hp.nodup_iff.1 H.nodup, fun r hr => H.owner r (hp.mem_iff.2 hr),
    fun r hr => H.issued r (hp.mem_iff.2 hr)⟩

theorem step (H : Leaving b e k (r :: ids)) : Leaving b e (k.moveReference r t) ids := by
  have T := Twin.refl H.consistent H.unambiguous
  obtain ⟨hr, hids⟩ := List.nodup_cons.1 H.nodup
  refine ⟨⟨H.consistent.moveReference, (T.moveReference (r := r) (t := t)).unambiguous, ?_⟩, hids,
    fun s hs => ?_, fun s hs => H.issued s (List.mem_cons_of_mem r hs)⟩
  · rw [references_size_moveReference H.consistent.toOwned]
    exact H.size
  · exact ownerOf?_moveReference H.consistent (H.owner r List.mem_cons_self)
      (H.owner s (List.mem_cons_of_mem r hs)) fun he => hr (he ▸ hs)

end Leaving

/-- Moving references of one owner, in another order. -/
theorem alike_foldl_moveReference {xs ys : List RefId} (H : Leaving b e k xs) (hp : xs.Perm ys) :
    Alike b (xs.foldl (fun g r => g.moveReference r t) k)
      (ys.foldl (fun g r => g.moveReference r t) k) := by
  have hsize : ∀ {k : Graph} {r : RefId}, k.Consistent →
      k.references.size ≤ (k.moveReference r t).references.size := fun hk =>
    Nat.le_of_eq (references_size_moveReference hk.toOwned).symm
  have hresp : ∀ k l r ids, Leaving b e k (r :: ids) → Alike b k l →
      Alike b (k.moveReference r t) (l.moveReference r t) := by
    intro k l r ids hk Hkl
    refine Hkl.step fun τ hτ T => .of_twin (hsize T.left) (hsize T.right) ?_
    have hmove := T.moveReference (r := r) (t := t)
    rwa [hτ r (hk.issued r List.mem_cons_self)] at hmove
  have hcomm : ∀ k x y ids, x ≠ y → True → Leaving b e k (y :: x :: ids) →
      Alike b ((k.moveReference x t).moveReference y t)
        ((k.moveReference y t).moveReference x t) := by
    intro k x y ids hne _ hk
    have hs : ∀ x y, b.references.size ≤
        ((k.moveReference x t).moveReference y t).references.size := fun x y =>
      Nat.le_trans hk.size (Nat.le_trans (hsize hk.consistent) (hsize hk.consistent.moveReference))
    exact .of_twin (hs x y) (hs y x) (moveReference_comm hk.consistent hk.unambiguous hne
      (hk.owner x (List.mem_cons_of_mem y List.mem_cons_self)) (hk.owner y List.mem_cons_self))
  exact foldl_alike (fun k _ hk => .rfl hk.size hk.consistent hk.unambiguous)
    (fun _ _ _ hp hk => hk.perm hp) (fun _ _ _ hk => hk.step) hresp hcomm hp H.nodup
    (List.pairwise_of_forall fun _ _ => trivial) H

/-- Moving corresponding references of one owner, each graph in its own order. -/
theorem tracks_foldl_moveReference (T : Twin δ ρ g h) {xs ys : List RefId}
    (hown : ∀ r ∈ xs, g.ownerOf? r = some (.declaration e)) (hxs : xs.Nodup)
    (hp : (xs.map ρ).Perm ys) :
    Tracks δ ρ g h (xs.foldl (fun g r => g.moveReference r t) g)
      (ys.foldl (fun g r => g.moveReference r (δ t)) h) := by
  have hown' : ∀ r ∈ xs.map ρ, h.ownerOf? r = some (.declaration (δ e)) := by
    intro r hr
    obtain ⟨q, hq, rfl⟩ := List.mem_map.1 hr
    rw [T.ownerOf?, hown q hq]
    rfl
  have hissued : ∀ r ∈ xs.map ρ, r.index < h.references.size := fun r hr =>
    index_lt_of_hasReference (live_of_ownerOf? (hown' r hr))
  have hinorder : Tracks δ ρ g h (xs.foldl (fun g r => g.moveReference r t) g)
      ((xs.map ρ).foldl (fun g r => g.moveReference r (δ t)) h) := by
    refine T.foldl_map xs fun ρ' g' h' hρ T' r hr => ?_
    have hlive := live_of_ownerOf? (hown r hr)
    rw [← hρ r (index_lt_of_hasReference hlive) (hissued _ (List.mem_map_of_mem hr))]
    exact .of_twin (Nat.le_of_eq (references_size_moveReference T'.left.toOwned).symm)
      (Nat.le_of_eq (references_size_moveReference T'.right.toOwned).symm) T'.moveReference
  refine hinorder.along (alike_foldl_moveReference (e := δ e)
    ⟨⟨T.right, T.unambiguous_right, Nat.le_refl _⟩, hxs.map ρ.injective, hown', hissued⟩ hp)

/-! ## Folding -/

theorem references_foldl_moveDeclaration {ids : List DeclId} :
    (ids.foldl (fun g m => g.moveDeclaration m t) g).references = g.references := by
  induction ids generalizing g with
  | nil => rfl
  | cons m ids ih => rw [List.foldl_cons, ih, references_moveDeclaration]

theorem perm_members (x : Declaration) :
    (x.members.toList.map δ).Perm (x.rename δ ρ).members.toList := by
  refine (List.perm_ext_iff_of_nodup (x.members.nodup.map δ.injective)
    (x.rename δ ρ).members.nodup).2 fun m => ?_
  obtain ⟨m, rfl⟩ := δ.surjective m
  rw [List.mem_map_of_injective δ.injective, Declaration.mem_members_rename]

theorem perm_ownReferences (T : Twin δ ρ g h) {x : Declaration} (hx : g.declaration? d = some x) :
    (x.ownReferences.map ρ).Perm (x.rename δ ρ).ownReferences := by
  have hx' : h.declaration? (δ d) = some (x.rename δ ρ) := by rw [T.declaration, hx]; rfl
  refine (List.perm_ext_iff_of_nodup ((T.left.toOwned.nodup_ownReferences hx).map ρ.injective)
    (T.right.toOwned.nodup_ownReferences hx')).2 fun r => ?_
  obtain ⟨r, rfl⟩ := ρ.surjective r
  rw [List.mem_map_of_injective ρ.injective, Declaration.mem_ownReferences,
    Declaration.mem_ownReferences]
  exact exists_congr fun i => Declaration.mem_held_rename.symm

/-- Giving everything of an extension, as it was read before, to what it extends. -/
theorem tracks_absorb (T : Twin δ ρ g h) {x : Declaration} (hx : g.declaration? e = some x) :
    Tracks δ ρ g h
      (((x.ownReferences.foldl (fun g r => g.moveReference r t)
        (x.members.toList.foldl (fun g m => g.moveDeclaration m t) g)).recordFolded
          e t).removeDeclaration e)
      ((((x.rename δ ρ).ownReferences.foldl (fun g r => g.moveReference r (δ t))
        ((x.rename δ ρ).members.toList.foldl (fun g m => g.moveDeclaration m (δ t)) h)).recordFolded
          (δ e) (δ t)).removeDeclaration (δ e)) := by
  have hown : ∀ r ∈ x.ownReferences, g.ownerOf? r = some (.declaration e) := by
    intro r hr
    obtain ⟨i, hi⟩ := Declaration.mem_ownReferences.1 hr
    exact T.left.toOwned.listed.held e x i r hx hi
  have hmembers : (x.members.toList.map δ).Perm (x.rename δ ρ).members.toList := perm_members x
  refine (tracks_foldl_moveDeclaration T (t := t) hmembers).bind fun ρ₁ hρ T₁ => ?_
  have hown₁ : ∀ r ∈ x.ownReferences, (x.members.toList.foldl (fun g m => g.moveDeclaration m t)
      g).ownerOf? r = some (.declaration e) := by
    intro r hr
    rw [ownerOf?, reference?, references_foldl_moveDeclaration]
    exact hown r hr
  have hperm : (x.ownReferences.map ρ₁).Perm (x.rename δ ρ).ownReferences := by
    have hsame : x.ownReferences.map ρ₁ = x.ownReferences.map ρ := by
      refine List.map_congr_left fun r hr => ?_
      have hlive := live_of_ownerOf? (hown r hr)
      refine hρ r (index_lt_of_hasReference hlive) (index_lt_of_hasReference ?_)
      rw [T.hasReference]
      exact hlive
    rw [hsame]
    exact perm_ownReferences T hx
  refine (tracks_foldl_moveReference T₁ (t := t) hown₁ (T.left.toOwned.nodup_ownReferences hx)
    hperm).bind fun ρ₂ _ T₂ => .of_twin ?_ ?_ T₂.recordFolded.removeDeclaration
  · exact Nat.le_of_eq (references_size_removeDeclaration T₂.recordFolded.left).symm
  · exact Nat.le_of_eq (references_size_removeDeclaration T₂.recordFolded.right).symm

/-- **The same extension is folded into the same declaration.** -/
theorem follows_foldInto (T : Twin δ ρ g h) {extended : Option RefId}
    (he : g.hasDeclaration e = true) :
    Outcome.Follows δ ρ g h (foldInto g e t extended)
      (foldInto h (δ e) (δ t) (extended.map ρ)) := by
  have hfirst : Tracks δ ρ g h (extended.elim g g.removeReference)
      ((extended.map ρ).elim h h.removeReference) := by
    cases extended with
    | none => exact .refl T
    | some r =>
        exact .of_twin (Nat.le_of_eq (pruned_removeReference T.left.toOwned r).references_size.symm)
          (Nat.le_of_eq (pruned_removeReference T.right.toOwned _).references_size.symm)
          T.removeReference
  have he' : (extended.elim g g.removeReference).hasDeclaration e = true := by
    cases extended with
    | none => exact he
    | some r => rw [Option.elim_some, (pruned_removeReference T.left.toOwned r).hasDeclaration, he]
  obtain ⟨x, hx⟩ := hasDeclaration_iff.1 he'
  unfold foldInto
  refine Outcome.Follows.bind hfirst fun ρ₁ _ T₁ => ?_
  have hx' : ((extended.map ρ).elim h h.removeReference).declaration? (δ e) =
      some (x.rename δ ρ₁) := by rw [T₁.declaration, hx]; rfl
  simp only [hx, hx']
  exact .done (tracks_absorb T₁ hx)

/-- The same extension is folded, retained or left alone. -/
theorem follows_foldOne (T : Twin δ ρ g h) :
    Outcome.Follows δ ρ g h (foldOne g e) (foldOne h (δ e)) := by
  unfold foldOne
  rw [T.declaration]
  cases hx : g.declaration? e with
  | none => exact .done (.refl T)
  | some x =>
      have he := hasDeclaration_of_eq hx
      simp only [Option.map_some, Declaration.toSymbol_rename, T.extendedDeclaration he,
        T.extendedTypeReference he]
      rcases x.kind.extended with fault | kind
      · exact .failed
      · rcases g.extendedDeclaration e with fault | (_ | target)
        · exact .failed
        · exact .done (T.tracks_markAll .retained (Mapped.nil.cons (a := e)))
        · simp only [Outcome.andThen, Except.map, Option.map_some]
          split
          · exact .done (.refl T)
          · rcases g.extendedTypeReference e with fault | extended
            · exact .failed
            · exact follows_foldInto T he

/-- **The same extensions are folded, until the same one cannot be.** -/
theorem follows_foldEach (T : Twin δ ρ g h) {ids : List DeclId} :
    Outcome.Follows δ ρ g h (foldEach g ids) (foldEach h (ids.map δ)) := by
  induction ids generalizing ρ g h with
  | nil => exact .done (.refl T)
  | cons e ids ih =>
      have H := follows_foldOne T (e := e)
      rw [List.map_cons, foldEach, foldEach]
      simp only [H.1]
      cases hf : (foldOne g e).fault with
      | some fault => exact ⟨by rw [H.1], fun hnone => by rw [hf] at hnone; cases hnone⟩
      | none => exact Outcome.Follows.bind (H.2 hf) fun ρ' _ T' => ih T'

theorem follows_foldAll (T : Twin δ ρ g h) :
    Outcome.Follows δ ρ g h (foldAll g) (foldAll h) := by
  unfold foldAll
  rw [T.declarationsOfKinds]
  exact follows_foldEach T

end Deadwood.Extensions

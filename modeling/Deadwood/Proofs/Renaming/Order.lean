/-
  Doing things in another order.

  Some lists of handles come in the order of their numbers, and the numbers of twins differ.  What is
  done along such a list must not depend on its order, up to the numbers of new references.

  1. **`foldl_alike`** — two lists with the same elements, where any two elements that stand in
     different order commute, lead to graphs that are alike.  The proof moves the first element of
     the one list to the front of the other.

  2. **What commutes** — moving declarations to one target, moving references of one owner,
     adding references with different keys, and removing references that nothing else looks at.
-/
import Deadwood.Proofs.Renaming.Edit

namespace Deadwood

namespace Graph

variable {δ : DeclId ≃ DeclId} {ρ : RefId ≃ RefId} {b g h g' h' k : Graph}
  {c d e t : DeclId} {r q s : RefId}

/-! ## Alike -/

/-- `g` and `h` are the same up to the numbers of references that are not in `b` yet. -/
abbrev Alike (b g h : Graph) : Prop := Tracks (Equiv.refl _) (Equiv.refl _) b b g h

theorem Alike.rfl (hs : b.references.size ≤ g.references.size) (hg : g.Consistent)
    (hu : g.Unambiguous) : Alike b g g := .of_twin hs hs (.refl hg hu)

theorem Alike.trans (H : Alike b g h) (H' : Alike b h k) : Alike b g k := Tracks.along H H'

theorem Alike.symm (H : Alike b g h) : Alike b h g := by
  obtain ⟨τ, hτ, hg, hh, T⟩ := H
  refine ⟨τ.symm, fun r hr _ => ?_, hh, hg, T.symm⟩
  exact (Equiv.symm_apply_eq τ).2 (hτ r hr hr).symm

/-- A change that respects names leads from alike graphs to alike graphs. -/
theorem Alike.step (H : Alike b g h)
    (sim : ∀ τ : RefId ≃ RefId, (∀ r, r.index < b.references.size → τ r = r) →
      Twin (Equiv.refl _) τ g h → Tracks (Equiv.refl _) τ g h g' h') : Alike b g' h' :=
  H.bind fun τ hτ T => sim τ (fun r hr => hτ r hr hr) T

/-- Removing the same references, in whatever order. -/
theorem Alike.foldl_removeReference (H : Alike b g h) {xs ys : List RefId}
    (hxs : ∀ r ∈ xs, r.index < b.references.size) (hm : ∀ r, r ∈ ys ↔ r ∈ xs) :
    Alike b (xs.foldl Graph.removeReference g) (ys.foldl Graph.removeReference h) := by
  refine H.step fun τ hτ T => .of_twin ?_ ?_ (T.foldl_removeReference fun r _ => ?_)
  · exact Nat.le_of_eq (references_size_foldl_removeReference T.left.toOwned xs).symm
  · exact Nat.le_of_eq (references_size_foldl_removeReference T.right.toOwned ys).symm
  · rw [hm]
    constructor
    · intro hr
      have hfix : τ r = r := τ.injective (hτ (τ r) (hxs _ hr))
      rwa [hfix] at hr
    · intro hr
      rw [hτ r (hxs r hr)]
      exact hr

section Fold

variable {α : Type} {f : Graph → α → Graph} {I : Graph → List α → Prop}
  (refl : ∀ g xs, I g xs → Alike b g g)
  (perm : ∀ g xs ys, xs.Perm ys → I g xs → I g ys)
  (step : ∀ g x xs, I g (x :: xs) → I (f g x) xs)
  (resp : ∀ g h x xs, I g (x :: xs) → Alike b g h → Alike b (f g x) (f h x))

include refl perm step resp

omit refl perm in
theorem foldl_alike_of_alike {xs : List α} (hg : I g xs) (H : Alike b g h) :
    Alike b (xs.foldl f g) (xs.foldl f h) := by
  induction xs generalizing g h with
  | nil => exact H
  | cons x xs ih => exact ih (step g x xs hg) (resp g h x xs hg H)

/-- An element that commutes with all before it may come first. -/
theorem foldl_alike_of_front {x : α} {front rest : List α}
    (comm : ∀ g y xs, y ∈ front → I g (y :: x :: xs) → Alike b (f (f g x) y) (f (f g y) x))
    (hg : I g (front ++ x :: rest)) :
    Alike b ((front ++ rest).foldl f (f g x)) ((front ++ x :: rest).foldl f g) := by
  induction front generalizing g with
  | nil =>
      have hx := step g x rest hg
      exact foldl_alike_of_alike step resp hx (refl _ rest hx)
  | cons y front ih =>
      have hyx : I g (y :: x :: (front ++ rest)) :=
        perm _ _ _ (List.Perm.cons y List.perm_middle) hg
      have hswap := comm g y (front ++ rest) List.mem_cons_self hyx
      have hxy := step _ _ _ (step _ _ _ (perm _ _ _ (List.Perm.swap x y _) hyx))
      have hmove := ih (fun g z xs hz => comm g z xs (List.mem_cons_of_mem y hz))
        (step g y _ hg)
      exact (foldl_alike_of_alike step resp hxy hswap).trans hmove

/-- **Elements whose order differs commute, so the order does not matter.** -/
theorem foldl_alike {p q : α → α → Prop} {xs ys : List α}
    (comm : ∀ g x y xs, p x y → q y x → I g (y :: x :: xs) →
      Alike b (f (f g x) y) (f (f g y) x))
    (hp : xs.Perm ys) (hx : xs.Pairwise p) (hy : ys.Pairwise q) (hg : I g xs) :
    Alike b (xs.foldl f g) (ys.foldl f g) := by
  induction xs generalizing ys g with
  | nil =>
      obtain rfl := hp.nil_eq
      exact refl g [] hg
  | cons x xs ih =>
      obtain ⟨front, rest, rfl⟩ := List.append_of_mem (hp.subset List.mem_cons_self)
      have hp' : xs.Perm (front ++ rest) := (hp.trans List.perm_middle).cons_inv
      have hbefore : ∀ y ∈ front, p x y ∧ q y x := by
        intro y hyf
        refine ⟨(List.pairwise_cons.1 hx).1 y (hp'.symm.subset (List.mem_append_left rest hyf)), ?_⟩
        exact (List.pairwise_append.1 hy).2.2 y hyf x List.mem_cons_self
      have hy' : (front ++ rest).Pairwise q :=
        hy.sublist ((List.sublist_cons_self x rest).append_left front)
      have hfront := foldl_alike_of_front refl perm step resp
        (fun g y xs hyf => comm g x y xs (hbefore y hyf).1 (hbefore y hyf).2)
        (perm _ _ _ hp hg)
      exact (ih hp' (List.pairwise_cons.1 hx).2 hy' (step g x xs hg)).trans hfront

end Fold

/-! ## The same list under new names -/

/-- What is done along corresponding lists, element by element. -/
theorem Twin.foldl_map {α β : Type} {f : Graph → α → Graph} {f' : Graph → β → Graph} {e : α → β}
    (T : Twin δ ρ g h) (xs : List α)
    (step : ∀ ρ' g' h', (∀ r, r.index < g.references.size → (ρ r).index < h.references.size →
      ρ' r = ρ r) → Twin δ ρ' g' h' → ∀ x ∈ xs, Tracks δ ρ' g' h' (f g' x) (f' h' (e x))) :
    Tracks δ ρ g h (xs.foldl f g) ((xs.map e).foldl f' h) := by
  rw [List.foldl_map]
  exact List.foldl_rel (.refl T) fun x hx g' h' H =>
    H.bind fun ρ' hρ T' => step ρ' g' h' hρ T' x hx

/-! ## Graphs that look the same -/

/-- Graphs with the same entries, roots and notes. -/
structure LooksLike (g h : Graph) : Prop where
  declaration : ∀ d, h.declaration? d = g.declaration? d
  reference : ∀ r, h.reference? r = g.reference? r
  roots : h.roots = g.roots
  rootReferences : h.rootReferences = g.rootReferences
  notes : h.notes = g.notes

namespace LooksLike

theorem refl : LooksLike g g where
  declaration _ := rfl
  reference _ := rfl
  roots := rfl
  rootReferences := rfl
  notes := rfl

theorem symm (H : LooksLike g h) : LooksLike h g :=
  ⟨fun d => (H.declaration d).symm, fun r => (H.reference r).symm, H.roots.symm,
    H.rootReferences.symm, H.notes.symm⟩

/-- Graphs that look the same are twins under the same names. -/
theorem twin (H : LooksLike g h) (hg : g.Consistent) (hh : h.Consistent) (hu : g.Unambiguous) :
    Twin (Equiv.refl _) (Equiv.refl _) g h where
  declaration d := (H.declaration d).trans (Renamed.refl.declaration d)
  reference r := (H.reference r).trans (Renamed.refl.reference r)
  roots := H.roots.trans Renamed.refl.roots
  rootReferences := H.rootReferences.trans Renamed.refl.rootReferences
  notes := H.notes ▸ Renamed.refl.notes
  left := hg
  right := hh
  unambiguous := hu

end LooksLike

theorem Alike.of_looksLike (H : LooksLike g h) (hg : g.Consistent) (hh : h.Consistent)
    (hu : g.Unambiguous) (hgs : b.references.size ≤ g.references.size)
    (hhs : b.references.size ≤ h.references.size) : Alike b g h :=
  .of_twin hgs hhs (H.twin hg hh hu)

theorem Pruned.looksLike {gone : List RefId} (P : Pruned gone b g) (P' : Pruned gone b h) :
    LooksLike g h where
  declaration d := by rw [P.declaration, P'.declaration]
  reference r := by rw [P.reference, P'.reference]
  roots := by rw [P.roots, P'.roots]
  rootReferences := by rw [P.rootReferences, P'.rootReferences]
  notes := by rw [P.notes, P'.notes]

end Graph

namespace Declaration

variable {x : Declaration} {a c : DeclId} {m n : Nesting} {r s : RefId} {i j : Bool}

theorem dropChild_dropChild : (x.dropChild a).dropChild c = (x.dropChild c).dropChild a := by
  have hcomm : ∀ t : SortedSet DeclId, (t.erase a).erase c = (t.erase c).erase a := fun t =>
    SortedSet.eq_of_mem_iff fun b => by simp only [SortedSet.mem_erase]; tauto
  simp only [dropChild, hcomm]

theorem addChild_dropChild (h : a ≠ c) :
    (x.addChild m a).dropChild c = (x.dropChild c).addChild m a := by
  have hcomm : ∀ t : SortedSet DeclId, (t.insert a).erase c = (t.erase c).insert a := fun t =>
    SortedSet.eq_of_mem_iff fun b => by
      simp only [SortedSet.mem_erase, SortedSet.mem_insert]
      constructor
      · rintro ⟨rfl | hb, hne⟩
        · exact .inl rfl
        · exact .inr ⟨hb, hne⟩
      · rintro (rfl | ⟨hb, hne⟩)
        · exact ⟨.inl rfl, h⟩
        · exact ⟨.inr hb, hne⟩
  cases m <;> simp only [addChild, dropChild, hcomm]

theorem addChild_addChild :
    (x.addChild m a).addChild n c = (x.addChild n c).addChild m a := by
  have hcomm : ∀ t : SortedSet DeclId, (t.insert a).insert c = (t.insert c).insert a := fun t =>
    SortedSet.eq_of_mem_iff fun b => by simp only [SortedSet.mem_insert]; tauto
  cases m <;> cases n <;> simp only [addChild, hcomm]

/-- An entry after a declaration moved: the old parent drops it and the new one takes it. -/
def moveChild (x : Declaration) (a : DeclId) (m : Nesting) (here there : Bool) : Declaration :=
  let x := if here then x.dropChild a else x
  if there then x.addChild m a else x

theorem moveChild_moveChild (h : a ≠ c) {here there here' there' : Bool} :
    (x.moveChild a m here there).moveChild c n here' there' =
      (x.moveChild c n here' there').moveChild a m here there := by
  cases here <;> cases there <;> cases here' <;> cases there' <;>
    simp [moveChild, dropChild_dropChild (a := a), addChild_dropChild h,
      addChild_dropChild h.symm, addChild_addChild (a := a)]

theorem moveChild_parent {p : Option DeclId} {here there : Bool} :
    ({ x with parent := p } : Declaration).moveChild a m here there =
      { x.moveChild a m here there with parent := p } := by
  cases here <;> cases there <;> cases m <;> rfl

theorem dropReference_without {gone : List RefId} :
    (x.without gone).dropReference r = (x.dropReference r).without gone := by
  simp only [dropReference_eq_without, without_without]
  exact without_congr fun i q _ => by simp only [List.mem_append]; tauto

theorem addReference_without {gone : List RefId} (h : r ∉ gone) :
    (x.without gone).addReference i r = (x.addReference i r).without gone := by
  have hcomm : ∀ t : SortedSet RefId, (t.without gone).insert r = (t.insert r).without gone :=
    fun t => SortedSet.eq_of_mem_iff fun q => by
      simp only [SortedSet.mem_insert, SortedSet.mem_without]
      constructor
      · rintro (rfl | ⟨hq, hn⟩)
        · exact ⟨.inl rfl, h⟩
        · exact ⟨.inr hq, hn⟩
      · rintro ⟨rfl | hq, hn⟩
        · exact .inl rfl
        · exact .inr ⟨hq, hn⟩
  cases i <;> simp [addReference, without, hcomm]

theorem dropReference_dropReference :
    (x.dropReference r).dropReference s = (x.dropReference s).dropReference r := by
  rw [dropReference_eq_without (x := x), dropReference_without, ← dropReference_eq_without]

theorem addReference_dropReference (h : r ≠ s) :
    (x.addReference i r).dropReference s = (x.dropReference s).addReference i r := by
  rw [dropReference_eq_without, dropReference_eq_without, addReference_without (by simpa using h)]

theorem addReference_addReference :
    (x.addReference i r).addReference j s = (x.addReference j s).addReference i r := by
  have hcomm : ∀ t : SortedSet RefId, (t.insert r).insert s = (t.insert s).insert r := fun t =>
    SortedSet.eq_of_mem_iff fun q => by simp only [SortedSet.mem_insert]; tauto
  cases i <;> cases j <;> simp [addReference, hcomm]

end Declaration

namespace Graph

variable {δ : DeclId ≃ DeclId} {ρ : RefId ≃ RefId} {b g h g' h' k : Graph}
  {a c d e t : DeclId} {r q s : RefId}

/-! ## Moving declarations -/

theorem declaration?_moved {x : Declaration} : (g.relocated a t x).declaration? c =
    (g.declaration? c).map fun y =>
      let y := y.moveChild a (g.nestingOf a) (decide (x.parent = some c)) (decide (t = c))
      if a = c then { y with parent := some t } else y := by
  simp only [declaration?_relocated, Declaration.moveChild, decide_eq_true_eq]

/-- How another declaration is nested stays as it is. -/
theorem nestingOf_relocated {x : Declaration} (hx : g.declaration? a = some x) (hc : c ≠ a) :
    (g.relocated a t x).nestingOf c = g.nestingOf c := by
  have hparams : ∀ p, ((g.relocated a t x).declaration? p).any (·.parameters.contains c) =
      (g.declaration? p).any (·.parameters.contains c) := by
    intro p
    rw [declaration?_relocated]
    cases g.declaration? p with
    | none => rfl
    | some y =>
        have herase : (y.parameters.erase a).contains c = y.parameters.contains c := by
          rw [Bool.eq_iff_iff]
          simp [hc]
        have hinsert : ∀ s : SortedSet DeclId, (s.insert a).contains c = s.contains c := fun s => by
          rw [Bool.eq_iff_iff]
          simp [hc]
        simp only [Option.map_some, Option.any_some]
        split <;> split <;> split <;> cases g.nestingOf a <;>
          simp [Declaration.addChild, Declaration.dropChild, hinsert, herase]
  unfold nestingOf parentDeclaration?
  rw [parentOf?_relocated hx, if_neg hc]
  cases g.parentOf? c with
  | none => rfl
  | some p => simp only [Option.bind_some, hparams]

theorem exists_relocated {x y : Declaration} (hx : g.declaration? a = some x)
    (hy : g.declaration? c = some y) (hc : c ≠ a) :
    ∃ y', (g.relocated a t x).declaration? c = some y' ∧ y'.parent = y.parent := by
  obtain ⟨y', hy'⟩ : ∃ y', (g.relocated a t x).declaration? c = some y' :=
    hasDeclaration_iff.1 (by rw [hasDeclaration_relocated]; exact hasDeclaration_of_eq hy)
  refine ⟨y', hy', ?_⟩
  have hp : (g.relocated a t x).parentOf? c = g.parentOf? c := by
    rw [parentOf?_relocated hx, if_neg hc]
  simpa [parentOf?, hy', hy] using hp

/-- **Moving two declarations to one target: the order does not matter.** -/
theorem moveDeclaration_comm (hg : g.Consistent) (hu : g.Unambiguous) :
    Twin (Equiv.refl _) (Equiv.refl _) ((g.moveDeclaration a t).moveDeclaration c t)
      ((g.moveDeclaration c t).moveDeclaration a t) := by
  have huT := (((Twin.refl hg hu).moveDeclaration (d := a) (t := t)).moveDeclaration (d := c)
    (t := t)).unambiguous
  rcases eq_or_ne a c with rfl | hac
  · exact .refl hg.moveDeclaration.moveDeclaration huT
  by_cases ht : g.hasDeclaration t = true
  · cases hx : g.declaration? a with
    | none =>
        have hx' : (g.moveDeclaration c t).declaration? a = none := by
          cases hy : g.declaration? c with
          | none => rw [moveDeclaration_of_none hy, hx]
          | some y => rw [moveDeclaration_eq hy ht, declaration?_relocated, hx]; rfl
        rw [moveDeclaration_of_none hx] at huT ⊢
        rw [moveDeclaration_of_none hx']
        exact .refl hg.moveDeclaration huT
    | some x =>
        cases hy : g.declaration? c with
        | none =>
            have hy' : (g.moveDeclaration a t).declaration? c = none := by
              rw [moveDeclaration_eq hx ht, declaration?_relocated, hy]; rfl
            rw [moveDeclaration_of_none hy'] at huT ⊢
            rw [moveDeclaration_of_none hy]
            exact .refl hg.moveDeclaration huT
        | some y =>
            obtain ⟨y', hy', hpy⟩ := exists_relocated (t := t) hx hy hac.symm
            obtain ⟨x', hx', hpx⟩ := exists_relocated (t := t) hy hx hac
            have hleft : ((g.moveDeclaration a t).moveDeclaration c t).Consistent :=
              hg.moveDeclaration.moveDeclaration
            have hright : ((g.moveDeclaration c t).moveDeclaration a t).Consistent :=
              hg.moveDeclaration.moveDeclaration
            rw [moveDeclaration_eq hx ht,
              moveDeclaration_eq hy' (by rw [hasDeclaration_relocated]; exact ht)] at hleft huT ⊢
            rw [moveDeclaration_eq hy ht,
              moveDeclaration_eq hx' (by rw [hasDeclaration_relocated]; exact ht)] at hright ⊢
            refine LooksLike.twin ⟨fun e => ?_, fun r => by simp, ?_, by simp, by simp⟩ hleft hright
              huT
            · rw [declaration?_moved, declaration?_moved, declaration?_moved, declaration?_moved,
                Option.map_map, Option.map_map, nestingOf_relocated hx hac.symm,
                nestingOf_relocated hy hac, hpx, hpy]
              refine congrArg (Option.map · _) (funext fun z => ?_)
              simp only [Function.comp_apply]
              by_cases hae : a = e
              · have hce : c ≠ e := fun hce => hac (hae.trans hce.symm)
                simp only [if_pos hae, if_neg hce, Declaration.moveChild_parent]
                rw [Declaration.moveChild_moveChild hac]
              · by_cases hce : c = e
                · simp only [if_neg hae, if_pos hce, Declaration.moveChild_parent]
                  rw [Declaration.moveChild_moveChild hac]
                · simp only [if_neg hae, if_neg hce]
                  rw [Declaration.moveChild_moveChild hac]
            · simp only [roots_relocated, hpx, hpy]
              refine SortedSet.eq_of_mem_iff fun e => ?_
              split <;> split <;> simp only [SortedSet.mem_erase]
              tauto
  · have ht' : ∀ d, (g.moveDeclaration d t) = g := fun d => moveDeclaration_of_dead ht
    rw [ht', ht', ht']
    exact .refl hg hu

/-! ## Moving references -/

/-- What a declaration owns directly is not nested in anything else. -/
theorem not_mem_referenceTree (hg : g.Owned) (hs : g.ownerOf? s = some (.declaration d))
    (hne : s ≠ r) : s ∉ g.referenceTree r := by
  intro hm
  cases mem_referenceTree.1 hm with
  | here _ => exact hne rfl
  | step _ hz _ =>
      rw [hg.nested_iff, hs] at hz
      cases hz

/-- Moving a reference out of a declaration says nothing of nesting. -/
theorem nestedReferences_reowned {x : Reference} (ho : x.owner = some (.declaration e)) :
    (g.reowned r t x).nestedReferences q = g.nestedReferences q := by
  simp only [nestedReferences, reference?_reowned, ho]
  cases g.reference? q with
  | none => rfl
  | some y =>
      simp only [Option.map_some, Option.getD_some, Option.some.injEq, reduceCtorEq, if_false]
      split <;> rfl

theorem mem_referenceTree_reowned {x : Reference} (ho : x.owner = some (.declaration e)) :
    q ∈ (g.reowned r t x).referenceTree s ↔ q ∈ g.referenceTree s := by
  rw [mem_referenceTree, mem_referenceTree]
  have hids : ∀ q, q ∈ (g.reowned r t x).refIds ↔ q ∈ g.refIds := fun q => by
    rw [mem_refIds, mem_refIds, hasReference_reowned]
  exact ⟨fun h => h.imp (fun a => by rw [nestedReferences_reowned ho]; exact List.Subset.refl _)
      fun a ha => (hids a).1 ha,
    fun h => h.imp (fun a => by rw [nestedReferences_reowned ho]; exact List.Subset.refl _)
      fun a ha => (hids a).2 ha⟩

/-- **Removing one reference of a declaration and moving another**, in either order. -/
theorem removeReference_reowned (hg : g.Consistent) {y : Reference}
    (ho : y.owner = some (.declaration e)) (hs : s ∉ g.referenceTree r) (hc : (g.reowned s t y).Consistent) :
    LooksLike ((g.removeReference r).reowned s t (y.without (g.referenceTree r)))
      ((g.reowned s t y).removeReference r) := by
  have P := pruned_removeReference hg.toOwned r
  have P' : Pruned (g.referenceTree r) (g.reowned s t y) ((g.reowned s t y).removeReference r) :=
    (pruned_removeReference hc.toOwned r).congr hc.toOwned.listed fun q _ =>
      mem_referenceTree_reowned ho
  refine ⟨fun c => ?_, fun q => ?_, ?_, ?_, ?_⟩
  · rw [P'.declaration, declaration?_reowned, declaration?_reowned, P.declaration, Option.map_map,
      Option.map_map]
    refine congrArg (Option.map · _) (funext fun z => ?_)
    simp only [Function.comp_apply, Reference.without]
    by_cases hyc : y.owner = some (.declaration c) <;> by_cases htc : t = c <;>
      simp only [hyc, htc, if_true, if_false, Declaration.dropReference_without,
        Declaration.addReference_without hs]
  · rw [P'.reference, reference?_reowned, reference?_reowned, P.reference]
    by_cases hq : q ∈ g.referenceTree r
    · simp [hq]
    · simp only [hq, if_false, Option.map_map, Reference.without, ho, Option.some.injEq,
        reduceCtorEq]
      refine congrArg (Option.map · _) (funext fun z => ?_)
      simp only [Function.comp_apply]
      split <;> rfl
  · rw [P'.roots, roots_reowned, roots_reowned, P.roots]
  · rw [P'.rootReferences, rootReferences_reowned, rootReferences_reowned, P.rootReferences]
    simp [Reference.without, ho]
  · rw [P'.notes, notes_reowned, notes_reowned, P.notes]

/-- **Moving two references of a declaration**, in either order. -/
theorem reowned_reowned {x y : Reference} (hx : x.owner = some (.declaration e))
    (hy : y.owner = some (.declaration e)) (hne : r ≠ s) :
    LooksLike ((g.reowned r t x).reowned s t y) ((g.reowned s t y).reowned r t x) := by
  refine ⟨fun c => ?_, fun q => ?_, ?_, ?_, ?_⟩
  · simp only [declaration?_reowned, Option.map_map, hx, hy]
    refine congrArg (Option.map · _) (funext fun z => ?_)
    simp only [Function.comp_apply]
    split <;> split <;>
      simp only [Declaration.dropReference_dropReference (r := r),
        Declaration.addReference_dropReference hne, Declaration.addReference_dropReference hne.symm,
        Declaration.addReference_addReference (r := r)]
  · simp only [reference?_reowned, Option.map_map, hx, hy]
    refine congrArg (Option.map · _) (funext fun z => ?_)
    simp only [Function.comp_apply, Option.some.injEq, reduceCtorEq, if_false]
    split <;> split <;> rfl
  · simp
  · simp [rootReferences_reowned, hx, hy]
  · simp


theorem ownerOf?_ne_of_mem_referenceTree (hg : g.Owned)
    (hr : g.ownerOf? r = some (.declaration e)) (het : e ≠ t) (hq : q ∈ g.referenceTree r) :
    g.ownerOf? q ≠ some (.declaration t) := by
  intro ho
  by_cases hqr : q = r
  · rw [hqr, hr] at ho
    exact het (Owner.declaration.inj (Option.some.inj ho))
  · exact not_mem_referenceTree hg ho hqr hq

/-- Removing references that the target does not own leaves its keys alone. -/
theorem equalReference?_removeReference (hg : g.Consistent)
    (hown : ∀ q ∈ g.referenceTree r, g.ownerOf? q ≠ some (.declaration t)) {key : Mention.Key} :
    (g.removeReference r).equalReference? key (some (.declaration t)) = none ↔
      g.equalReference? key (some (.declaration t)) = none := by
  have P := pruned_removeReference hg.toOwned r
  rw [hg.removeReference.toOwned.equalReference?_eq_none_iff,
    hg.toOwned.equalReference?_eq_none_iff]
  constructor
  · intro hnone q z hz ho hk
    have hq : q ∉ g.referenceTree r := fun hq => hown q hq (ownerOf?_eq_some_iff.2 ⟨z, hz, ho⟩)
    exact hnone q (z.without (g.referenceTree r)) (by rw [P.reference, if_neg hq, hz]; rfl) ho hk
  · intro hnone q z hz ho hk
    rw [P.reference] at hz
    split at hz
    · cases hz
    · obtain ⟨w, hw, rfl⟩ := Option.map_eq_some_iff.1 hz
      exact hnone q w hw ho hk

theorem equalReference?_reowned (hg : g.Consistent) {x : Reference}
    (hx : g.reference? r = some x) (hc : (g.reowned r t x).Consistent) {key : Mention.Key}
    (hk : x.toMention.key ≠ key) (ho : x.owner ≠ some (.declaration t)) :
    (g.reowned r t x).equalReference? key (some (.declaration t)) = none ↔
      g.equalReference? key (some (.declaration t)) = none := by
  rw [hc.toOwned.equalReference?_eq_none_iff, hg.toOwned.equalReference?_eq_none_iff]
  have hother : ∀ q z, q ≠ r → g.reference? q = some z →
      ∃ w, (g.reowned r t x).reference? q = some w ∧ w.toMention = z.toMention ∧
        w.owner = z.owner := by
    intro q z hq hz
    rw [reference?_reowned, hz]
    refine ⟨_, rfl, ?_⟩
    simp only [Ne.symm hq, if_false]
    split <;> exact ⟨rfl, rfl⟩
  constructor
  · intro hnone q z hz hzo hzk
    have hq : q ≠ r := by
      rintro rfl
      rw [hx] at hz
      exact ho (Option.some.inj hz ▸ hzo)
    obtain ⟨w, hw, hm, hwo⟩ := hother q z hq hz
    exact hnone q w hw (hwo.trans hzo) (by rw [hm]; exact hzk)
  · intro hnone q w hw hwo hwk
    obtain ⟨z, hz⟩ : ∃ z, g.reference? q = some z :=
      hasReference_iff.1 (by rw [← hasReference_reowned]; exact hasReference_of_eq hw)
    by_cases hq : q = r
    · subst hq
      have hm : ((g.reowned q t x).reference? q).map (·.toMention) =
          (g.reference? q).map (·.toMention) := toMention_reowned
      rw [hw, hx] at hm
      have hm : w.toMention = x.toMention := Option.some.inj hm
      exact hk (by rw [← hwk, hm])
    · obtain ⟨w', hw', hm, hwo'⟩ := hother q z hq hz
      rw [hw] at hw'
      cases hw'
      exact hnone q z hz (hwo'.symm.trans hwo) (by rw [← hm]; exact hwk)

/-- One of two references has its equal at the target, and the other one has not. -/
theorem moveReference_comm_of_equal (hg : g.Consistent) {x y : Reference}
    (hx : g.reference? r = some x) (hy : g.reference? s = some y)
    (hxo : x.owner = some (.declaration e)) (hyo : y.owner = some (.declaration e))
    (hxt : x.owner ≠ some (.declaration t)) (hyt : y.owner ≠ some (.declaration t))
    (ht : g.hasDeclaration t = true) (het : e ≠ t) (hrt : r ∉ g.referenceTree s)
    (hkey : x.toMention.key ≠ y.toMention.key)
    (hex : g.equalReference? x.toMention.key (some (.declaration t)) = none)
    (hey : g.equalReference? y.toMention.key (some (.declaration t)) ≠ none) :
    LooksLike ((g.moveReference r t).moveReference s t)
      ((g.moveReference s t).moveReference r t) := by
  have hcx := hg.reowned hx ht hex
  have hne : r ≠ s := fun he => hkey (by rw [he, hy] at hx; rw [Option.some.inj hx])
  have P := pruned_removeReference hg.toOwned s
  have hy' : (g.reowned r t x).reference? s = some y := by
    rw [reference?_reowned, hy]
    simp [hxo, hne]
  have hx' : (g.removeReference s).reference? r = some (x.without (g.referenceTree s)) := by
    rw [P.reference, if_neg hrt, hx]
    rfl
  rw [moveReference_of_new hx ht hxt hex, moveReference_of_equal hy ht hyt hey,
    moveReference_of_equal hy' (by rw [hasDeclaration_reowned]; exact ht) hyt
      (mt (equalReference?_reowned hg hx hcx hkey hxt).1 hey),
    moveReference_of_new hx' (by rw [P.hasDeclaration]; exact ht) hxt
      ((equalReference?_removeReference hg fun q => ownerOf?_ne_of_mem_referenceTree hg.toOwned
        (ownerOf?_eq_some_iff.2 ⟨y, hy, hyo⟩) het).2 hex)]
  exact (removeReference_reowned hg hxo hrt hcx).symm

theorem moveReference_of_both_equal (hg : g.Consistent) {x y : Reference}
    (hx : g.reference? r = some x) (hy : g.reference? s = some y)
    (hxo : x.owner = some (.declaration e)) (hxt : x.owner ≠ some (.declaration t))
    (hyt : y.owner ≠ some (.declaration t)) (ht : g.hasDeclaration t = true) (het : e ≠ t)
    (hst : s ∉ g.referenceTree r)
    (hex : g.equalReference? x.toMention.key (some (.declaration t)) ≠ none)
    (hey : g.equalReference? y.toMention.key (some (.declaration t)) ≠ none) :
    (g.moveReference r t).moveReference s t = [r, s].foldl Graph.removeReference g := by
  have P := pruned_removeReference hg.toOwned r
  have hy' : (g.removeReference r).reference? s = some (y.without (g.referenceTree r)) := by
    rw [P.reference, if_neg hst, hy]
    rfl
  rw [moveReference_of_equal hx ht hxt hex,
    moveReference_of_equal hy' (by rw [P.hasDeclaration]; exact ht) hyt
      (mt (equalReference?_removeReference hg fun q => ownerOf?_ne_of_mem_referenceTree hg.toOwned
        (ownerOf?_eq_some_iff.2 ⟨x, hx, hxo⟩) het).1 hey)]
  rfl

/-- **Moving two references of one declaration: the order does not matter.** -/
theorem moveReference_comm (hg : g.Consistent) (hu : g.Unambiguous) (hne : r ≠ s)
    (hr : g.ownerOf? r = some (.declaration e)) (hs : g.ownerOf? s = some (.declaration e)) :
    Twin (Equiv.refl _) (Equiv.refl _) ((g.moveReference r t).moveReference s t)
      ((g.moveReference s t).moveReference r t) := by
  obtain ⟨x, hx, hxo⟩ := ownerOf?_eq_some_iff.1 hr
  obtain ⟨y, hy, hyo⟩ := ownerOf?_eq_some_iff.1 hs
  have hkey : x.toMention.key ≠ y.toMention.key := fun hk =>
    hne (hg.distinct r s x y hx hy (hxo.trans hyo.symm) (by rw [hxo]; simp) hk)
  by_cases hstay : g.hasDeclaration t ≠ true ∨ e = t
  · have hstay' : ∀ z : Reference, z.owner = some (.declaration e) →
        g.hasDeclaration t ≠ true ∨ z.owner = some (.declaration t) :=
      fun z hz => hstay.imp_right fun he => by rw [hz, he]
    rw [moveReference_of_stay hx (hstay' x hxo), moveReference_of_stay hy (hstay' y hyo),
      moveReference_of_stay hx (hstay' x hxo)]
    exact .refl hg hu
  · obtain ⟨ht, het⟩ := not_or.1 hstay
    rw [ne_eq, not_not] at ht
    have hxt : x.owner ≠ some (.declaration t) := by rw [hxo]; simpa using het
    have hyt : y.owner ≠ some (.declaration t) := by rw [hyo]; simpa using het
    have hst : s ∉ g.referenceTree r := not_mem_referenceTree hg.toOwned hs hne.symm
    have hrt : r ∉ g.referenceTree s := not_mem_referenceTree hg.toOwned hr hne
    have T := Twin.refl hg hu
    have huT := ((T.moveReference (r := r) (t := t)).moveReference (r := s) (t := t)).unambiguous
    have hleft : ((g.moveReference r t).moveReference s t).Consistent :=
      hg.moveReference.moveReference
    have hright : ((g.moveReference s t).moveReference r t).Consistent :=
      hg.moveReference.moveReference
    refine LooksLike.twin ?_ hleft hright huT
    clear hleft hright huT
    -- each of the two is removed where the target has its equal, and moves where it has not
    by_cases hex : g.equalReference? x.toMention.key (some (.declaration t)) = none <;>
      by_cases hey : g.equalReference? y.toMention.key (some (.declaration t)) = none
    · have hcx := hg.reowned hx ht hex
      have hcy := hg.reowned hy ht hey
      have hy' : (g.reowned r t x).reference? s = some y := by
        rw [reference?_reowned, hy]
        simp [hxo, hne]
      have hx' : (g.reowned s t y).reference? r = some x := by
        rw [reference?_reowned, hx]
        simp [hyo, hne.symm]
      rw [moveReference_of_new hx ht hxt hex, moveReference_of_new hy ht hyt hey,
        moveReference_of_new hy' (by rw [hasDeclaration_reowned]; exact ht) hyt
          ((equalReference?_reowned hg hx hcx hkey hxt).2 hey),
        moveReference_of_new hx' (by rw [hasDeclaration_reowned]; exact ht) hxt
          ((equalReference?_reowned hg hy hcy hkey.symm hyt).2 hex)]
      exact reowned_reowned hxo hyo hne
    · exact moveReference_comm_of_equal hg hx hy hxo hyo hxt hyt ht het hrt hkey hex hey
    · exact (moveReference_comm_of_equal hg hy hx hyo hxo hyt hxt ht het hst hkey.symm hey hex).symm
    · rw [moveReference_of_both_equal hg hx hy hxo hxt hyt ht het hst hex hey,
        moveReference_of_both_equal hg hy hx hyo hyt hxt ht het hrt hey hex]
      have P := pruned_foldl_removeReference hg.toOwned [r, s]
      have P' : Pruned ([r, s].flatMap g.referenceTree) g ([s, r].foldl Graph.removeReference g) :=
        (pruned_foldl_removeReference hg.toOwned [s, r]).congr hg.toOwned.listed fun q _ => by
          simp [or_comm]
      exact P.looksLike P'

/-! ## Adding references -/

theorem ownerFilter_of_live (hd : g.hasDeclaration d = true) :
    (some (Owner.declaration d)).filter g.hasOwner = some (.declaration d) :=
  filter_hasOwner fun _ ho => Option.some.inj ho ▸ hd

/-- Another key is not affected by a new reference. -/
theorem equalReference?_addUse (hg : g.Consistent) {m : Mention} {key : Mention.Key}
    (hd : g.hasDeclaration d = true) (hk : m.key ≠ key) :
    (g.addUse m d).equalReference? key (some (.declaration d)) = none ↔
      g.equalReference? key (some (.declaration d)) = none := by
  unfold Graph.addUse
  cases hnew : g.equalReference? m.key (some (.declaration d)) with
  | some q => rw [addReference_eq_of_some hnew]
  | none =>
      have hc : (g.addReference m (some (.declaration d))).1.Consistent := hg.addReference
      rw [hc.toOwned.equalReference?_eq_none_iff, hg.toOwned.equalReference?_eq_none_iff]
      constructor
      · intro hnone q z hz ho hzk
        have hq : q ≠ g.nextReference := fun he => by
          rw [he, reference?_nextReference] at hz
          cases hz
        refine hnone q z ?_ ho hzk
        rw [reference?_addReference hnew, if_neg hq, ownerFilter_of_live hd, hz]
        simp
      · intro hnone q z hz ho hzk
        rw [reference?_addReference hnew, ownerFilter_of_live hd] at hz
        split at hz
        · cases hz
          exact hk hzk
        · simp only [Option.some.injEq, reduceCtorEq, if_false, Option.map_id'] at hz
          exact hnone q z hz ho hzk

theorem Coherent.addUse {named : Prop} (hg : g.Coherent named) {m : Mention} :
    (g.addUse m d).Coherent named := hg.addReference

theorem Unambiguous.addUse (hu : g.Unambiguous) {m : Mention} : (g.addUse m d).Unambiguous :=
  hu.addReference

theorem Pruned.unambiguous {gone : List RefId} (P : Pruned gone g h) (hu : g.Unambiguous) :
    h.Unambiguous := hu.of_usrs fun d y hy => by
  rw [P.declaration] at hy
  obtain ⟨x, hx, rfl⟩ := Option.map_eq_some_iff.1 hy
  exact ⟨x, hx, rfl⟩

theorem hasDeclaration_addUse {m : Mention} : (g.addUse m d).hasDeclaration c = g.hasDeclaration c := by
  unfold Graph.addUse
  cases hnew : g.equalReference? m.key (some (.declaration d)) with
  | some q => rw [addReference_eq_of_some hnew]
  | none => simp [hasDeclaration, declaration?_addReference hnew]

theorem references_size_addUse {m : Mention} :
    g.references.size ≤ (g.addUse m d).references.size := by
  unfold Graph.addUse
  cases hnew : g.equalReference? m.key (some (.declaration d)) with
  | some q => exact Nat.le_of_eq (by rw [addReference_eq_of_some hnew])
  | none => rw [references_size_addReference hnew]; omega

theorem addUse_of_equal {m : Mention}
    (h : g.equalReference? m.key (some (.declaration d)) ≠ none) : g.addUse m d = g := by
  obtain ⟨q, hq⟩ := Option.ne_none_iff_exists'.1 h
  rw [Graph.addUse, addReference_eq_of_some hq]

section AddUse

variable {m m' : Mention} (hd : g.hasDeclaration d = true)
  (hnew : g.equalReference? m.key (some (.declaration d)) = none)

include hd hnew

theorem declaration?_addUse : (g.addUse m d).declaration? c =
    (g.declaration? c).map fun x =>
      if d = c then x.addReference m.isRelated g.nextReference else x := by
  rw [Graph.addUse, declaration?_addReference hnew, ownerFilter_of_live hd]
  simp

theorem reference?_addUse : (g.addUse m d).reference? r =
    if r = g.nextReference then some { m with owner := some (.declaration d) }
    else g.reference? r := by
  rw [Graph.addUse, reference?_addReference hnew, ownerFilter_of_live hd]
  simp

theorem rootReferences_addUse : (g.addUse m d).rootReferences = g.rootReferences := by
  rw [Graph.addUse, rootReferences_addReference hnew, ownerFilter_of_live hd]
  simp

omit hnew in
/-- What was given out before is as it was. -/
theorem reference?_addUse_of_issued (hr : r.index < g.references.size) :
    (g.addUse m d).reference? r = g.reference? r := by
  by_cases hnew : g.equalReference? m.key (some (.declaration d)) = none
  · rw [reference?_addUse hd hnew, if_neg fun he => by rw [he] at hr; exact Nat.lt_irrefl _ hr]
  · rw [addUse_of_equal hnew]

omit hd in
theorem nextReference_addUse : (g.addUse m d).nextReference = ⟨g.references.size + 1⟩ := by
  rw [nextReference, Graph.addUse, references_size_addReference hnew]

/-- Two new references in the other order exchange their numbers. -/
theorem renamed_addUse_addUse (hg : g.Consistent) (hk : m.key ≠ m'.key)
    (hnew' : g.equalReference? m'.key (some (.declaration d)) = none) :
    Renamed (Equiv.refl _) (Equiv.swap g.nextReference ⟨g.references.size + 1⟩)
      ((g.addUse m d).addUse m' d) ((g.addUse m' d).addUse m d) := by
  have hfix : ∀ r : RefId, r.index < g.references.size →
      Equiv.swap g.nextReference ⟨g.references.size + 1⟩ r = Equiv.refl _ r := fun r hr =>
    Equiv.swap_apply_of_ne_of_ne (fun he => by rw [he] at hr; exact Nat.lt_irrefl _ hr)
      fun he => by rw [he] at hr; exact Nat.not_succ_lt_self hr
  have R : Renamed (Equiv.refl _) (Equiv.swap g.nextReference ⟨g.references.size + 1⟩) g g :=
    Renamed.refl.congr (fun r hr => hfix r (index_lt_of_hasReference hr)) hg.toOwned
      fun d p r hp hr => hfix r (hg.recorded d p r hp hr)
  have hd' : ∀ m, (g.addUse m d).hasDeclaration d = true := fun m => by
    rw [hasDeclaration_addUse]; exact hd
  have hsecond := (equalReference?_addUse hg hd hk).2 hnew'
  have hsecond' := (equalReference?_addUse hg hd hk.symm).2 hnew
  have hnext : (⟨g.references.size + 1⟩ : RefId) ≠ g.nextReference := by simp [nextReference]
  refine R.of_notes ?_ ?_ (fun c => ?_) (fun r => ?_) ?_ ?_
  · rw [Graph.addUse, notes_addReference hsecond, Graph.addUse, notes_addReference hnew]
  · rw [Graph.addUse, notes_addReference hsecond', Graph.addUse, notes_addReference hnew']
  · rw [Equiv.refl_apply, declaration?_addUse (hd' m') hsecond', declaration?_addUse hd hnew',
      declaration?_addUse (hd' m) hsecond, declaration?_addUse hd hnew,
      nextReference_addUse hnew', nextReference_addUse hnew]
    have hc := R.declaration c
    rw [Equiv.refl_apply] at hc
    cases hx : g.declaration? c with
    | none => rfl
    | some x =>
        have hx' : x.rename (Equiv.refl _) (Equiv.swap g.nextReference ⟨g.references.size + 1⟩) = x := by
          rw [hx] at hc
          exact (Option.some.inj hc).symm
        simp only [Option.map_some, Option.some.injEq]
        split
        · rw [Declaration.rename_addReference, Declaration.rename_addReference, hx',
            Equiv.swap_apply_left, Equiv.swap_apply_right, Declaration.addReference_addReference]
        · exact hx'.symm
  · simp only [reference?_addUse (hd' m') hsecond', reference?_addUse hd hnew',
      reference?_addUse (hd' m) hsecond, reference?_addUse hd hnew,
      nextReference_addUse hnew', nextReference_addUse hnew]
    by_cases hr : r = g.nextReference
    · subst hr
      simp [Ne.symm hnext, Reference.rename, Owner.rename]
    · by_cases hr' : r = ⟨g.references.size + 1⟩
      · subst hr'
        simp [Ne.symm hnext, Reference.rename, Owner.rename]
      · have hs := Equiv.swap_apply_of_ne_of_ne hr hr'
        have hrr := R.reference r
        rw [hs] at hrr ⊢
        rw [if_neg hr', if_neg hr, if_neg hr', if_neg hr]
        exact hrr
  · rw [Graph.addUse, roots_addReference hsecond', Graph.addUse, roots_addReference hnew',
      Graph.addUse, roots_addReference hsecond, Graph.addUse, roots_addReference hnew]
    exact R.roots
  · rw [rootReferences_addUse (hd' m') hsecond', rootReferences_addUse hd hnew',
      rootReferences_addUse (hd' m) hsecond, rootReferences_addUse hd hnew]
    exact R.rootReferences

end AddUse

/-- **Two references with different keys: the order matters only for their numbers.** -/
theorem addUse_comm (hg : g.Consistent) (hu : g.Unambiguous) {m m' : Mention}
    (hd : g.hasDeclaration d = true) (hk : m.key ≠ m'.key)
    (hb : b.references.size ≤ g.references.size) :
    Alike b ((g.addUse m d).addUse m' d) ((g.addUse m' d).addUse m d) := by
  have hsize : ∀ m m' : Mention,
      b.references.size ≤ ((g.addUse m d).addUse m' d).references.size := fun m m' =>
    Nat.le_trans hb (Nat.le_trans references_size_addUse references_size_addUse)
  have hc : ∀ m m' : Mention, ((g.addUse m d).addUse m' d).Consistent := fun m m' =>
    hg.addReference.addReference
  have hu' : ((g.addUse m d).addUse m' d).Unambiguous := hu.addReference.addReference
  by_cases hnew : g.equalReference? m.key (some (.declaration d)) = none
  · by_cases hnew' : g.equalReference? m'.key (some (.declaration d)) = none
    · refine ⟨_, fun r hr _ => ?_, hsize m m', hsize m' m,
        renamed_addUse_addUse hd hnew hg hk hnew', hc m m', hc m' m, hu'⟩
      refine Equiv.swap_apply_of_ne_of_ne (fun he => ?_) fun he => ?_
      · rw [he] at hr
        exact Nat.lt_irrefl _ (Nat.lt_of_lt_of_le hr hb)
      · rw [he] at hr
        exact Nat.not_succ_lt_self (Nat.lt_of_lt_of_le hr hb)
    · have he := hc m m'
      have hs := hsize m m'
      rw [addUse_of_equal (mt (equalReference?_addUse hg hd hk).1 hnew')] at he hs hu' ⊢
      rw [addUse_of_equal hnew']
      exact .rfl hs he hu'
  · have he := hc m m'
    have hs := hsize m m'
    rw [addUse_of_equal hnew] at he hs hu' ⊢
    rw [addUse_of_equal (mt (equalReference?_addUse hg hd hk.symm).1 hnew)]
    exact .rfl hs he hu'

/-- A new reference of a declaration is nested in nothing. -/
theorem mem_referenceTree_addUse (hg : g.Owned) {m : Mention} (hd : g.hasDeclaration d = true)
    (hr : r.index < g.references.size) :
    q ∈ (g.addUse m d).referenceTree r ↔ q ∈ g.referenceTree r := by
  by_cases hnew : g.equalReference? m.key (some (.declaration d)) = none
  · have hnested : ∀ a, (g.addUse m d).nestedReferences a = g.nestedReferences a := by
      intro a
      simp only [nestedReferences, reference?_addUse hd hnew]
      split
      · rename_i ha
        rw [ha, reference?_nextReference]
        rfl
      · rfl
    have hids : g.refIds ⊆ (g.addUse m d).refIds := by
      intro a ha
      have ha := mem_refIds.1 ha
      have hne : a ≠ g.nextReference := fun he => by
        rw [he, hasReference, reference?_nextReference] at ha
        cases ha
      rw [mem_refIds, hasReference, reference?_addUse hd hnew, if_neg hne]
      exact ha
    rw [mem_referenceTree, mem_referenceTree]
    constructor
    · intro hn
      induction hn with
      | here hx =>
          have hx := mem_refIds.1 hx
          have hne : r ≠ g.nextReference := fun he => by
            rw [he] at hr
            exact Nat.lt_irrefl _ hr
          rw [hasReference, reference?_addUse hd hnew, if_neg hne] at hx
          exact .here (mem_refIds.2 hx)
      | step _ hz _ ih =>
          rw [hnested] at hz
          exact .step ih hz (mem_refIds.2 (live_of_ownerOf? ((hg.nested_iff _ _).1 hz)))
    · exact fun hn => hn.imp (fun a => by rw [hnested]; exact List.Subset.refl _) hids
  · rw [addUse_of_equal hnew]

/-- **Removing a reference and adding one elsewhere**, in either order. -/
theorem removeReference_addUse (hg : g.Consistent) {m : Mention} (hd : g.hasDeclaration d = true)
    (hr : r.index < g.references.size)
    (hown : ∀ q ∈ g.referenceTree r, g.ownerOf? q ≠ some (.declaration d)) :
    LooksLike ((g.addUse m d).removeReference r) ((g.removeReference r).addUse m d) := by
  have P := pruned_removeReference hg.toOwned r
  have hequal := (equalReference?_removeReference hg hown : _ ↔
    g.equalReference? m.key (some (.declaration d)) = none)
  by_cases hnew : g.equalReference? m.key (some (.declaration d)) = none
  · have hc : (g.addUse m d).Consistent := hg.addReference
    have P' : Pruned (g.referenceTree r) (g.addUse m d) ((g.addUse m d).removeReference r) :=
      (pruned_removeReference hc.toOwned r).congr hc.toOwned.listed fun q _ =>
        mem_referenceTree_addUse hg.toOwned hd hr
    have hd' : (g.removeReference r).hasDeclaration d = true := by rw [P.hasDeclaration]; exact hd
    have hnew' := hequal.2 hnew
    have hnext : (g.removeReference r).nextReference = g.nextReference := by
      rw [nextReference, nextReference, P.references_size]
    have hfresh : g.nextReference ∉ g.referenceTree r := fun hm => by
      have := (mem_referenceTree.1 hm).live_right
      rw [hasReference, reference?_nextReference] at this
      cases this
    refine ⟨fun c => ?_, fun q => ?_, ?_, ?_, ?_⟩
    · rw [P'.declaration, declaration?_addUse hd hnew, declaration?_addUse hd' hnew', P.declaration,
        Option.map_map, Option.map_map, hnext]
      refine congrArg (Option.map · _) (funext fun x => ?_)
      simp only [Function.comp_apply]
      split
      · exact Declaration.addReference_without hfresh
      · rfl
    · rw [P'.reference, reference?_addUse hd hnew, reference?_addUse hd' hnew', P.reference, hnext]
      by_cases hq : q = g.nextReference
      · rw [hq, if_pos rfl, if_neg hfresh, if_pos rfl]
        rfl
      · rw [if_neg hq, if_neg hq]
    · rw [P'.roots, Graph.addUse, Graph.addUse, roots_addReference hnew, roots_addReference hnew',
        P.roots]
    · rw [P'.rootReferences, rootReferences_addUse hd hnew, rootReferences_addUse hd' hnew',
        P.rootReferences]
    · rw [P'.notes, Graph.addUse, Graph.addUse, notes_addReference hnew, notes_addReference hnew',
        P.notes]
  · rw [addUse_of_equal hnew, addUse_of_equal (mt hequal.1 hnew)]
    exact .refl

end Graph

end Deadwood

/-
  Connecting protocols with what implements them does not depend on numbers.

  1. **Default implementations** and **inherited members** are found by key, in the same order.

  2. **Turning references around** — the candidates are taken by key, and by number where keys are
     equal.  References with equal keys name the same requirement.  Where neither is nested in the
     other, each of them adds an edge of that requirement and may then go, and the two commute
     (`invertOne_comm`).  Where one is nested in the other, it is the younger one in both graphs,
     so the order is the same.
-/
import Deadwood.Pass.Protocols
import Deadwood.Proofs.Renaming.Synthesis

namespace Deadwood.Protocols

open Deadwood.Graph

variable {δ : DeclId ≃ DeclId} {ρ : RefId ≃ RefId} {b g h k : Graph} {c d e p R : DeclId}
  {r s x y : RefId}

/-! ## Referring -/

theorem tracks_refer (T : Twin δ ρ g h) {isRelated : Bool} :
    Tracks δ ρ g h (refer g d e isRelated) (refer h (δ d) (δ e) isRelated) := by
  unfold refer
  rw [T.declaration]
  cases g.declaration? e with
  | none => exact .refl T
  | some x => exact T.addUse

theorem sameOutline_refer {isRelated : Bool} : SameOutline g (refer g d e isRelated) := by
  unfold refer
  split
  · exact sameOutline_addUse
  · exact .refl

/-! ## Default implementations -/

theorem defaultImplementations_eq (T : Twin δ ρ g h) :
    defaultImplementations h (δ p) (δ e) =
      (defaultImplementations g p e).map (Prod.map δ δ) := by
  unfold defaultImplementations
  rw [T.membersWhere (p := fun _ => true) fun _ _ _ => rfl, List.filterMap_map, List.map_filterMap]
  refine List.filterMap_congr fun requirement _ => ?_
  rw [Function.comp_apply, T.declaration]
  cases g.declaration? requirement with
  | none => rfl
  | some x =>
      simp only [Option.map_some, Option.bind_eq_bind, Option.bind_some, T.witness?,
        Declaration.toSymbol_rename]
      cases g.witness? e x.nameText x.kind <;> rfl

theorem follows_connectOne (T : Twin δ ρ g h) (he : g.hasDeclaration e = true) :
    Outcome.Follows δ ρ g h (connectOne g e) (connectOne h (δ e)) := by
  unfold connectOne
  rw [T.extendedDeclaration he]
  rcases g.extendedDeclaration e with fault | (_ | proto)
  · exact .failed
  · exact .done (.refl T)
  · have hrefer : Tracks δ ρ g h (refer g proto e false) (refer h (δ proto) (δ e) false) :=
      tracks_refer T
    refine .done (hrefer.bind fun ρ' _ T' => ?_)
    rw [defaultImplementations_eq T']
    exact T'.foldl_map _ fun _ _ _ _ T'' _ _ => tracks_refer T''

theorem sameOutline_foldl_refer {isRelated : Bool} {pairs : List (DeclId × DeclId)} :
    SameOutline g (pairs.foldl (fun g pair => refer g pair.1 pair.2 isRelated) g) := by
  induction pairs generalizing g with
  | nil => exact .refl
  | cons pair pairs ih => exact sameOutline_refer.trans ih

theorem sameOutline_connectOne : SameOutline g (connectOne g e).graph := by
  unfold connectOne Outcome.andThen
  rcases g.extendedDeclaration e with fault | (_ | proto)
  · exact .refl
  · exact .refl
  · exact sameOutline_refer.trans sameOutline_foldl_refer

/-- The same extensions are connected, until the same one cannot be. -/
theorem follows_connectEach (T : Twin δ ρ g h) {ids : List DeclId}
    (hlive : ∀ e ∈ ids, g.hasDeclaration e = true) :
    Outcome.Follows δ ρ g h (connectEach g ids) (connectEach h (ids.map δ)) := by
  induction ids generalizing ρ g h with
  | nil => exact .done (.refl T)
  | cons e ids ih =>
      have H := follows_connectOne T (hlive e List.mem_cons_self)
      rw [List.map_cons, connectEach, connectEach]
      simp only [H.1]
      cases hf : (connectOne g e).fault with
      | some fault => exact ⟨by rw [H.1], fun hnone => by rw [hf] at hnone; cases hnone⟩
      | none =>
          refine Outcome.Follows.bind (H.2 hf) fun ρ' _ T' => ih T' fun a ha => ?_
          rw [sameOutline_connectOne.hasDeclaration]
          exact hlive a (List.mem_cons_of_mem e ha)

/-- Protocols are connected with the same extensions. -/
theorem follows_connectExtensions (T : Twin δ ρ g h) :
    Outcome.Follows δ ρ g h (connectExtensions g) (connectExtensions h) := by
  unfold connectExtensions
  rw [T.declarationsOfKind]
  exact follows_connectEach T fun e he => (mem_sortedDeclarations.1 he).2

/-! ## Inherited members -/

theorem inheritedBy_eq (T : Twin δ ρ g h) {requirements : List DeclId} :
    inheritedBy h (requirements.map δ) (δ c) =
      (inheritedBy g requirements c).map (Prod.map δ δ) := by
  unfold inheritedBy
  simp only [List.filterMap_map, List.map_filterMap]
  refine List.filterMap_congr fun requirement _ => ?_
  rw [Function.comp_apply, T.declaration]
  cases g.declaration? requirement with
  | none => rfl
  | some x =>
      have hnearest : (h.superclasses (δ c)).findSome? (fun a => h.witness? a x.nameText x.kind) =
          ((g.superclasses c).findSome? fun a => g.witness? a x.nameText x.kind).map δ := by
        rw [T.superclasses, List.findSome?_map, List.map_findSome?]
        exact congrArg (List.findSome? · _) (funext fun a => T.witness?)
      simp only [Option.map_some, Option.bind_eq_bind, Option.bind_some, T.witness?, bind_guard,
        Declaration.toSymbol_rename, Option.isNone_map, hnearest]
      by_cases hk : x.kind.isWitness = true <;>
        by_cases hw : (g.witness? c x.nameText x.kind).isNone = true <;> simp only [hk, hw] <;>
        cases (g.superclasses c).findSome? fun a => g.witness? a x.nameText x.kind <;> rfl

theorem inheritedFor_eq (T : Twin δ ρ g h) :
    inheritedFor h (δ p) = (inheritedFor g p).map (Prod.map δ δ) := by
  have hclasses : (h.conformingDeclarations (δ p)).filter
      (fun c => (h.declaration? c).any (·.kind == .classType)) =
      ((g.conformingDeclarations p).filter fun c =>
        (g.declaration? c).any (·.kind == .classType)).map δ := by
    rw [T.conformingDeclarations, List.filter_map]
    refine congrArg (List.map δ) (List.filter_congr fun c _ => ?_)
    exact T.any_declaration fun _ _ => rfl
  have hrequirements : h.membersWhere (δ p) (fun _ => true) =
      (g.membersWhere p fun _ => true).map δ := T.membersWhere fun _ _ _ => rfl
  unfold inheritedFor
  simp only [hrequirements, hclasses, List.flatMap_map, List.map_flatMap, inheritedBy_eq T]

theorem pairLe_eq (T : Twin δ ρ g h) {u v : DeclId × DeclId} :
    pairLe h (u.map δ δ) (v.map δ δ) = pairLe g u v := by
  have hkey : ∀ d, (h.declaration? (δ d)).map (·.toSymbol.key) =
      (g.declaration? d).map (·.toSymbol.key) := by
    intro d
    rw [T.declaration]
    cases g.declaration? d <;> rfl
  simp only [pairLe, pairKey, Prod.map_fst, Prod.map_snd, hkey]

theorem insertPair_eq (T : Twin δ ρ g h) {u : DeclId × DeclId} {pairs : List (DeclId × DeclId)} :
    insertPair h (u.map δ δ) (pairs.map (Prod.map δ δ)) =
      (insertPair g u pairs).map (Prod.map δ δ) := by
  induction pairs with
  | nil => rfl
  | cons v pairs ih =>
      rw [List.map_cons, insertPair, insertPair, pairLe_eq T, ih]
      split <;> rfl

/-- Requirements are satisfied by the same inherited members, in the same order. -/
theorem inheritedImplementations_eq (T : Twin δ ρ g h) :
    inheritedImplementations h = (inheritedImplementations g).map (Prod.map δ δ) := by
  unfold inheritedImplementations
  rw [T.declarationsOfKind, List.flatMap_map]
  simp only [inheritedFor_eq T]
  rw [← List.map_flatMap]
  generalize (g.declarationsOfKind .protocolType).flatMap (inheritedFor g) = pairs
  induction pairs with
  | nil => rfl
  | cons u pairs ih => rw [List.map_cons, List.foldr_cons, List.foldr_cons, ih, insertPair_eq T]

/-! ## Turning a reference around -/

/-- The requirement and the implementation that a reference joins, where it is turned around. -/
def turned? (g : Graph) (id : RefId) : Option (DeclId × DeclId) := do
  let reference ← g.reference? id
  let requirement ← g.declarationWithUsr? reference.usr
  guard (g.isProtocolMember requirement)
  let conformer ← g.referencingDeclaration? id
  guard (conformer ≠ requirement && !g.isProtocolMember conformer)
  guard (g.hasDeclaration conformer)
  return (requirement, conformer)

theorem turned?_eq_some_iff : turned? g r = some (R, c) ↔
    ∃ z, g.reference? r = some z ∧ g.declarationWithUsr? z.usr = some R ∧
      g.isProtocolMember R = true ∧ g.referencingDeclaration? r = some c ∧ c ≠ R ∧
      g.isProtocolMember c = false ∧ g.hasDeclaration c = true := by
  simp only [turned?, Option.bind_eq_bind, Option.bind_eq_some_iff, bind_guard,
    Option.ite_none_right_eq_some, Option.pure_def, Option.some.injEq, Prod.mk.injEq,
    Bool.and_eq_true, decide_eq_true_eq, Bool.not_eq_true']
  constructor
  · rintro ⟨z, hz, R', hR, hp, c', hc, ⟨hne, hcp⟩, hlive, rfl, rfl⟩
    exact ⟨z, hz, hR, hp, hc, hne, hcp, hlive⟩
  · rintro ⟨z, hz, hR, hp, hc, hne, hcp, hlive⟩
    exact ⟨z, hz, R, hR, hp, c, hc, ⟨hne, hcp⟩, hlive, rfl, rfl⟩

/-- What goes when a reference is turned around: nothing in a default implementation. -/
def dropped (g : Graph) (id : RefId) (conformer : DeclId) : List RefId :=
  if isDefaultImplementation g conformer then [] else [id]

theorem isDefaultImplementation_congr (H : SameOutline g h) :
    isDefaultImplementation h c = isDefaultImplementation g c :=
  H.any_parentDeclaration fun x y he => by rw [he]

theorem invertOne_eq : invertOne g r = match turned? g r with
    | none => g
    | some (requirement, conformer) =>
        let added := refer g requirement conformer true
        if isDefaultImplementation added conformer then added else added.removeReference r := rfl

theorem invertOne_of_none (ht : turned? g r = none) : invertOne g r = g := by
  rw [invertOne_eq, ht]

theorem invertOne_of_some (ht : turned? g r = some (R, c)) {z : Declaration}
    (hz : g.declaration? c = some z) : invertOne g r =
      (dropped g r c).foldl Graph.removeReference (g.addUse (z.toSymbol.mention true) R) := by
  have hrefer : refer g R c true = g.addUse (z.toSymbol.mention true) R := by
    simp only [refer, hz]
  rw [invertOne_eq, ht]
  simp only [hrefer, dropped, isDefaultImplementation_congr sameOutline_addUse]
  split <;> rfl

theorem turned?_eq (T : Twin δ ρ g h) : turned? h (ρ r) = (turned? g r).map (Prod.map δ δ) := by
  unfold turned?
  rw [T.reference]
  cases g.reference? r with
  | none => rfl
  | some z =>
      simp only [Option.map_some, Option.bind_eq_bind, Option.bind_some, bind_guard,
        Reference.toMention_rename, T.declarationWithUsr?, T.referencingDeclaration?]
      cases g.declarationWithUsr? z.usr with
      | none => rfl
      | some R =>
          simp only [Option.map_some, Option.bind_some, T.isProtocolMember]
          by_cases hp : g.isProtocolMember R = true
          · cases g.referencingDeclaration? r with
            | none => simp [hp]
            | some c =>
                simp only [hp, if_true, Option.map_some, Option.bind_some, T.isProtocolMember,
                  T.hasDeclaration, ne_eq, δ.injective.eq_iff]
                by_cases hc : (!decide (c = R) && !g.isProtocolMember c) = true <;>
                  by_cases hl : g.hasDeclaration c = true <;> simp [hc, hl]
          · simp [hp]

/-- The same reference is turned around. -/
theorem tracks_invertOne (T : Twin δ ρ g h) :
    Tracks δ ρ g h (invertOne g r) (invertOne h (ρ r)) := by
  cases ht : turned? g r with
  | none =>
      have ht' : turned? h (ρ r) = none := by rw [turned?_eq T, ht]; rfl
      rw [invertOne_of_none ht, invertOne_of_none ht']
      exact .refl T
  | some pair =>
      obtain ⟨R, c⟩ := pair
      have ht' : turned? h (ρ r) = some (δ R, δ c) := by rw [turned?_eq T, ht]; rfl
      obtain ⟨z, hz, -, -, -, -, -, hlive⟩ := turned?_eq_some_iff.1 ht
      obtain ⟨w, hw⟩ := hasDeclaration_iff.1 hlive
      have hw' : h.declaration? (δ c) = some (w.rename δ ρ) := by rw [T.declaration, hw]; rfl
      have hr : g.hasReference r = true := hasReference_of_eq hz
      have hr' : h.hasReference (ρ r) = true := by rw [T.hasReference]; exact hr
      have hdropped : dropped h (ρ r) (δ c) = (dropped g r c).map ρ := by
        have hdefault : isDefaultImplementation h (δ c) = isDefaultImplementation g c :=
          T.any_parentDeclaration fun _ => rfl
        simp only [dropped, hdefault]
        split <;> rfl
      rw [invertOne_of_some ht hw, invertOne_of_some ht' hw', hdropped]
      refine (T.addUse (m := w.toSymbol.mention true) (d := R)).bind fun ρ' hρ T' => ?_
      have hsame : (dropped g r c).map ρ = (dropped g r c).map ρ' := by
        refine List.map_congr_left fun q hq => ?_
        obtain rfl : q = r := by
          unfold dropped at hq
          split at hq
          · cases hq
          · exact List.mem_singleton.1 hq
        exact (hρ q (index_lt_of_hasReference hr) (index_lt_of_hasReference hr')).symm
      rw [hsame]
      refine .of_twin ?_ ?_ (T'.foldl_removeReference fun q _ =>
        List.mem_map_of_injective ρ'.injective)
      · exact Nat.le_of_eq (references_size_foldl_removeReference T'.left.toOwned _).symm
      · exact Nat.le_of_eq (references_size_foldl_removeReference T'.right.toOwned _).symm

/-- A reference given out before is turned around alike. -/
theorem alike_invertOne (hr : r.index < b.references.size) (H : Alike b g h) :
    Alike b (invertOne g r) (invertOne h r) := H.step fun τ hτ T => by
  have hinvert := tracks_invertOne T (r := r)
  rwa [hτ r hr] at hinvert

/-! ## Turning two references around -/

/-- Whether a reference is turned around depends on the outline and on who makes it. -/
theorem turned?_congr (H : SameOutline g h) (hg : g.Indexed) (hh : h.Indexed)
    (hm : (h.reference? r).map (·.toMention) = (g.reference? r).map (·.toMention))
    (hd : h.referencingDeclaration? r = g.referencingDeclaration? r) :
    turned? h r = turned? g r := by
  unfold turned?
  simp only [hd, H.isProtocolMember, H.hasDeclaration,
    H.declarationWithUsr? hg hh]
  cases hx : g.reference? r with
  | none => cases hy : h.reference? r with
      | none => rfl
      | some v => rw [hx, hy] at hm; cases hm
  | some u => cases hy : h.reference? r with
      | none => rw [hx, hy] at hm; cases hm
      | some v =>
          rw [hx, hy] at hm
          have husr : v.usr = u.usr := congrArg Mention.usr (Option.some.inj hm)
          simp only [Option.bind_eq_bind, Option.bind_some, husr]

section

variable (hg : g.Consistent) (hR : g.hasDeclaration R = true) {m : Mention}
include hg

include hR in
theorem referencingDeclaration?_addUse (hr : r.index < g.references.size) :
    (g.addUse m R).referencingDeclaration? r = g.referencingDeclaration? r := by
  have hadd : (g.addUse m R).Consistent := hg.addReference
  refine referencingDeclaration?_congr hg.toOwned hadd.toOwned
    (P := fun q => q.index < g.references.size) (fun q hq => ?_) (fun q o hq ho => ?_) hr
  · rw [Graph.ownerOf?, Graph.ownerOf?, reference?_addUse_of_issued hR hq]
  · exact Nat.lt_trans (hg.owner_lt q o ho) hq

theorem referencingDeclaration?_removeReference (hr : r ∉ g.referenceTree s) :
    (g.removeReference s).referencingDeclaration? r = g.referencingDeclaration? r := by
  have P := pruned_removeReference hg.toOwned s
  refine referencingDeclaration?_congr hg.toOwned hg.removeReference.toOwned
    (P := fun q => q ∉ g.referenceTree s) (fun q hq => P.ownerOf? hq) (fun q o hq ho => ?_) hr
  exact fun hos => hq (closedUnderNesting_referenceTree hg.toOwned o q ho hos)

include hR in
theorem turned?_addUse (hr : r.index < g.references.size) :
    turned? (g.addUse m R) r = turned? g r :=
  turned?_congr sameOutline_addUse hg.toIndexed hg.addReference.toIndexed
    (by rw [reference?_addUse_of_issued hR hr]) (referencingDeclaration?_addUse hg hR hr)

theorem turned?_removeReference (hr : r ∉ g.referenceTree s) :
    turned? (g.removeReference s) r = turned? g r := by
  have P := pruned_removeReference hg.toOwned s
  refine turned?_congr P.sameOutline hg.toIndexed hg.removeReference.toIndexed ?_
    (referencingDeclaration?_removeReference hg hr)
  rw [P.reference, if_neg hr]
  cases g.reference? r <;> rfl

end

/-- Nothing in the tree of a reference belongs directly to a declaration that does not make it. -/
theorem ownerOf?_ne_of_referencingDeclaration? (hg : g.Owned)
    (hc : g.referencingDeclaration? r = some c) (hne : c ≠ R) :
    ∀ q ∈ g.referenceTree r, g.ownerOf? q ≠ some (.declaration R) := by
  intro q hq ho
  by_cases hqr : q = r
  · have howner : (g.reference? r).bind (·.owner) = some (.declaration R) := hqr ▸ ho
    rw [referencingDeclaration?, ownerWithin, howner] at hc
    exact hne (Option.some.inj hc).symm
  · exact not_mem_referenceTree hg ho hqr hq

theorem requirement_live (ht : turned? g r = some (R, c)) : g.hasDeclaration R = true := by
  obtain ⟨_, -, -, hp, -⟩ := turned?_eq_some_iff.1 ht
  exact live_of_isProtocolMember hp

theorem conformer_live (ht : turned? g r = some (R, c)) : g.hasDeclaration c = true := by
  obtain ⟨_, -, -, -, -, -, -, hlive⟩ := turned?_eq_some_iff.1 ht
  exact hlive

theorem mem_dropped {q : RefId} (hq : q ∈ dropped g r c) : q = r := by
  unfold dropped at hq
  split at hq
  · cases hq
  · exact List.mem_singleton.1 hq

/-- Turning one reference around leaves the other one as it is. -/
theorem turned?_invertOne (hk : k.Consistent) (hx : x.index < k.references.size)
    (hxy : x ∉ k.referenceTree y) : turned? (invertOne k y) x = turned? k x := by
  cases ht : turned? k y with
  | none => rw [invertOne_of_none ht]
  | some pair =>
      obtain ⟨R, c⟩ := pair
      obtain ⟨v, hv, -⟩ := turned?_eq_some_iff.1 ht
      obtain ⟨z, hz⟩ := hasDeclaration_iff.1 (conformer_live ht)
      have hR := requirement_live ht
      have hy := index_lt_of_hasReference (hasReference_of_eq hv)
      have hadd : (k.addUse (z.toSymbol.mention true) R).Consistent := hk.addReference
      rw [invertOne_of_some ht hz, ← turned?_addUse hk hR hx (m := z.toSymbol.mention true)]
      unfold dropped
      split
      · rfl
      · exact turned?_removeReference hadd (by rwa [mem_referenceTree_addUse hk.toOwned hR hy])

/-- Turning two references of one requirement around: both edges are added, then both go. -/
theorem alike_invertOne_invertOne (hk : k.Consistent) (hu : k.Unambiguous)
    (hb : b.references.size ≤ k.references.size) (hyb : y.index < b.references.size)
    (hyx : y ∉ k.referenceTree x) {cx cy : DeclId} {u v : Declaration}
    (hx : turned? k x = some (R, cx)) (hy' : turned? k y = some (R, cy))
    (hcx : k.declaration? cx = some u) (hcy : k.declaration? cy = some v) :
    Alike b ((dropped k x cx ++ dropped k y cy).foldl Graph.removeReference
        ((k.addUse (u.toSymbol.mention true) R).addUse (v.toSymbol.mention true) R))
      (invertOne (invertOne k x) y) := by
  have hR := requirement_live hx
  have hy := Nat.lt_of_lt_of_le hyb hb
  obtain ⟨w, hw, -, -, hmade, hne, -, -⟩ := turned?_eq_some_iff.1 hx
  have hxi := index_lt_of_hasReference (hasReference_of_eq hw)
  let k₁ := k.addUse (u.toSymbol.mention true) R
  have hk₁ : k₁.Consistent := hk.addReference
  have hk₁u : k₁.Unambiguous := hu.addReference
  have hR₁ : k₁.hasDeclaration R = true := by rw [hasDeclaration_addUse]; exact hR
  have hxi₁ : x.index < k₁.references.size := Nat.lt_of_lt_of_le hxi references_size_addUse
  have hfirst := invertOne_of_some hx hcx
  have P := pruned_foldl_removeReference hk₁.toOwned (dropped k x cx)
  have houtline : SameOutline k (invertOne k x) := by
    rw [hfirst]
    exact sameOutline_addUse.trans P.sameOutline
  -- the second one is turned as if nothing had happened
  obtain ⟨v', hv', hvs, -⟩ := houtline.exists_declaration hcy
  have hsecond := invertOne_of_some ((turned?_invertOne hk hy hyx).trans hy') hv'
  have hdrop : dropped (invertOne k x) y cy = dropped k y cy := by
    simp only [dropped, isDefaultImplementation_congr houtline]
  rw [hsecond, hdrop, hvs, hfirst, List.foldl_append]
  have hlooks : LooksLike ((dropped k x cx).foldl Graph.removeReference
        (k₁.addUse (v.toSymbol.mention true) R))
      (((dropped k x cx).foldl Graph.removeReference k₁).addUse (v.toSymbol.mention true) R) := by
    unfold dropped
    split
    · exact .refl
    · refine removeReference_addUse hk₁ hR₁ hxi₁
        (ownerOf?_ne_of_referencingDeclaration? hk₁.toOwned ?_ hne)
      rw [referencingDeclaration?_addUse hk hR hxi]
      exact hmade
  have hsize : k.references.size ≤ (k₁.addUse (v.toSymbol.mention true) R).references.size :=
    Nat.le_trans references_size_addUse references_size_addUse
  have hsize' : k.references.size ≤ (((dropped k x cx).foldl Graph.removeReference k₁).addUse
      (v.toSymbol.mention true) R).references.size := by
    refine Nat.le_trans ?_ references_size_addUse
    rw [references_size_foldl_removeReference hk₁.toOwned]
    exact references_size_addUse
  have halike := Alike.of_looksLike (b := b) hlooks (hk₁.addUse.foldl_removeReference _)
    (hk₁.foldl_removeReference _).addUse
    ((pruned_foldl_removeReference hk₁.addUse.toOwned _).unambiguous hk₁u.addUse)
    (by rw [references_size_foldl_removeReference hk₁.addUse.toOwned]; exact Nat.le_trans hb hsize)
    (Nat.le_trans hb hsize')
  exact halike.foldl_removeReference (fun q hq => mem_dropped hq ▸ hyb) fun q => Iff.rfl

/-- **References with the same identifier, neither nested in the other: the order does not
matter.** -/
theorem invertOne_comm (hk : k.Consistent) (hu : k.Unambiguous)
    (hb : b.references.size ≤ k.references.size) (hx : x.index < b.references.size)
    (hy : y.index < b.references.size) (hxy : x ∉ k.referenceTree y) (hyx : y ∉ k.referenceTree x)
    (husr : ∀ u v, k.reference? x = some u → k.reference? y = some v → u.usr = v.usr) :
    Alike b (invertOne (invertOne k x) y) (invertOne (invertOne k y) x) := by
  have hxk := Nat.lt_of_lt_of_le hx hb
  have hyk := Nat.lt_of_lt_of_le hy hb
  have hone : ∀ z : RefId, z.index < b.references.size →
      Alike b (invertOne k z) (invertOne k z) := fun z hz =>
    alike_invertOne hz (.rfl hb hk hu)
  cases htx : turned? k x with
  | none =>
      rw [invertOne_of_none htx, invertOne_of_none ((turned?_invertOne hk hxk hxy).trans htx)]
      exact hone y hy
  | some pair =>
      obtain ⟨R, cx⟩ := pair
      cases hty : turned? k y with
      | none =>
          rw [invertOne_of_none hty, invertOne_of_none ((turned?_invertOne hk hyk hyx).trans hty)]
          exact hone x hx
      | some pair =>
          obtain ⟨R', cy⟩ := pair
          obtain ⟨wx, hwx, hRx, -⟩ := turned?_eq_some_iff.1 htx
          obtain ⟨wy, hwy, hRy, -⟩ := turned?_eq_some_iff.1 hty
          obtain rfl : R = R' := by
            rw [husr wx wy hwx hwy, hRy] at hRx
            exact (Option.some.inj hRx).symm
          obtain ⟨u, hcu⟩ := hasDeclaration_iff.1 (conformer_live htx)
          obtain ⟨v, hcv⟩ := hasDeclaration_iff.1 (conformer_live hty)
          have hboth := alike_invertOne_invertOne hk hu hb hy hyx htx hty hcu hcv
          have hboth' := alike_invertOne_invertOne hk hu hb hx hxy hty htx hcv hcu
          have hadded : Alike b ((k.addUse (u.toSymbol.mention true) R).addUse
              (v.toSymbol.mention true) R) ((k.addUse (v.toSymbol.mention true) R).addUse
              (u.toSymbol.mention true) R) := by
            by_cases hc : cx = cy
            · subst hc
              rw [hcu] at hcv
              cases hcv
              exact .rfl (Nat.le_trans hb (Nat.le_trans references_size_addUse
                references_size_addUse)) hk.addUse.addUse hu.addUse.addUse
            · refine addUse_comm hk hu (requirement_live htx) (fun hkey => hc ?_) hb
              have hfirst : u.firstUsr = v.firstUsr := congrArg Mention.Key.usr hkey
              refine hu cx cy u v u.firstUsr hcu hcv
                (Symbol.firstUsr_mem (hk.identified cx u hcu)) ?_
              rw [hfirst]
              exact Symbol.firstUsr_mem (hk.identified cy v hcv)
          refine hboth.symm.trans (.trans ?_ hboth')
          refine hadded.foldl_removeReference (fun q hq => ?_) fun q => ?_
          · rcases List.mem_append.1 hq with hq | hq
            · exact mem_dropped hq ▸ hx
            · exact mem_dropped hq ▸ hy
          · rw [List.mem_append, List.mem_append, or_comm]

/-! ## Turning all references around -/

/-- The references given out in `b` that are still there are what they were. -/
structure Remains (b k : Graph) : Prop where
  consistent : k.Consistent
  unambiguous : k.Unambiguous
  size : b.references.size ≤ k.references.size
  reference : ∀ r z, r.index < b.references.size → k.reference? r = some z →
    ∃ w, b.reference? r = some w ∧ z.toMention = w.toMention ∧ z.owner = w.owner

namespace Remains

theorem refl (hb : b.Consistent) (hu : b.Unambiguous) : Remains b b :=
  ⟨hb, hu, Nat.le_refl _, fun _ z _ hz => ⟨z, hz, rfl, rfl⟩⟩

theorem addUse (H : Remains b k) {m : Mention} (hd : k.hasDeclaration d = true) :
    Remains b (k.addUse m d) where
  consistent := H.consistent.addUse
  unambiguous := H.unambiguous.addUse
  size := Nat.le_trans H.size references_size_addUse
  reference r z hr hz := by
    rw [reference?_addUse_of_issued hd (Nat.lt_of_lt_of_le hr H.size)] at hz
    exact H.reference r z hr hz

theorem foldl_removeReference (H : Remains b k) (ids : List RefId) :
    Remains b (ids.foldl Graph.removeReference k) := by
  have P := pruned_foldl_removeReference H.consistent.toOwned ids
  refine ⟨H.consistent.foldl_removeReference ids, P.unambiguous H.unambiguous,
    P.references_size ▸ H.size, fun r z hr hz => ?_⟩
  rw [P.reference] at hz
  split at hz
  · cases hz
  · obtain ⟨w, hw, rfl⟩ := Option.map_eq_some_iff.1 hz
    exact H.reference r w hr hw

theorem invertOne (H : Remains b k) : Remains b (invertOne k r) := by
  cases ht : turned? k r with
  | none => rw [invertOne_of_none ht]; exact H
  | some pair =>
      obtain ⟨R, c⟩ := pair
      obtain ⟨z, hz⟩ := hasDeclaration_iff.1 (conformer_live ht)
      rw [invertOne_of_some ht hz]
      exact (H.addUse (requirement_live ht)).foldl_removeReference _

/-- What is still nested in a reference was nested in it. -/
theorem nests (H : Remains b k) (hb : b.Owned) (hn : k.Nests s r)
    (hr : r.index < b.references.size) : b.Nests s r := by
  have hlive : ∀ q, q.index < b.references.size → q ∈ k.refIds → q ∈ b.refIds := by
    intro q hq hqk
    obtain ⟨z, hz⟩ := hasReference_iff.1 (mem_refIds.1 hqk)
    obtain ⟨w, hw, -⟩ := H.reference q z hq hz
    exact mem_refIds.2 (hasReference_of_eq hw)
  induction hn with
  | here hs => exact .here (hlive _ hr hs)
  | step _ hz hq ih =>
      rename_i q t _
      obtain ⟨z, hz, ho⟩ := ownerOf?_eq_some_iff.1 ((H.consistent.nested_iff _ _).1 hz)
      obtain ⟨w, hw, -, hwo⟩ := H.reference _ z hr hz
      have howner : b.ownerOf? t = some (.reference q) :=
        ownerOf?_eq_some_iff.2 ⟨w, hw, by rw [← hwo]; exact ho⟩
      have hlt := hb.owner_lt _ _ howner
      exact .step (ih (Nat.lt_trans hlt hr)) ((hb.nested_iff _ _).2 howner) (hlive _ hr hq)

end Remains

/-- The state between two turns: what is left to turn was given out in `b`. -/
structure Pending (b k : Graph) (ids : List RefId) : Prop where
  remains : Remains b k
  issued : ∀ r ∈ ids, r.index < b.references.size

/-- What is nested in a reference is not older. -/
theorem index_le_of_nests (hg : g.Owned) (hn : g.Nests s r) : s.index ≤ r.index := by
  induction hn with
  | here _ => exact Nat.le_refl _
  | step _ hz _ ih =>
      exact Nat.le_trans ih (Nat.le_of_lt (hg.owner_lt _ _ ((hg.nested_iff _ _).1 hz)))

/-- What references are listed by. -/
def keyOf (g : Graph) (id : RefId) : Option Mention.Key := (g.reference? id).map (·.toMention.key)

theorem keyOf_eq (T : Twin δ ρ g h) : keyOf h (ρ r) = keyOf g r := by
  unfold keyOf
  rw [T.reference]
  cases g.reference? r <;> rfl

/-- **Candidates whose order differs in twins commute.** -/
theorem invertOne_comm_of_precedes (T : Twin δ ρ g h) (H : Remains h k)
    (hx : x.index < h.references.size) (hy : y.index < h.references.size)
    (hxy : Precedes (keyOf g) (ρ.symm x) (ρ.symm y)) (hyx : Precedes (keyOf h) y x) :
    Alike h (invertOne (invertOne k x) y) (invertOne (invertOne k y) x) := by
  have hkey : ∀ z, keyOf h z = keyOf g (ρ.symm z) := fun z => by
    rw [← keyOf_eq T, ρ.apply_symm_apply]
  obtain ⟨a, b, ha, hb, hab⟩ := hxy
  obtain ⟨b', a', hb', ha', hba⟩ := hyx
  rw [hkey, hb] at hb'
  rw [hkey, ha] at ha'
  cases hb'
  cases ha'
  -- the keys are equal, so both graphs order the two by number
  have hsame : a = b ∧ compare (ρ.symm x) (ρ.symm y) = .lt ∧ compare y x = .lt := by
    rcases hab with hab | ⟨rfl, hab⟩
    · rcases hba with hba | ⟨rfl, -⟩
      · exact absurd (Std.TransCmp.lt_trans hab hba) (by simp)
      · simp at hab
    · rcases hba with hba | ⟨-, hba⟩
      · simp at hba
      · exact ⟨rfl, hab, hba⟩
  obtain ⟨rfl, hlt, hlt'⟩ := hsame
  have hlt : (ρ.symm x).index < (ρ.symm y).index := Nat.compare_eq_lt.1 hlt
  have hlt' : y.index < x.index := Nat.compare_eq_lt.1 hlt'
  refine invertOne_comm H.consistent H.unambiguous H.size hx hy (fun hn => ?_) (fun hn => ?_)
    fun u v hu hv => ?_
  · have hn := H.nests T.right.toOwned (mem_referenceTree.1 hn) hx
    rw [← ρ.apply_symm_apply x, ← ρ.apply_symm_apply y, T.nests_iff] at hn
    have := index_le_of_nests T.left.toOwned hn
    omega
  · have := index_le_of_nests H.consistent.toOwned (mem_referenceTree.1 hn)
    omega
  · obtain ⟨u', hu', hum, -⟩ := H.reference x u hx hu
    obtain ⟨v', hv', hvm, -⟩ := H.reference y v hy hv
    rw [← hkey, keyOf, hu'] at ha
    rw [← hkey, keyOf, hv'] at hb
    have hkeys : u'.toMention.key = v'.toMention.key :=
      (Option.some.inj ha).trans (Option.some.inj hb).symm
    have husr : u'.usr = v'.usr := congrArg Mention.Key.usr hkeys
    calc u.usr = u'.usr := congrArg Mention.usr hum
      _ = v'.usr := husr
      _ = v.usr := (congrArg Mention.usr hvm).symm

theorem pairwise_sortedReferences {xs : List RefId} :
    (g.sortedReferences xs).Pairwise (Precedes (keyOf g)) := pairwise_precedes_sortByKey

theorem nodup_sortedReferences {xs : List RefId} : (g.sortedReferences xs).Nodup :=
  nodup_sortByKey

theorem perm_sortedReferences (T : Twin δ ρ g h) {xs ys : List RefId} (H : Mapped ρ xs ys) :
    ((g.sortedReferences xs).map ρ).Perm (h.sortedReferences ys) := by
  refine (List.perm_ext_iff_of_nodup (nodup_sortedReferences.map ρ.injective)
    nodup_sortedReferences).2 fun r => ?_
  obtain ⟨r, rfl⟩ := ρ.surjective r
  rw [List.mem_map_of_injective ρ.injective, mem_sortedReferences, mem_sortedReferences, H,
    T.hasReference]

/-- The order of the one graph and the order of the other lead to the same. -/
theorem alike_foldl_invertOne (T : Twin δ ρ g h) {xs ys : List RefId} (H : Mapped ρ xs ys) :
    Alike h (((g.sortedReferences xs).map ρ).foldl invertOne h)
      ((h.sortedReferences ys).foldl invertOne h) := by
  have hperm := perm_sortedReferences T H
  have hissued : ∀ r ∈ (g.sortedReferences xs).map ρ, r.index < h.references.size := fun r hr =>
    index_lt_of_hasReference (mem_sortedReferences.1 (hperm.mem_iff.1 hr)).2
  have hordered : ((g.sortedReferences xs).map ρ).Pairwise
      fun x y => Precedes (keyOf g) (ρ.symm x) (ρ.symm y) := by
    rw [List.pairwise_map]
    refine pairwise_sortedReferences.imp fun {i j} hij => ?_
    rw [ρ.symm_apply_apply, ρ.symm_apply_apply]
    exact hij
  have hrefl : ∀ k ids, Pending h k ids → Alike h k k := fun k ids hi =>
    .rfl hi.remains.size hi.remains.consistent hi.remains.unambiguous
  have hpend : ∀ k ids ids', ids.Perm ids' → Pending h k ids → Pending h k ids' :=
    fun k _ _ hp hi => ⟨hi.1, fun r hr => hi.2 r (hp.mem_iff.2 hr)⟩
  have hstep : ∀ k r ids, Pending h k (r :: ids) → Pending h (invertOne k r) ids :=
    fun k r ids hi => ⟨hi.1.invertOne, fun q hq => hi.2 q (List.mem_cons_of_mem r hq)⟩
  have hresp : ∀ k l r ids, Pending h k (r :: ids) → Alike h k l →
      Alike h (invertOne k r) (invertOne l r) :=
    fun k l r ids hi Hkl => alike_invertOne (hi.2 r List.mem_cons_self) Hkl
  have hcomm : ∀ k x y ids, Precedes (keyOf g) (ρ.symm x) (ρ.symm y) → Precedes (keyOf h) y x →
      Pending h k (y :: x :: ids) →
      Alike h (invertOne (invertOne k x) y) (invertOne (invertOne k y) x) :=
    fun k x y ids hxy hyx hi => invertOne_comm_of_precedes T hi.1
      (hi.2 x (List.mem_cons_of_mem y List.mem_cons_self)) (hi.2 y List.mem_cons_self) hxy hyx
  exact foldl_alike hrefl hpend hstep hresp hcomm hperm hordered pairwise_sortedReferences
    ⟨.refl T.right T.unambiguous_right, hissued⟩

/-- Turning corresponding references around, each graph in its own order. -/
theorem tracks_foldl_invertOne (T : Twin δ ρ g h) {xs ys : List RefId} (H : Mapped ρ xs ys) :
    Tracks δ ρ g h ((g.sortedReferences xs).foldl invertOne g)
      ((h.sortedReferences ys).foldl invertOne h) := by
  refine (T.foldl_map (e := ρ) _ fun ρ' g' h' hρ T' r hr => ?_).along (alike_foldl_invertOne T H)
  have hlive := (mem_sortedReferences.1 hr).2
  have hlive' : h.hasReference (ρ r) = true := by rw [T.hasReference]; exact hlive
  rw [← hρ r (index_lt_of_hasReference hlive) (index_lt_of_hasReference hlive')]
  exact tracks_invertOne T'

/-- **Requirements refer to the same implementations.** -/
theorem tracks_invertConformances (T : Twin δ ρ g h) :
    Tracks δ ρ g h (invertConformances g) (invertConformances h) := by
  have hinherited : Tracks δ ρ g h
      ((inheritedImplementations g).foldl (fun g pair => refer g pair.1 pair.2 true) g)
      ((inheritedImplementations h).foldl (fun g pair => refer g pair.1 pair.2 true) h) := by
    rw [inheritedImplementations_eq T]
    exact T.foldl_map _ fun _ _ _ _ T' _ _ => tracks_refer T'
  refine hinherited.bind fun ρ' _ T' => tracks_foldl_invertOne T' ?_
  exact Mapped.filter (fun r => T'.mem_refIds) fun r _ => T'.any_reference fun _ _ => rfl

end Deadwood.Protocols

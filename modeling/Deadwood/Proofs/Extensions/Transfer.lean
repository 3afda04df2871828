/-
  What a turn of folding does to the references.

  1. **Moving references (`Moves`)** — the references of a declaration go to another one, one after the
     other.  One that has its equal there goes, with everything nested in it; the others take along what
     is nested in them.  The crux is that the trees of references of one declaration have nothing in
     common and their keys differ, so no move says anything of the next one.

  2. **Transfer (`Transfer`)** — a whole turn of an extension that is folded into another declaration and
     has no unused parameters: which declarations and references are there after it, and where.
-/
import Deadwood.Proofs.Extensions.Forest
import Deadwood.Proofs.ReferenceForest

namespace Deadwood

open Deadwood.Graph Relation

variable {g h k : Graph} {c d e t : DeclId} {p q r s : RefId} {ps : List RefId} {named : Prop}
  {x : Declaration}

namespace Graph

/-- `EqualAt g t p s`: the declaration `t` owns the reference `s`, which has the key of `p`. -/
def EqualAt (g : Graph) (t : DeclId) (p s : RefId) : Prop :=
  ∃ x y, g.reference? p = some x ∧ g.reference? s = some y ∧ y.owner = some (.declaration t) ∧
    y.toMention.key = x.toMention.key

theorem EqualAt.live (H : g.EqualAt t p s) : g.hasReference s = true := by
  obtain ⟨-, y, -, hy, -⟩ := H
  exact hasReference_of_eq hy

theorem EqualAt.ownerOf? (H : g.EqualAt t p s) : g.ownerOf? s = some (.declaration t) := by
  obtain ⟨-, y, -, hy, ho, -⟩ := H
  exact ownerOf?_eq_some_iff.2 ⟨y, hy, ho⟩

/-- References that say the same, of an owner that is the same, are equal to the same ones. -/
theorem EqualAt.congr (hp : (h.reference? p).map (·.toMention) = (g.reference? p).map (·.toMention))
    (hs : (h.reference? s).map (·.toMention) = (g.reference? s).map (·.toMention))
    (ho : h.ownerOf? s = g.ownerOf? s) (H : g.EqualAt t p s) : h.EqualAt t p s := by
  have howner := ho.trans H.ownerOf?
  obtain ⟨x, y, hx, hy, -, hkey⟩ := H
  rw [hx] at hp
  rw [hy] at hs
  obtain ⟨x', hx', hxm⟩ := Option.map_eq_some_iff.1 hp
  obtain ⟨y', hy', hym⟩ := Option.map_eq_some_iff.1 hs
  obtain ⟨z, hz, hzo⟩ := ownerOf?_eq_some_iff.1 howner
  rw [hy'] at hz
  cases hz
  exact ⟨x', y', hx', hy', hzo, by rw [hxm, hym]; exact hkey⟩

/-- A reference is nested in another one where the way out of it leads there. -/
theorem Owned.nests_iff (hg : g.Owned) :
    g.Nests p r ↔ g.hasReference r = true ∧ ReflTransGen g.NestedIn r p := by
  rw [← mem_referenceTree]
  exact hg.mem_referenceTree_iff

/-- What two declarations own directly is not nested in each other. -/
theorem Owned.not_nests_of_held (hg : g.Owned) (hr : g.ownerOf? r = some (.declaration d))
    (hne : r ≠ p) : ¬ g.Nests p r := by
  rw [← mem_referenceTree]
  exact not_mem_referenceTree hg hr hne

/-- A reference stands in the expression of one outermost reference only. -/
theorem Owned.eq_of_nests (hg : g.Owned) (hp : g.ownerOf? p = some (.declaration c))
    (hq : g.ownerOf? q = some (.declaration d)) (hpr : g.Nests p r) (hqr : g.Nests q r) : p = q :=
  outermost_unique (hg.nests_iff.1 hpr).2 (outermost_of_held hp) (hg.nests_iff.1 hqr).2
    (outermost_of_held hq)

/-- Without parameters everything nested directly in a declaration is a member of it. -/
theorem Nested.mem_members_iff (hg : g.Nested) (hx : g.declaration? d = some x)
    (hnone : x.parameters = ∅) : c ∈ x.members.toList ↔ g.parentOf? c = some d := by
  rw [← hg.child_iff, mem_childrenOf_iff]
  constructor
  · exact fun hc => ⟨x, hx, .inl hc⟩
  · rintro ⟨y, hy, hc | hc⟩ <;> rw [hx] at hy <;> cases hy
    · exact hc
    · rw [hnone] at hc
      cases hc

end Graph

namespace Extensions

/-! ## Moving references -/

/-- `Moves t ps g k`: in `k` the references of the list `ps` have gone to `t`, or have gone where `t`
has an equal one. -/
structure Moves (t : DeclId) (ps : List RefId) (g k : Graph) : Prop where
  live : ∀ r, k.hasReference r = true ↔
    g.hasReference r = true ∧ ¬ ∃ p ∈ ps, (∃ s, g.EqualAt t p s) ∧ g.Nests p r
  mention : ∀ r, k.hasReference r = true →
    (k.reference? r).map (·.toMention) = (g.reference? r).map (·.toMention)
  owner : ∀ r, k.hasReference r = true →
    k.ownerOf? r = if r ∈ ps then some (.declaration t) else g.ownerOf? r

namespace Moves

theorem nil : Moves t [] g g where
  live r := by simp
  mention _ _ := rfl
  owner r _ := by simp

/-- Moving one reference. -/
theorem moveReference (hg : g.Owned) (hp : g.ownerOf? p = some (.declaration e)) (hne : e ≠ t)
    (ht : g.hasDeclaration t = true) : Moves t [p] g (g.moveReference p t) := by
  obtain ⟨x, hx, ho⟩ := ownerOf?_eq_some_iff.1 hp
  have hot : x.owner ≠ some (.declaration t) := by
    rw [ho]
    intro he
    cases he
    exact hne rfl
  by_cases hnew : g.equalReference? x.toMention.key (some (.declaration t)) = none
  · have hnone : ¬ ∃ s, g.EqualAt t p s := by
      rintro ⟨s, x', y, hx', hy, hyo, hkey⟩
      rw [hx] at hx'
      cases hx'
      exact hg.equalReference?_eq_none_iff.1 hnew s y hy hyo hkey
    rw [moveReference_of_new hx ht hot hnew]
    refine ⟨fun r => ?_, fun r _ => toMention_reowned, fun r _ => ?_⟩
    · rw [hasReference_reowned]
      refine (and_iff_left ?_).symm
      rintro ⟨p', hp', hs, -⟩
      rw [List.mem_singleton.1 hp'] at hs
      exact hnone hs
    · rw [ownerOf?_reowned hx]
      simp only [List.mem_singleton]
  · have hsome : ∃ s, g.EqualAt t p s := by
      obtain ⟨s, hs⟩ := Option.ne_none_iff_exists'.1 hnew
      have hfound := List.find?_some hs
      obtain ⟨y, hy, hkey⟩ := (Option.any_eq_true _ _).1 hfound
      rw [Bool.and_eq_true, beq_iff_eq, beq_iff_eq] at hkey
      exact ⟨s, x, y, hx, hy, hkey.1, hkey.2⟩
    rw [moveReference_of_equal hx ht hot hnew]
    have P := pruned_removeReference hg p
    have hgone : ∀ r, r ∉ g.referenceTree p ↔ ¬ ∃ p' ∈ [p], (∃ s, g.EqualAt t p' s) ∧ g.Nests p' r := by
      intro r
      rw [mem_referenceTree]
      simp only [List.mem_singleton, exists_eq_left, hsome, true_and]
    refine ⟨fun r => ?_, fun r hr => ?_, fun r hr => ?_⟩
    · rw [P.hasReference_iff, hgone]
    · exact P.mention (P.hasReference_iff.1 hr).2
    · have hout := (P.hasReference_iff.1 hr).2
      rw [P.ownerOf? hout, if_neg]
      rw [List.mem_singleton]
      rintro rfl
      exact hout (mem_referenceTree.2 (.here (mem_refIds.2 (hasReference_of_eq hx))))

section Cons

variable (hg : g.Owned) (H : Moves t [p] g h) (hq : g.ownerOf? q = some (.declaration e)) (hqp : q ≠ p)
include hg H hq hqp

/-- Another reference of the same declaration is where it was. -/
theorem live_of_ne : h.hasReference q = true := by
  refine (H.live q).2 ⟨live_of_ownerOf? hq, ?_⟩
  rintro ⟨p', hp', -, hn⟩
  rw [List.mem_singleton.1 hp'] at hn
  exact hg.not_nests_of_held hq hqp hn

theorem ownerOf?_of_ne : h.ownerOf? q = some (.declaration e) := by
  rw [H.owner q (H.live_of_ne hg hq hqp), if_neg (by simpa using hqp), hq]

variable (hp : g.ownerOf? p = some (.declaration e))
include hp

/-- It has what was nested in it. -/
theorem nests_of_ne (hh : h.Owned) : h.Nests q r ↔ g.Nests q r := by
  have hstep : ∀ a b, h.NestedIn a b ↔ h.hasReference a = true ∧ g.NestedIn a b := by
    intro a b
    have hap : g.NestedIn a b → a ≠ p := by
      rintro hab rfl
      rw [NestedIn, hp] at hab
      cases hab
    constructor
    · intro hab
      have hlive : h.hasReference a = true := live_of_ownerOf? hab
      rw [NestedIn, H.owner a hlive] at hab
      split at hab
      · cases hab
      · exact ⟨hlive, hab⟩
    · rintro ⟨hlive, hab⟩
      rw [NestedIn, H.owner a hlive, if_neg (by simpa using hap hab)]
      exact hab
  rw [hh.nests_iff, hg.nests_iff]
  constructor
  · rintro ⟨hr, hpath⟩
    exact ⟨((H.live r).1 hr).1, ReflTransGen.mono (fun a b hab => ((hstep a b).1 hab).2) _ _ hpath⟩
  · rintro ⟨hr, hpath⟩
    -- nothing on the way out is nested in the reference that was moved
    have hkept : ∀ a, g.hasReference a = true → ReflTransGen g.NestedIn a q →
        h.hasReference a = true := by
      intro a ha haq
      refine (H.live a).2 ⟨ha, ?_⟩
      rintro ⟨p', hp', -, hn⟩
      rw [List.mem_singleton.1 hp'] at hn
      exact hqp (hg.eq_of_nests hq hp (hg.nests_iff.2 ⟨ha, haq⟩) hn)
    refine ⟨hkept r hr hpath, ?_⟩
    induction hpath using ReflTransGen.head_induction_on with
    | refl => exact .refl
    | @head a b hab hbq ih =>
        exact .head ((hstep a b).2 ⟨hkept a hr (.head hab hbq), hab⟩) (ih (hg.owner_live hab))

/-- It has its equals at the target if it had them there. -/
theorem exists_equalAt_of_ne (hne : e ≠ t) : (∃ s, h.EqualAt t q s) ↔ ∃ s, g.EqualAt t q s := by
  have hqlive := H.live_of_ne hg hq hqp
  constructor
  · rintro ⟨s, hs⟩
    have hm := H.mention s hs.live
    have ho := H.owner s hs.live
    split at ho
    · -- two references of one declaration do not have the same key
      rename_i hsp
      rw [List.mem_singleton.1 hsp] at hs hm
      obtain ⟨x, y, hx, hy, -, hkey⟩ := hs
      have hqm := H.mention q hqlive
      rw [hx] at hqm
      rw [hy] at hm
      obtain ⟨x', hx', hxm⟩ := Option.map_eq_some_iff.1 hqm.symm
      obtain ⟨y', hy', hym⟩ := Option.map_eq_some_iff.1 hm.symm
      obtain ⟨w, hw, hwo⟩ := ownerOf?_eq_some_iff.1 hq
      obtain ⟨z, hz, hzo⟩ := ownerOf?_eq_some_iff.1 hp
      rw [hx'] at hw
      rw [hy'] at hz
      cases hw
      cases hz
      have hpq := hg.distinct p q y' x' hy' hx' (by rw [hzo, hwo])
        (by rw [hzo]; exact Option.some_ne_none _) (by rw [hym, hxm]; exact hkey)
      exact absurd hpq.symm hqp
    · exact ⟨s, hs.congr (H.mention q hqlive).symm hm.symm ho.symm⟩
  · rintro ⟨s, hs⟩
    have hsp : s ≠ p := by
      rintro rfl
      have ho := hs.ownerOf?
      rw [hp] at ho
      cases ho
      exact hne rfl
    have hlive : h.hasReference s = true := by
      refine (H.live s).2 ⟨hs.live, ?_⟩
      rintro ⟨p', hp', -, hn⟩
      rw [List.mem_singleton.1 hp'] at hn
      exact hg.not_nests_of_held hs.ownerOf? hsp hn
    refine ⟨s, hs.congr (H.mention q hqlive) (H.mention s hlive) ?_⟩
    rw [H.owner s hlive, if_neg (by simpa using hsp)]

end Cons

/-- The moves are read off the references alone. -/
theorem of_references (hg : g.Owned) (hh : h.Owned) (hr : ∀ r, h.reference? r = g.reference? r)
    (H : Moves t ps h k) : Moves t ps g k := by
  have hown : ∀ r, h.ownerOf? r = g.ownerOf? r := fun r => by rw [Graph.ownerOf?, hr, Graph.ownerOf?]
  have hlive : ∀ r, h.hasReference r = g.hasReference r := fun r => by
    rw [Graph.hasReference, hr, Graph.hasReference]
  have hnests : ∀ p r, h.Nests p r ↔ g.Nests p r := fun p r => by
    have hnested : h.NestedIn = g.NestedIn := funext fun a => funext fun b => by
      rw [NestedIn, hown, NestedIn]
    rw [hh.nests_iff, hg.nests_iff, hlive, hnested]
  refine ⟨fun r => ?_, fun r hrk => ?_, fun r hrk => ?_⟩
  · simp only [H.live, hlive, hnests, EqualAt, hr]
  · rw [H.mention r hrk, hr]
  · rw [H.owner r hrk, hown]

/-- One move before others. -/
theorem cons (hg : g.Owned) (hh : h.Owned) (hne : e ≠ t)
    (hown : ∀ q ∈ p :: ps, g.ownerOf? q = some (.declaration e)) (hp : p ∉ ps) (H : Moves t [p] g h)
    (H' : Moves t ps h k) : Moves t (p :: ps) g k := by
  have hpo := hown p List.mem_cons_self
  have hlater : ∀ q ∈ ps, g.ownerOf? q = some (.declaration e) ∧ q ≠ p := fun q hq =>
    ⟨hown q (List.mem_cons_of_mem p hq), fun he => hp (he ▸ hq)⟩
  have hrest : ∀ r, (∃ q ∈ ps, (∃ s, h.EqualAt t q s) ∧ h.Nests q r) ↔
      ∃ q ∈ ps, (∃ s, g.EqualAt t q s) ∧ g.Nests q r := by
    intro r
    refine exists_congr fun q => and_congr_right fun hq => ?_
    obtain ⟨hqo, hqp⟩ := hlater q hq
    rw [H.exists_equalAt_of_ne hg hqo hqp hpo hne, H.nests_of_ne hg hqo hqp hpo hh]
  have hlive : ∀ r, k.hasReference r = true → h.hasReference r = true := fun r hr => ((H'.live r).1 hr).1
  refine ⟨fun r => ?_, fun r hr => ?_, fun r hr => ?_⟩
  · rw [H'.live, H.live, hrest]
    simp only [List.mem_cons, List.mem_nil_iff, or_false, exists_eq_left, exists_eq_or_imp, not_or]
    tauto
  · rw [H'.mention r hr, H.mention r (hlive r hr)]
  · rw [H'.owner r hr, H.owner r (hlive r hr)]
    by_cases hrp : r = p <;> by_cases hrs : r ∈ ps <;> simp [hrp, hrs]

/-- **Moving references, one after the other.** -/
theorem foldl (hg : g.Coherent named) (hne : e ≠ t) (ht : g.hasDeclaration t = true) (hps : ps.Nodup)
    (hown : ∀ p ∈ ps, g.ownerOf? p = some (.declaration e)) :
    Moves t ps g (ps.foldl (fun g r => g.moveReference r t) g) := by
  induction ps generalizing g with
  | nil => exact .nil
  | cons p ps ih =>
      obtain ⟨hp, hps⟩ := List.nodup_cons.1 hps
      have hpo := hown p List.mem_cons_self
      have hc : (g.moveReference p t).Coherent named := hg.moveReference
      have H : Moves t [p] g (g.moveReference p t) := .moveReference hg.toOwned hpo hne ht
      have hsame : SameTree g (g.moveReference p t) := (sameTree_foldl_moveReference hg [p]).2
      refine .cons hg.toOwned hc.toOwned hne hown hp H (ih hc ?_ hps fun q hq => ?_)
      · rw [hsame.hasDeclaration]
        exact ht
      · exact H.ownerOf?_of_ne hg.toOwned (hown q (List.mem_cons_of_mem p hq))
          fun he => hp (he ▸ hq)

end Moves

/-! ## A whole turn -/

theorem reference?_foldl_moveDeclaration {ids : List DeclId} :
    (ids.foldl (fun g m => g.moveDeclaration m t) g).reference? r = g.reference? r := by
  refine List.foldlRecOn (motive := fun k : Graph => k.reference? r = g.reference? r) _ _ rfl
    fun k hk m _ => ?_
  rw [← hk]
  obtain he | ⟨x, -, -, he⟩ := moveDeclaration_cases k m t <;> rw [he]
  exact reference?_relocated

theorem toSymbol_foldl_moveDeclaration {ids : List DeclId} :
    ((ids.foldl (fun g m => g.moveDeclaration m t) g).declaration? c).map (·.toSymbol) =
      (g.declaration? c).map (·.toSymbol) := by
  refine List.foldlRecOn (motive := fun k : Graph =>
    (k.declaration? c).map (·.toSymbol) = (g.declaration? c).map (·.toSymbol)) _ _ rfl
    fun k hk m _ => ?_
  rw [← hk]
  obtain he | ⟨x, -, -, he⟩ := moveDeclaration_cases k m t <;> rw [he]
  exact map_declaration?_relocated _ (fun _ _ => rfl) (fun _ _ _ => by simp) fun _ _ => rfl

/-- Members come as members: nobody has a parameter that it had not before. -/
theorem parameters_foldl_moveDeclaration (ht : g.hasDeclaration t = true)
    {ids : List DeclId} (hids : ids.Nodup) (hparent : ∀ m ∈ ids, g.parentOf? m = some e)
    (hx : g.declaration? e = some x) (hnone : x.parameters = ∅) {y : Declaration} {a : DeclId}
    (hy : (ids.foldl (fun g m => g.moveDeclaration m t) g).declaration? c = some y)
    (ha : a ∈ y.parameters.toList) : ∃ z, g.declaration? c = some z ∧ a ∈ z.parameters.toList := by
  induction ids generalizing g x with
  | nil => exact ⟨y, hy, ha⟩
  | cons m ids ih =>
      obtain ⟨hm, hids⟩ := List.nodup_cons.1 hids
      have hme := hparent m List.mem_cons_self
      obtain ⟨w, hw, hwp⟩ := parentOf?_eq_some_iff.1 hme
      have hmember : g.nestingOf m = .member := by
        have hany : (g.parentDeclaration? m).any (fun p => p.parameters.contains m) = false := by
          rw [parentDeclaration?, hme, Option.bind_some, hx, Option.any_some, hnone]
          rfl
        rw [nestingOf, hany]
        rfl
      have hone : ∀ d z, (g.relocated m t w).declaration? d = some z →
          ∃ v, g.declaration? d = some v ∧ ∀ b ∈ z.parameters.toList, b ∈ v.parameters.toList := by
        intro d z hz
        rw [declaration?_relocated] at hz
        obtain ⟨v, hv, rfl⟩ := Option.map_eq_some_iff.1 hz
        refine ⟨v, hv, fun b hb => ?_⟩
        rw [hmember] at hb
        revert hb
        split <;> split <;> split <;> simp [Declaration.addChild, Declaration.dropChild] <;> tauto
      rw [List.foldl_cons, moveDeclaration_eq hw ht] at hy
      obtain ⟨x', hx'⟩ := hasDeclaration_iff.1
        ((hasDeclaration_relocated (x := w)).trans (hasDeclaration_of_eq hx))
      have hnone' : x'.parameters = ∅ := by
        obtain ⟨v, hv, hsub⟩ := hone e x' hx'
        rw [hx] at hv
        cases hv
        refine SortedSet.eq_of_mem_iff fun b => ⟨fun hb => ?_, fun hb => by cases hb⟩
        have hmem := hsub b hb
        rw [hnone] at hmem
        cases hmem
      obtain ⟨z, hz, hza⟩ := ih (by rw [hasDeclaration_relocated]; exact ht) hids
        (fun b hb => by
          have hbm : b ≠ m := fun he => hm (he ▸ hb)
          rw [parentOf?_relocated hw, if_neg hbm]
          exact hparent b (List.mem_cons_of_mem m hb)) hx' hnone' hy
      obtain ⟨v, hv, hsub⟩ := hone c z hz
      exact ⟨v, hv, hsub a hza⟩

theorem sameOutline_moveReference (hg : g.Owned) : SameOutline g (g.moveReference r t) := by
  obtain he | he | ⟨x, -, -, -, he⟩ := moveReference_cases g r t <;> rw [he]
  · exact .refl
  · exact (pruned_removeReference hg r).sameOutline
  · exact fun d => map_declaration?_reowned _ (fun _ _ => rfl) fun y b r => by
      simp [Declaration.links]

/-- Moving references leaves declarations alone. -/
theorem sameOutline_foldl_moveReference (hg : g.Coherent named) (ids : List RefId) :
    SameOutline g (ids.foldl (fun g r => g.moveReference r t) g) := by
  induction ids generalizing g with
  | nil => exact .refl
  | cons r ids ih =>
      have hone : (g.moveReference r t).Coherent named := hg.moveReference
      exact (sameOutline_moveReference hg.toOwned).trans (ih hone)

/-- `Sheds g e t q r`: the reference `r` goes when `e` is folded into `t`.  It is the reference `q` to
the extended type or nested in it, or it is another reference of `e` that has its equal at `t` or
nested in such a one. -/
def Sheds (g : Graph) (e t : DeclId) (q r : RefId) : Prop :=
  g.Nests q r ∨
    ∃ p, g.ownerOf? p = some (.declaration e) ∧ p ≠ q ∧ (∃ s, g.EqualAt t p s) ∧ g.Nests p r

/-- `Emptied named g e t q k`: in `k` everything that `e` has in `g` is at `t`. -/
structure Emptied (named : Prop) (g : Graph) (e t : DeclId) (q : RefId) (k : Graph) : Prop where
  coherent : k.Coherent named
  symbol : ∀ c, (k.declaration? c).map (·.toSymbol) = (g.declaration? c).map (·.toSymbol)
  parent : ∀ c, k.parentOf? c = if g.parentOf? c = some e then some t else g.parentOf? c
  parameters : ∀ c y a, k.declaration? c = some y → a ∈ y.parameters.toList →
    ∃ x, g.declaration? c = some x ∧ a ∈ x.parameters.toList
  notes : k.notes = g.notes
  live : ∀ r, k.hasReference r = true ↔ g.hasReference r = true ∧ ¬ Sheds g e t q r
  mention : ∀ r, k.hasReference r = true →
    (k.reference? r).map (·.toMention) = (g.reference? r).map (·.toMention)
  owner : ∀ r, k.hasReference r = true → k.ownerOf? r =
    if g.ownerOf? r = some (.declaration e) then some (.declaration t) else g.ownerOf? r

/-- `Transfer named g e t q k`: in `k` everything that `e` has in `g` is at `t`, and `e` is gone. -/
structure Transfer (named : Prop) (g : Graph) (e t : DeclId) (q : RefId) (k : Graph) : Prop where
  coherent : k.Coherent named
  gone : k.declaration? e = none
  symbol : ∀ c ≠ e, (k.declaration? c).map (·.toSymbol) = (g.declaration? c).map (·.toSymbol)
  parent : ∀ c ≠ e, k.parentOf? c = if g.parentOf? c = some e then some t else g.parentOf? c
  parameters : ∀ c y a, k.declaration? c = some y → a ∈ y.parameters.toList →
    ∃ x, g.declaration? c = some x ∧ a ∈ x.parameters.toList
  marks : ∀ mark, ∀ c ≠ e, (c ∈ (k.marks.of mark).toList ↔ c ∈ (g.marks.of mark).toList)
  folded : k.folded = g.folded.insert e t
  live : ∀ r, k.hasReference r = true ↔ g.hasReference r = true ∧ ¬ Sheds g e t q r
  mention : ∀ r, k.hasReference r = true →
    (k.reference? r).map (·.toMention) = (g.reference? r).map (·.toMention)
  owner : ∀ r, k.hasReference r = true → k.ownerOf? r =
    if g.ownerOf? r = some (.declaration e) then some (.declaration t) else g.ownerOf? r

/-- What has no children encloses nothing but itself. -/
theorem eq_of_mem_subtree (hchildren : g.childrenOf e = []) (hc : c ∈ g.subtree e) : c = e := by
  have hdown := mem_subtree.1 hc
  clear hc
  induction hdown with
  | here _ => rfl
  | step _ hmem _ ih =>
      rw [ih, hchildren] at hmem
      cases hmem

namespace Emptied

variable (H : Emptied named g e t q k) (hne : e ≠ t)
include H hne

/-- Nothing is nested in it. -/
theorem childrenOf_eq_nil : k.childrenOf e = [] := by
  refine List.eq_nil_iff_forall_not_mem.2 fun c hc => ?_
  have hparent := (H.coherent.child_iff e c).1 hc
  rw [H.parent] at hparent
  split at hparent
  · exact hne (Option.some.inj hparent).symm
  · contradiction

/-- It makes no references. -/
theorem referencesFrom_eq_nil : k.referencesFrom e = [] := by
  refine List.eq_nil_iff_forall_not_mem.2 fun r hr => ?_
  obtain ⟨p, ho, -⟩ := H.coherent.toOwned.mem_referencesFrom.1 hr
  rw [H.owner p (live_of_ownerOf? ho)] at ho
  split at ho
  · cases ho
    exact hne rfl
  · contradiction

/-- **What is left of the extension goes alone.** -/
theorem transfer : Transfer named g e t q ((k.recordFolded e t).removeDeclaration e) := by
  have hz : (k.recordFolded e t).Coherent named :=
    H.coherent.apply (.recordFolded e t) trivial fun _ => trivial
  have hchildren : (k.recordFolded e t).childrenOf e = [] := H.childrenOf_eq_nil hne
  have hown : (k.recordFolded e t).referencesFrom e = [] := H.referencesFrom_eq_nil hne
  have hsubtree : ∀ c, c ∈ (k.recordFolded e t).subtree e → c = e := fun c =>
    eq_of_mem_subtree hchildren
  have hkept : ∀ c, c ≠ e → c ∉ (k.recordFolded e t).subtree e := fun c hc hmem => hc (hsubtree c hmem)
  have hrefs : ∀ r, r ∉ ((k.recordFolded e t).subtree e).flatMap (k.recordFolded e t).referencesFrom := by
    intro r hr
    obtain ⟨c, hc, hr⟩ := List.mem_flatMap.1 hr
    rw [hsubtree c hc, hown] at hr
    cases hr
  have F : Felled ((k.recordFolded e t).subtree e)
      (((k.recordFolded e t).subtree e).flatMap (k.recordFolded e t).referencesFrom)
      (k.recordFolded e t) ((k.recordFolded e t).removeDeclaration e) := felled_removeDeclaration hz
  have hlive : ∀ r, ((k.recordFolded e t).removeDeclaration e).hasReference r = true ↔
      k.hasReference r = true := fun r =>
    F.toTrimmed.hasReference_iff.trans (and_iff_left (hrefs r))
  refine ⟨hz.removeDeclaration, ?_, fun c hc => ?_, fun c hc => ?_, fun c y a hy ha => ?_,
    fun mark c hc => ?_, ?_, fun r => ?_, fun r hr => ?_, fun r hr => ?_⟩
  · rw [F.declaration]
    split
    · rfl
    · rename_i hout
      have hnone : k.declaration? e = none := by
        by_contra hsome
        obtain ⟨x, hx⟩ := Option.ne_none_iff_exists'.1 hsome
        exact hout (mem_subtree.2 (.here (mem_declIds.2 (hasDeclaration_of_eq (g := k) hx))))
      exact Option.map_eq_none_iff.2 hnone
  · rw [F.declaration, if_neg (hkept c hc), Option.map_map]
    exact H.symbol c
  · rw [F.parentOf? (hkept c hc)]
    exact H.parent c
  · rw [F.declaration] at hy
    split at hy
    · cases hy
    · obtain ⟨z, hz', rfl⟩ := Option.map_eq_some_iff.1 hy
      exact H.parameters c z a hz' (SortedSet.mem_without.1 ha).1
  · rw [F.marks, SortedSet.mem_without, and_iff_left (hkept c hc)]
    have hmarks : k.marks = g.marks := congrArg Notes.marks H.notes
    show c ∈ (k.marks.of mark).toList ↔ _
    rw [hmarks]
  · have hfolded : ((k.recordFolded e t).removeDeclaration e).folded = (k.recordFolded e t).folded :=
      congrArg Notes.folded F.results
    rw [hfolded]
    exact congrArg (fun m : SortedMap DeclId DeclId => m.insert e t) (congrArg Notes.folded H.notes)
  · rw [hlive, H.live]
  · exact (F.toTrimmed.mention (hrefs r)).trans (H.mention r ((hlive r).1 hr))
  · rw [F.toTrimmed.ownerOf? (hrefs r)]
    exact H.owner r ((hlive r).1 hr)

end Emptied

section Rest

variable (hg : g.Owned) (P : Pruned (g.referenceTree q) g h)
  (hq : g.ownerOf? q = some (.declaration e))
include hg P hq

/-- What is left to move when the reference to the extended type is gone. -/
theorem owned_of_pruned {p : RefId} : h.ownerOf? p = some (.declaration e) ↔
    g.ownerOf? p = some (.declaration e) ∧ p ≠ q := by
  constructor
  · intro ho
    have hout := (P.hasReference_iff.1 (live_of_ownerOf? ho)).2
    rw [P.ownerOf? hout] at ho
    refine ⟨ho, ?_⟩
    rintro rfl
    exact hout (mem_referenceTree.2 (.here (mem_refIds.2 (live_of_ownerOf? hq))))
  · rintro ⟨ho, hpq⟩
    rw [P.ownerOf? (not_mem_referenceTree hg ho hpq), ho]

/-- It has its equals where it had them. -/
theorem equalAt_iff_of_pruned {p : RefId} (hne : e ≠ t) (ho : g.ownerOf? p = some (.declaration e))
    (hpq : p ≠ q) : h.EqualAt t p s ↔ g.EqualAt t p s := by
  have hp := not_mem_referenceTree hg ho hpq
  constructor
  · intro hs
    have hout := (P.hasReference_iff.1 hs.live).2
    exact hs.congr (P.mention hp).symm (P.mention hout).symm (P.ownerOf? hout).symm
  · intro hs
    have hsq : s ≠ q := by
      rintro rfl
      have hso := hs.ownerOf?
      rw [hq] at hso
      cases hso
      exact hne rfl
    have hout := not_mem_referenceTree hg hs.ownerOf? hsq
    exact hs.congr (P.mention hp) (P.mention hout) (P.ownerOf? hout)

/-- Removing the reference to the extended type and moving the others. -/
theorem moves_rest (hne : e ≠ t) (hps : ∀ p, p ∈ ps ↔ h.ownerOf? p = some (.declaration e))
    (H : Moves t ps h k) :
    (∀ r, k.hasReference r = true ↔ g.hasReference r = true ∧ ¬ Sheds g e t q r) ∧
      (∀ r, k.hasReference r = true →
        (k.reference? r).map (·.toMention) = (g.reference? r).map (·.toMention)) ∧
      ∀ r, k.hasReference r = true → k.ownerOf? r =
        if g.ownerOf? r = some (.declaration e) then some (.declaration t) else g.ownerOf? r := by
  have hc : g.ClosedUnderNesting (g.referenceTree q) := closedUnderNesting_referenceTree hg
  have hmem : ∀ p, p ∈ ps ↔ g.ownerOf? p = some (.declaration e) ∧ p ≠ q := fun p =>
    (hps p).trans (owned_of_pruned hg P hq)
  have hlive : ∀ r, k.hasReference r = true ↔ g.hasReference r = true ∧ ¬ Sheds g e t q r := by
    intro r
    rw [H.live, P.hasReference_iff, and_assoc, Sheds, not_or, ← mem_referenceTree]
    refine and_congr_right fun _ => and_congr_right fun hr => not_congr ?_
    refine exists_congr fun p => ?_
    rw [hmem]
    constructor
    · rintro ⟨⟨ho, hpq⟩, ⟨s, hs⟩, hn⟩
      exact ⟨ho, hpq, ⟨s, (equalAt_iff_of_pruned hg P hq hne ho hpq).1 hs⟩,
        ((P.nests_iff hg hc).1 hn).1⟩
    · rintro ⟨ho, hpq, ⟨s, hs⟩, hn⟩
      exact ⟨⟨ho, hpq⟩, ⟨s, (equalAt_iff_of_pruned hg P hq hne ho hpq).2 hs⟩,
        (P.nests_iff hg hc).2 ⟨hn, hr⟩⟩
  have hout : ∀ r, k.hasReference r = true → r ∉ g.referenceTree q := fun r hr =>
    (P.hasReference_iff.1 ((H.live r).1 hr).1).2
  refine ⟨hlive, fun r hr => ?_, fun r hr => ?_⟩
  · rw [H.mention r hr, P.mention (hout r hr)]
  · have hrq : r ≠ q := by
      rintro rfl
      exact hout r hr (mem_referenceTree.2 (.here (mem_refIds.2 (live_of_ownerOf? hq))))
    rw [H.owner r hr, P.ownerOf? (hout r hr)]
    simp only [hmem, hrq, ne_eq, not_false_eq_true, and_true]

end Rest

/-- `Rehoused named g e t k`: from `g` to `k` the members of `e` moved to `t`. -/
structure Rehoused (named : Prop) (g : Graph) (e t : DeclId) (k : Graph) : Prop where
  coherent : k.Coherent named
  symbol : ∀ c, (k.declaration? c).map (·.toSymbol) = (g.declaration? c).map (·.toSymbol)
  parent : ∀ c, k.parentOf? c = if g.parentOf? c = some e then some t else g.parentOf? c
  parameters : ∀ c y a, k.declaration? c = some y → a ∈ y.parameters.toList →
    ∃ x, g.declaration? c = some x ∧ a ∈ x.parameters.toList
  notes : k.notes = g.notes
  reference : ∀ r, k.reference? r = g.reference? r

theorem rehoused_foldl_moveDeclaration (hg : g.Coherent named) (hx : g.declaration? e = some x)
    (hnone : x.parameters = ∅) (ht : g.hasDeclaration t = true) :
    Rehoused named g e t (x.members.toList.foldl (fun g m => g.moveDeclaration m t) g) := by
  have hmembers : ∀ a, a ∈ x.members.toList ↔ g.parentOf? a = some e := fun a =>
    hg.toNested.mem_members_iff hx hnone
  have hlive : ∀ a ∈ x.members.toList, g.hasDeclaration a = true := by
    intro a ha
    obtain ⟨y, hy, -⟩ := parentOf?_eq_some_iff.1 ((hmembers a).1 ha)
    exact hasDeclaration_of_eq hy
  refine ⟨coherent_foldl_moveDeclaration hg _, fun c => toSymbol_foldl_moveDeclaration, fun c => ?_,
    fun c y a hy ha => ?_, notes_foldl_moveDeclaration, fun r => reference?_foldl_moveDeclaration⟩
  · rw [parentOf?_foldl_moveDeclaration ht hlive]
    simp only [hmembers]
  · exact parameters_foldl_moveDeclaration ht x.members.nodup (fun m hm => (hmembers m).1 hm) hx hnone
      hy ha

/-- **What a turn does in which an extension without unused parameters is folded.** -/
theorem transfer_foldInto (hg : g.Coherent named) (hx : g.declaration? e = some x)
    (hnone : x.parameters = ∅) (hne : e ≠ t) (ht : g.hasDeclaration t = true)
    (hq : g.ownerOf? q = some (.declaration e)) :
    ∃ k, foldInto g e t (some q) = .done k ∧ Transfer named g e t q k := by
  -- without the reference to the extended type
  have P := pruned_removeReference hg.toOwned q
  have hlc : (g.removeReference q).Coherent named := hg.removeReference
  have hl : (g.removeReference q).declaration? e = some (x.without (g.referenceTree q)) := by
    rw [P.declaration, hx]
    rfl
  have hfold : foldInto g e t (some q) = .done
      ((((x.without (g.referenceTree q)).ownReferences.foldl (fun g r => g.moveReference r t)
        (x.members.toList.foldl (fun g m => g.moveDeclaration m t)
          (g.removeReference q))).recordFolded e t).removeDeclaration e) := by
    unfold foldInto
    simp only [Option.elim_some, hl]
    rfl
  refine ⟨_, hfold, Emptied.transfer ?_ hne⟩
  generalize g.removeReference q = l at P hlc hl
  have hlt : l.hasDeclaration t = true := by
    rw [P.hasDeclaration]
    exact ht
  -- with the members at their new place
  have D : Rehoused named l e t (x.members.toList.foldl (fun g m => g.moveDeclaration m t) l) :=
    rehoused_foldl_moveDeclaration (x := x.without (g.referenceTree q)) hlc hl hnone hlt
  generalize x.members.toList.foldl (fun g m => g.moveDeclaration m t) l = m at D
  -- with the references there too
  have hps : ∀ p, p ∈ (x.without (g.referenceTree q)).ownReferences ↔
      l.ownerOf? p = some (.declaration e) := fun p => by
    rw [hlc.toOwned.mem_ownReferences_iff hl, ownerOf?_eq_some_iff]
  have hmt : m.hasDeclaration t = true := by
    rw [hasDeclaration_congr (D.symbol t)]
    exact hlt
  have M := Moves.foldl D.coherent hne hmt (hlc.toOwned.nodup_ownReferences hl) fun p hp => by
    rw [ownerOf?, D.reference]
    exact (hps p).1 hp
  have S := sameOutline_foldl_moveReference D.coherent
    (x.without (g.referenceTree q)).ownReferences (t := t)
  have hnc := (sameTree_foldl_moveReference D.coherent
    (x.without (g.referenceTree q)).ownReferences (t := t)).1
  obtain ⟨hlive, hmention, howner⟩ :=
    moves_rest hg.toOwned P hq hne hps (M.of_references hlc.toOwned D.coherent.toOwned D.reference)
  refine ⟨hnc, fun c => ?_, fun c => ?_, fun c y a hy ha => ?_, ?_, hlive, hmention, howner⟩
  · rw [S.symbol, D.symbol, P.sameOutline.symbol]
  · rw [S.parentOf?, D.parent, P.sameOutline.parentOf?]
  · obtain ⟨z, hz, -, hlinks⟩ := S.symm.exists_declaration hy
    have hparameters : z.parameters = y.parameters := congrArg (·.2.2) hlinks
    obtain ⟨w, hw, hwa⟩ := D.parameters c z a hz (by rw [hparameters]; exact ha)
    rw [P.declaration] at hw
    obtain ⟨v, hv, rfl⟩ := Option.map_eq_some_iff.1 hw
    exact ⟨v, hv, hwa⟩
  · rw [notes_foldl_moveReference D.coherent, D.notes, P.notes]

namespace Transfer

variable (T : Transfer named g e t q k)
include T

theorem survives_iff : k.hasDeclaration c = true ↔ g.hasDeclaration c = true ∧ c ≠ e := by
  by_cases hc : c = e
  · subst hc
    simp [Graph.hasDeclaration, T.gone]
  · rw [hasDeclaration_congr (T.symbol c hc)]
    simp [hc]

theorem exists_declaration (hx : k.declaration? c = some x) :
    c ≠ e ∧ ∃ y, g.declaration? c = some y ∧ y.toSymbol = x.toSymbol := by
  have hce : c ≠ e := (T.survives_iff.1 (hasDeclaration_of_eq hx)).2
  have hs := T.symbol c hce
  rw [hx] at hs
  exact ⟨hce, Option.map_eq_some_iff.1 hs.symm⟩

theorem mention_eq {z : Reference} (hz : k.reference? r = some z) :
    ∃ y, g.reference? r = some y ∧ y.toMention = z.toMention := by
  have hm := T.mention r (hasReference_of_eq hz)
  rw [hz] at hm
  exact Option.map_eq_some_iff.1 hm.symm

/-- Where no extension has unused parameters, none gets any. -/
theorem parameters_eq
    (hnone : ∀ e x, g.declaration? e = some x → x.kind.isExtension = true → x.parameters = ∅)
    (hx : k.declaration? c = some x) (hext : x.kind.isExtension = true) : x.parameters = ∅ := by
  obtain ⟨-, w, hw, hws⟩ := T.exists_declaration hx
  have hempty := hnone c w hw (by rw [hws]; exact hext)
  refine SortedSet.eq_of_mem_iff fun a => ⟨fun ha => ?_, fun ha => by cases ha⟩
  obtain ⟨v, hv, hav⟩ := T.parameters c x a hx ha
  rw [hw] at hv
  cases hv
  rwa [hempty] at hav

section Owned

variable (hg : g.Owned) (hq : g.ownerOf? q = some (.declaration e))
include hg hq

/-- What another declaration owns is not shed. -/
theorem live_of_held {a : DeclId} (ho : g.ownerOf? r = some (.declaration a)) (hae : a ≠ e) :
    k.hasReference r = true := by
  have hnot : ∀ b, g.ownerOf? b = some (.declaration e) → ¬ g.Nests b r := fun b hb =>
    hg.not_nests_of_held ho fun he => hae (by
      rw [he, hb] at ho
      cases ho
      rfl)
  refine (T.live r).2 ⟨live_of_ownerOf? ho, ?_⟩
  rintro (hn | ⟨b, hb, -, -, hn⟩)
  · exact hnot q hq hn
  · exact hnot b hb hn

/-- What neither loses nor gets references has those it had. -/
theorem ownerOf?_iff {a : DeclId} (hae : a ≠ e) (hat : a ≠ t) :
    k.ownerOf? r = some (.declaration a) ↔ g.ownerOf? r = some (.declaration a) := by
  constructor
  · intro ho
    rw [T.owner r (live_of_ownerOf? ho)] at ho
    split at ho
    · cases ho
      exact absurd rfl hat
    · exact ho
  · intro ho
    rw [T.owner r (T.live_of_held hg hq ho hae), ho, if_neg fun he => hae (by cases he; rfl)]

end Owned

theorem nestedIn (hn : k.NestedIn r p) : g.NestedIn r p := by
  rw [NestedIn, T.owner r (live_of_ownerOf? hn)] at hn
  split at hn
  · cases hn
  · exact hn

end Transfer

/-- The reference that names what a folded extension extends is one of its own. -/
theorem Folds.exists_chosen (hg : g.Owned) (hf : Folds g e t) :
    ∃ q, g.extendedTypeReference e = .ok (some q) ∧ g.ownerOf? q = some (.declaration e) := by
  obtain ⟨_, _, -, -, -, ht⟩ := hf
  obtain ⟨q, _, ho, -⟩ := exists_of_extendedDeclaration ht
  obtain ⟨x, _, hx, -, hq⟩ := mem_of_extendedTypeReference ho
  obtain ⟨z, hz, hzo⟩ := (hg.mem_ownReferences_iff hx).1
    (List.mem_filter.1 (mem_sortedReferences.1 hq).1).1
  exact ⟨q, ho, ownerOf?_eq_some_iff.2 ⟨z, hz, hzo⟩⟩

theorem foldOne_of_folds {o : Option RefId} (hf : Folds g e t) (ho : g.extendedTypeReference e = .ok o) :
    foldOne g e = foldInto g e t o := by
  obtain ⟨x, kind, hx, hk, hproto, ht⟩ := hf
  have hkind : x.kind.extended = .ok kind := by rw [Kind.extended, hk]
  unfold foldOne
  simp only [hx, hkind, Outcome.andThen, ht, hproto, if_false, ho]

/-- **The turn of an extension that is folded.** -/
theorem transfer_foldOne (hg : g.Coherent named) (hf : Folds g e t) (hne : e ≠ t)
    (hnone : ∀ x, g.declaration? e = some x → x.parameters = ∅) :
    ∃ q k, g.extendedTypeReference e = .ok (some q) ∧ g.ownerOf? q = some (.declaration e) ∧
      foldOne g e = .done k ∧ Transfer named g e t q k := by
  obtain ⟨q, ho, hq⟩ := hf.exists_chosen hg.toOwned
  obtain ⟨x, -, hx, -, -, ht⟩ := id hf
  obtain ⟨k, hk, T⟩ :=
    transfer_foldInto hg hx (hnone x hx) hne (live_of_extendedDeclaration ht) hq
  exact ⟨q, k, ho, hq, (foldOne_of_folds hf ho).trans hk, T⟩

end Extensions

end Deadwood

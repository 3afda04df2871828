/-
  Questions to twins have the same answers, under their new names.

  1. **Declarations** — no two declarations of a twin have the same key, so what is listed by key is
     listed in the same order in both (`Twin.sortedDeclarations`): answers correspond as lists.

  2. **References** — two references may have the same key when their owners differ.  Answers
     correspond as lists where one owner holds all of them (`Twin.sortedReferences`), and as sets in
     any case.

  3. **Chains of owners** — the look-up of who makes a reference counts its steps.  A reference is
     younger than the one it is nested in, so the count never runs out.
-/
import Deadwood.Keyed
import Deadwood.Proofs.Renaming.Basic

namespace Deadwood

open Std

/-! ## Listing by keys -/

section Keyed

universe u v

variable {κ : Type u} {ι : Type v} [Ord κ] [Ord ι] [TransOrd κ] [TransOrd ι] [LawfulEqOrd κ]
  [LawfulEqOrd ι]

/-- The key of the one item comes before that of the other. -/
def KeyLt (key : ι → Option κ) (i j : ι) : Prop :=
  ∃ a b, key i = some a ∧ key j = some b ∧ compare a b = .lt

/-- The one item is listed before the other: by its key, or as the lesser one of two items with the
same key. -/
def Precedes (key : ι → Option κ) (i j : ι) : Prop :=
  ∃ a b, key i = some a ∧ key j = some b ∧ (compare a b = .lt ∨ a = b ∧ compare i j = .lt)

omit [TransOrd κ] [TransOrd ι] in
theorem Precedes.ne {key : ι → Option κ} {i j : ι} (h : Precedes key i j) : i ≠ j := by
  rintro rfl
  obtain ⟨a, b, ha, hb, hlt | ⟨-, hlt⟩⟩ := h
  · rw [ha] at hb
    cases hb
    simp at hlt
  · simp at hlt

theorem pairwise_precedes_sortByKey {key : ι → Option κ} {items : List ι} :
    (sortByKey key items).Pairwise (Precedes key) := by
  unfold sortByKey
  have hkey : ∀ e ∈ (SortedSet.ofList (items.filterMap fun i =>
      (key i).map fun k => Keyed.mk k i)).toList, key e.item = some e.key := by
    intro e he
    obtain ⟨i, hi, hk⟩ := List.mem_filterMap.1 (SortedSet.mem_ofList.1 he)
    obtain ⟨k, hk', rfl⟩ := Option.map_eq_some_iff.1 hk
    exact hk'
  rw [List.pairwise_map]
  refine (SortedSet.ascending _).imp_of_mem fun {a b} ha hb hlt => ?_
  have hlt : (compare a.key b.key).then (compare a.item b.item) = .lt := hlt
  rw [Ordering.then_eq_lt] at hlt
  exact ⟨a.key, b.key, hkey a ha, hkey b hb, hlt.imp_right fun ⟨he, hi⟩ =>
    ⟨LawfulEqCmp.eq_of_compare he, hi⟩⟩

theorem nodup_sortByKey {key : ι → Option κ} {items : List ι} : (sortByKey key items).Nodup :=
  pairwise_precedes_sortByKey.imp fun h => h.ne

/-- Where no two items have the same key, the items are listed by strictly ascending keys. -/
theorem pairwise_sortByKey {key : ι → Option κ} {items : List ι}
    (hinj : ∀ i ∈ items, ∀ j ∈ items, ∀ k, key i = some k → key j = some k → i = j) :
    (sortByKey key items).Pairwise (KeyLt key) := by
  refine pairwise_precedes_sortByKey.imp_of_mem fun {i j} hi hj hij => ?_
  obtain ⟨a, b, ha, hb, hlt | ⟨rfl, hlt⟩⟩ := hij
  · exact ⟨a, b, ha, hb, hlt⟩
  · rw [hinj i (mem_sortByKey.1 hi).1 j (mem_sortByKey.1 hj).1 a ha hb] at hlt
    simp at hlt

/-- **Listing by keys does not depend on the names of the items**, where no two of them have the
same key. -/
theorem sortByKey_map (f : ι ≃ ι) {key key' : ι → Option κ} {items items' : List ι}
    (hkey : ∀ i, key' (f i) = key i)
    (hmem : ∀ i, (key i).isSome → (f i ∈ items' ↔ i ∈ items))
    (hinj : ∀ i ∈ items, ∀ j ∈ items, ∀ k, key i = some k → key j = some k → i = j) :
    sortByKey key' items' = (sortByKey key items).map f := by
  have hinj' : ∀ i ∈ items', ∀ j ∈ items', ∀ k, key' i = some k → key' j = some k → i = j := by
    intro i hi j hj k hki hkj
    obtain ⟨i, rfl⟩ := f.surjective i
    obtain ⟨j, rfl⟩ := f.surjective j
    rw [hkey] at hki hkj
    exact congrArg f (hinj i ((hmem i (by simp [hki])).1 hi) j ((hmem j (by simp [hkj])).1 hj) k
      hki hkj)
  have hasc := pairwise_sortByKey hinj'
  have hasc' : ((sortByKey key items).map f).Pairwise (KeyLt key') := by
    rw [List.pairwise_map]
    refine (pairwise_sortByKey hinj).imp fun ⟨a, b, ha, hb, hlt⟩ => ?_
    exact ⟨a, b, by rw [hkey, ha], by rw [hkey, hb], hlt⟩
  have hperm : (sortByKey key' items').Perm ((sortByKey key items).map f) := by
    refine (List.perm_ext_iff_of_nodup nodup_sortByKey
      (nodup_sortByKey.map f.injective)).2 fun j => ?_
    obtain ⟨i, rfl⟩ := f.surjective j
    rw [mem_sortByKey, List.mem_map_of_injective f.injective, mem_sortByKey, hkey]
    exact and_congr_left fun hk => hmem i hk
  refine hperm.eq_of_pairwise (fun i j _ _ hij hji => ?_) hasc hasc'
  obtain ⟨a, b, ha, hb, hlt⟩ := hij
  obtain ⟨b', a', hb', ha', hlt'⟩ := hji
  rw [ha] at ha'
  rw [hb] at hb'
  cases ha'
  cases hb'
  exact absurd (TransCmp.lt_trans hlt hlt') (by simp)

end Keyed

theorem Symbol.firstUsr_mem {s : Symbol} (hs : s.usrs.toList ≠ []) :
    s.firstUsr ∈ s.usrs.toList := by
  unfold Symbol.firstUsr SortedSet.least?
  cases hu : s.usrs.toList with
  | nil => exact absurd hu hs
  | cons u us => simp

namespace Graph

variable {δ : DeclId ≃ DeclId} {ρ : RefId ≃ RefId} {g h : Graph} {c d : DeclId} {r q s : RefId}

/-- Every declaration carries an identifier.  Those of a document do, since a node without one is
skipped, and none is ever taken away; but the store takes a declaration as it is. -/
def Identified (g : Graph) : Prop :=
  ∀ d x, g.declaration? d = some x → x.usrs.toList ≠ []

theorem identified_iff : g.Identified ↔ ∀ d ∈ g.declIds, g.usrsOf d ≠ [] := by
  constructor
  · intro hi d hd
    obtain ⟨x, hx⟩ := hasDeclaration_iff.1 (mem_declIds.1 hd)
    rw [usrsOf, hx]
    exact hi d x hx
  · intro hall d x hx
    have hd := hall d (mem_declIds.2 (hasDeclaration_of_eq hx))
    rwa [usrsOf, hx] at hd

instance (g : Graph) : Decidable g.Identified := decidable_of_iff _ identified_iff.symm

/-- No two declarations have the same key. -/
theorem Unambiguous.eq_of_key (hu : g.Unambiguous) (hi : g.Identified) {x y : Declaration}
    (hx : g.declaration? c = some x) (hy : g.declaration? d = some y)
    (hk : x.toSymbol.key = y.toSymbol.key) : c = d := by
  have husr : x.firstUsr = y.firstUsr := congrArg Symbol.Key.usr hk
  refine hu c d x y x.firstUsr hx hy (Symbol.firstUsr_mem (hi c x hx)) ?_
  rw [husr]
  exact Symbol.firstUsr_mem (hi d y hy)

namespace Twin

variable (T : Twin δ ρ g h)
include T

theorem unambiguous_right : h.Unambiguous := by
  intro c d x y usr hx hy hux huy
  obtain ⟨c, rfl⟩ := δ.surjective c
  obtain ⟨d, rfl⟩ := δ.surjective d
  rw [T.declaration] at hx hy
  obtain ⟨x', hx', rfl⟩ := Option.map_eq_some_iff.1 hx
  obtain ⟨y', hy', rfl⟩ := Option.map_eq_some_iff.1 hy
  exact congrArg δ (T.unambiguous c d x' y' usr hx' hy' hux huy)

/-! ## Lists of declarations -/

/-- **Declarations are listed in the same order.** -/
theorem sortedDeclarations {xs ys : List DeclId}
    (hm : ∀ d, g.hasDeclaration d = true → (δ d ∈ ys ↔ d ∈ xs)) :
    h.sortedDeclarations ys = (g.sortedDeclarations xs).map δ := by
  refine sortByKey_map δ (fun d => ?_) (fun d hd => hm d ?_) fun c _ d _ k hc hd => ?_
  · rw [T.declaration]
    cases g.declaration? d <;> rfl
  · rwa [Option.isSome_map] at hd
  · obtain ⟨x, hx, rfl⟩ := Option.map_eq_some_iff.1 hc
    obtain ⟨y, hy, hk⟩ := Option.map_eq_some_iff.1 hd
    exact T.unambiguous.eq_of_key T.left.identified hx hy hk.symm

theorem mem_declIdsWhere {p p' : Declaration → Bool}
    (hp : ∀ d x, g.declaration? d = some x → p' (x.rename δ ρ) = p x) :
    δ d ∈ h.declIdsWhere p' ↔ d ∈ g.declIdsWhere p := by
  simp only [declIdsWhere, List.mem_filter, T.mem_declIds,
    T.any_declaration (fun x hx => hp d x hx)]

theorem declarationsWhere {p p' : Declaration → Bool}
    (hp : ∀ d x, g.declaration? d = some x → p' (x.rename δ ρ) = p x) :
    h.declarationsWhere p' = (g.declarationsWhere p).map δ :=
  T.sortedDeclarations fun _ _ => T.mem_declIdsWhere hp

theorem membersWhere {p p' : Declaration → Bool}
    (hp : ∀ d x, g.declaration? d = some x → p' (x.rename δ ρ) = p x) :
    h.membersWhere (δ d) p' = (g.membersWhere d p).map δ := by
  unfold Graph.membersWhere
  rw [T.declaration]
  cases g.declaration? d with
  | none => rfl
  | some x =>
      refine T.sortedDeclarations fun c _ => ?_
      simp only [List.mem_filter, Declaration.mem_members_rename,
        T.any_declaration (fun x hx => hp c x hx)]

theorem declarationsOfKinds {kinds : List Kind} :
    h.declarationsOfKinds kinds = (g.declarationsOfKinds kinds).map δ := by
  refine T.sortedDeclarations fun d _ => ?_
  simp only [List.mem_flatMap, T.left.byKind, T.right.byKind, T.declaration]
  cases g.declaration? d <;> simp

theorem declarationsOfKind {kind : Kind} :
    h.declarationsOfKind kind = (g.declarationsOfKind kind).map δ := T.declarationsOfKinds

theorem mem_byUsr {usr : String} : δ d ∈ (Index.get h.declarationsByUsr usr).toList ↔
    d ∈ (Index.get g.declarationsByUsr usr).toList := by
  rw [T.left.byUsr, T.right.byUsr, T.declaration]
  cases g.declaration? d <;> simp

theorem declarationsWithUsr {usr : String} :
    h.declarationsWithUsr usr = (g.declarationsWithUsr usr).map δ :=
  T.sortedDeclarations fun _ _ => T.mem_byUsr

theorem explicitDeclarationWithUsr? {usr : String} :
    h.explicitDeclarationWithUsr? usr = (g.explicitDeclarationWithUsr? usr).map δ := by
  unfold Graph.explicitDeclarationWithUsr?
  rw [← List.head?_map]
  refine congrArg List.head? (T.sortedDeclarations fun d _ => ?_)
  rw [List.mem_filter, List.mem_filter, T.mem_byUsr, T.any_declaration fun x _ => rfl]
  exact Iff.rfl

theorem declarationWithUsr? {usr : String} :
    h.declarationWithUsr? usr = (g.declarationWithUsr? usr).map δ := by
  unfold Graph.declarationWithUsr?
  rw [T.explicitDeclarationWithUsr?, T.declarationsWithUsr, List.head?_map]
  cases g.explicitDeclarationWithUsr? usr <;> rfl

/-! ## References -/

theorem names_iff : h.Names (ρ r) (δ d) ↔ g.Names r d := by
  simp only [Names, T.reference, T.declaration]
  cases g.reference? r <;> cases g.declaration? d <;> simp

theorem mem_referencesTo : ρ r ∈ h.referencesTo (δ d) ↔ r ∈ g.referencesTo d := by
  rw [T.left.toOwned.mem_referencesTo, T.right.toOwned.mem_referencesTo, T.names_iff]

theorem isReferenced : h.isReferenced (δ d) = g.isReferenced d := by
  rw [Bool.eq_iff_iff, T.left.toOwned.isReferenced_iff, T.right.toOwned.isReferenced_iff]
  exact ⟨fun ⟨r, hr⟩ => by
    obtain ⟨r, rfl⟩ := ρ.surjective r
    exact ⟨r, T.names_iff.1 hr⟩, fun ⟨r, hr⟩ => ⟨ρ r, T.names_iff.2 hr⟩⟩

/-- References with different keys are listed in the same order. -/
theorem sortedReferences {xs ys : List RefId}
    (hm : ∀ r, g.hasReference r = true → (ρ r ∈ ys ↔ r ∈ xs))
    (hinj : ∀ r ∈ xs, ∀ s ∈ xs, ∀ x y, g.reference? r = some x → g.reference? s = some y →
      x.toMention.key = y.toMention.key → r = s) :
    h.sortedReferences ys = (g.sortedReferences xs).map ρ := by
  refine sortByKey_map ρ (fun r => ?_) (fun r hr => hm r ?_) fun r hr s hs k hk hk' => ?_
  · rw [T.reference]
    cases g.reference? r <;> rfl
  · rwa [Option.isSome_map] at hr
  · obtain ⟨x, hx, rfl⟩ := Option.map_eq_some_iff.1 hk
    obtain ⟨y, hy, hk⟩ := Option.map_eq_some_iff.1 hk'
    exact hinj r hr s hs x y hx hy hk.symm

theorem nests_iff : h.Nests (ρ q) (ρ r) ↔ g.Nests q r := by
  rw [← mem_referenceTree, ← mem_referenceTree]
  refine mem_explore_map_iff ρ (fun a b => T.mem_nestedReferences) (fun a => T.mem_refIds)
    fun a => ?_
  simp

theorem mem_referenceTree : ρ r ∈ h.referenceTree (ρ q) ↔ r ∈ g.referenceTree q := by
  rw [Graph.mem_referenceTree, Graph.mem_referenceTree, T.nests_iff]

theorem mem_referencesFrom : ρ r ∈ h.referencesFrom (δ d) ↔ r ∈ g.referencesFrom d := by
  rw [mem_referencesFrom_iff, mem_referencesFrom_iff]
  refine exists_congr fun b => ⟨fun ⟨q, hq, hn⟩ => ?_, fun ⟨q, hq, hn⟩ => ?_⟩
  · obtain ⟨q, rfl⟩ := ρ.surjective q
    exact ⟨q, T.mem_heldBy.1 hq, T.nests_iff.1 hn⟩
  · exact ⟨ρ q, T.mem_heldBy.2 hq, T.nests_iff.2 hn⟩

theorem ownerWithin (n : Nat) : h.ownerWithin n (ρ r) = (g.ownerWithin n r).map δ := by
  induction n generalizing r with
  | zero => rfl
  | succ n ih =>
      have ho : (h.reference? (ρ r)).bind (·.owner) =
          ((g.reference? r).bind (·.owner)).map (Owner.rename δ ρ) := T.ownerOf?
      rw [Graph.ownerWithin, Graph.ownerWithin, ho]
      rcases (g.reference? r).bind (·.owner) with _ | ⟨o | o⟩
      · rfl
      · rfl
      · exact ih

/-- **Who makes a reference does not depend on numbers.** -/
theorem referencingDeclaration? :
    h.referencingDeclaration? (ρ r) = (g.referencingDeclaration? r).map δ := by
  have hn := Nat.lt_succ_of_le (Nat.le_max_left r.index (ρ r).index)
  have hn' := Nat.lt_succ_of_le (Nat.le_max_right r.index (ρ r).index)
  rw [referencingDeclaration?_eq T.left.toOwned hn, referencingDeclaration?_eq T.right.toOwned hn',
    T.ownerWithin]

end Twin

end Graph

end Deadwood

/-
  Parts and images of finite sets, maps that answer alike, and what is filed in an index after
  several changes.

  Everything is stated through membership and look-up: a set has one representation, so sets with
  the same members are equal (`SortedSet.eq_of_mem_iff`), and so has a map
  (`SortedMap.eq_of_find?_eq`).
-/
import Deadwood.SortedMap
import Mathlib.Data.List.Nodup
import Mathlib.Logic.Equiv.Basic

namespace Deadwood

open Std

universe u v

namespace SortedSet

variable {α : Type u} {β : Type v} [Ord α] [Ord β]

@[simp] theorem mem_insertAll [TransOrd α] [LawfulEqOrd α] {s : SortedSet α} {xs : List α}
    {a : α} : a ∈ (s.insertAll xs).toList ↔ a ∈ s.toList ∨ a ∈ xs := by
  unfold insertAll
  induction xs generalizing s with
  | nil => simp
  | cons x xs ih =>
      rw [List.foldl_cons, ih, mem_insert, List.mem_cons]
      tauto

@[simp] theorem mem_union [TransOrd α] [LawfulEqOrd α] {s t : SortedSet α} {a : α} :
    a ∈ (s.union t).toList ↔ a ∈ s.toList ∨ a ∈ t.toList := mem_insertAll

/-- What a set contains after an insertion, where elements that compare equal count as one. -/
theorem contains_insert [TransOrd α] {s : SortedSet α} {x a : α} :
    (s.insert x).contains a = true ↔ compare a x = .eq ∨ s.contains a = true := by
  obtain ⟨xs, h⟩ := s
  simp only [insert, contains]
  clear h
  induction xs with
  | nil => simp [insertInto]
  | cons y ys ih =>
      unfold insertInto
      split
      · simp
      · rename_i heq
        -- the element that is there already stands for the new one
        have himp : compare a x = .eq → compare a y = .eq := fun hax => TransCmp.eq_trans hax heq
        simp only [List.any_cons, Bool.or_eq_true, beq_iff_eq]
        tauto
      · simp only [List.any_cons, Bool.or_eq_true, beq_iff_eq] at ih ⊢
        rw [ih]
        tauto

/-- A member is not inserted again. -/
theorem insert_eq_self [TransOrd α] [LawfulEqOrd α] {s : SortedSet α} {x : α} (h : x ∈ s.toList) :
    s.insert x = s :=
  eq_of_mem_iff fun a => by
    rw [mem_insert]
    exact ⟨fun ha => ha.elim (fun he => he ▸ h) id, .inr⟩

/-- A set takes in nothing from a list of its members. -/
theorem insertAll_eq_self [TransOrd α] [LawfulEqOrd α] {s : SortedSet α} {xs : List α}
    (h : ∀ a ∈ xs, a ∈ s.toList) : s.insertAll xs = s :=
  eq_of_mem_iff fun a => by
    rw [mem_insertAll]
    exact ⟨fun ha => ha.elim id (h a), .inl⟩

/-- A set is the set of its members. -/
theorem ofList_toList [TransOrd α] [LawfulEqOrd α] (s : SortedSet α) : ofList s.toList = s :=
  eq_of_mem_iff fun _ => mem_ofList

theorem union_eq_self [TransOrd α] [LawfulEqOrd α] {s t : SortedSet α}
    (h : ∀ a ∈ t.toList, a ∈ s.toList) : s.union t = s := insertAll_eq_self h

theorem isEmpty_iff {s : SortedSet α} : s.isEmpty = true ↔ ∀ a, a ∉ s.toList := by
  simp [isEmpty, List.eq_nil_iff_forall_not_mem]

/-! ## Without some members -/

/-- The members that are not in a list. -/
def without [DecidableEq α] (s : SortedSet α) (gone : List α) : SortedSet α :=
  ⟨s.toList.filter fun a => decide (a ∉ gone), s.ascending.filter _⟩

@[simp] theorem mem_without [DecidableEq α] {s : SortedSet α} {gone : List α} {a : α} :
    a ∈ (s.without gone).toList ↔ a ∈ s.toList ∧ a ∉ gone := by
  simp [without]

@[simp] theorem without_nil [DecidableEq α] {s : SortedSet α} : s.without [] = s :=
  ext (by simp [without])

theorem without_without [DecidableEq α] {s : SortedSet α} {gone more : List α} :
    (s.without gone).without more = s.without (gone ++ more) :=
  ext (by simp [without, List.filter_filter, Bool.and_comm])

theorem erase_eq_without [DecidableEq α] [LawfulEqOrd α] {s : SortedSet α} {a : α} :
    s.erase a = s.without [a] := by
  refine ext (List.filter_congr fun b _ => ?_)
  rw [Bool.eq_iff_iff, bne_iff_ne, ne_eq, Std.compare_eq_iff_eq, decide_eq_true_iff,
    List.mem_singleton, eq_comm]

/-- A list without members of the set takes nothing away. -/
theorem without_eq_self [DecidableEq α] [TransOrd α] [LawfulEqOrd α] {s : SortedSet α}
    {gone : List α} (h : ∀ a ∈ s.toList, a ∉ gone) : s.without gone = s :=
  eq_of_mem_iff fun a => by
    rw [mem_without]
    exact ⟨And.left, fun ha => ⟨ha, h a ha⟩⟩

theorem without_singleton [DecidableEq α] [TransOrd α] [LawfulEqOrd α] {s : SortedSet α} {a : α}
    (h : a ∉ s.toList) : s.without [a] = s :=
  without_eq_self fun _ hb hba => h (List.mem_singleton.1 hba ▸ hb)

/-! ## Images -/

/-- The images of the members. -/
def image [TransOrd β] (s : SortedSet α) (f : α → β) : SortedSet β := ofList (s.toList.map f)

@[simp] theorem image_empty [TransOrd β] {f : α → β} : (∅ : SortedSet α).image f = ∅ := rfl

variable [TransOrd β] [LawfulEqOrd β] {f f' : α → β} {s t : SortedSet α}

@[simp] theorem mem_image {b : β} : b ∈ (s.image f).toList ↔ ∃ a ∈ s.toList, f a = b := by
  simp [image]

theorem mem_image_iff (hf : Function.Injective f) {a : α} :
    f a ∈ (s.image f).toList ↔ a ∈ s.toList := by
  rw [mem_image]
  exact ⟨fun ⟨b, hb, he⟩ => hf he ▸ hb, fun ha => ⟨a, ha, rfl⟩⟩

/-- A set is an image when membership says so; every handle is the image of one. -/
theorem eq_image_iff (f : α ≃ β) {t : SortedSet β} :
    t = s.image f ↔ ∀ a, f a ∈ t.toList ↔ a ∈ s.toList := by
  constructor
  · rintro rfl a
    exact mem_image_iff f.injective
  · intro h
    refine eq_of_mem_iff fun b => ?_
    obtain ⟨a, rfl⟩ := f.surjective b
    rw [h, mem_image_iff f.injective]

theorem image_congr (h : ∀ a ∈ s.toList, f a = f' a) : s.image f = s.image f' :=
  eq_of_mem_iff fun b => by
    simp only [mem_image]
    exact exists_congr fun a => and_congr_right fun ha => by rw [h a ha]

theorem image_insert [TransOrd α] [LawfulEqOrd α] {x : α} :
    (s.insert x).image f = (s.image f).insert (f x) :=
  eq_of_mem_iff fun b => by
    simp only [mem_image, mem_insert, exists_eq_or_imp]
    rw [eq_comm]

theorem image_erase [LawfulEqOrd α] (hf : Function.Injective f) {x : α} :
    (s.erase x).image f = (s.image f).erase (f x) :=
  eq_of_mem_iff fun b => by
    simp only [mem_image, mem_erase]
    constructor
    · rintro ⟨a, ⟨ha, hne⟩, rfl⟩
      exact ⟨⟨a, ha, rfl⟩, hf.ne hne⟩
    · rintro ⟨⟨a, ha, rfl⟩, hne⟩
      exact ⟨a, ⟨ha, fun h => hne (h ▸ rfl)⟩, rfl⟩

theorem image_without [DecidableEq α] [DecidableEq β] {gone : List α} {gone' : List β}
    (hg : ∀ a, f a ∈ gone' ↔ a ∈ gone) :
    (s.without gone).image f = (s.image f).without gone' :=
  eq_of_mem_iff fun b => by
    simp only [mem_image, mem_without]
    constructor
    · rintro ⟨a, ⟨ha, hne⟩, rfl⟩
      exact ⟨⟨a, ha, rfl⟩, fun h => hne ((hg a).1 h)⟩
    · rintro ⟨⟨a, ha, rfl⟩, hne⟩
      exact ⟨a, ⟨ha, fun h => hne ((hg a).2 h)⟩, rfl⟩

theorem contains_image [LawfulEqOrd α] (hf : Function.Injective f) {a : α} :
    (s.image f).contains (f a) = s.contains a := by
  rw [Bool.eq_iff_iff, contains_iff, contains_iff, mem_image_iff hf]

theorem isEmpty_image : (s.image f).isEmpty = s.isEmpty := by
  rw [Bool.eq_iff_iff, isEmpty_iff, isEmpty_iff]
  constructor
  · intro h a ha
    exact h (f a) (mem_image.2 ⟨a, ha, rfl⟩)
  · rintro h b hb
    obtain ⟨a, ha, -⟩ := mem_image.1 hb
    exact h a ha

end SortedSet

namespace SortedMap

variable {κ : Type u} {β : Type v} [Ord κ]

theorem find?_insert [DecidableEq κ] [TransOrd κ] [LawfulEqOrd κ] {m : SortedMap κ β} {k a : κ}
    {v : β} : (m.insert k v).find? a = if a = k then some v else m.find? a := find?_alter

theorem mem_entries_iff [LawfulEqOrd κ] {m : SortedMap κ β} {k : κ} {v : β} :
    (k, v) ∈ m.entries ↔ m.find? k = some v := by
  obtain ⟨es, h⟩ := m
  simp only [find?]
  induction es with
  | nil => simp
  | cons e es ih =>
      have hd := List.pairwise_cons.1 h
      by_cases hk : k = e.1
      · -- the first entry has the key, so no later one has it
        have hlater : (k, v) ∉ es := fun hm => by
          have := hd.1 _ hm
          rw [← hk] at this
          simp at this
        subst hk
        simp [hlater, Prod.ext_iff, eq_comm]
      · have hne : (k, v) ≠ e := fun he => hk (congrArg Prod.fst he)
        simpa [hne, hk] using ih hd.2

theorem mem_keys_iff [LawfulEqOrd κ] {m : SortedMap κ β} {k : κ} :
    k ∈ m.keys ↔ ∃ v, m.find? k = some v := by
  simp [keys, ← mem_entries_iff]

/-- **A map has one representation**: maps that answer alike are equal. -/
theorem eq_of_find?_eq [TransOrd κ] [LawfulEqOrd κ] {m n : SortedMap κ β}
    (h : ∀ k, m.find? k = n.find? k) : m = n := by
  have hnodup : ∀ {es : List (κ × β)}, AscendingKeys es → es.Nodup := fun hes =>
    hes.imp fun hab he => by simp [he] at hab
  have hperm : m.entries.Perm n.entries := by
    refine (List.perm_ext_iff_of_nodup (hnodup m.ascending) (hnodup n.ascending)).2 ?_
    rintro ⟨k, v⟩
    rw [mem_entries_iff, mem_entries_iff, h]
  refine SortedMap.ext (hperm.eq_of_pairwise (fun a b _ _ hab hba => ?_) m.ascending n.ascending)
  exact absurd (TransCmp.lt_trans hab hba) (by simp)

/-- The entries that satisfy a condition. -/
def restrict (m : SortedMap κ β) (p : κ × β → Bool) : SortedMap κ β :=
  ⟨m.entries.filter p, m.ascending.filter p⟩

theorem find?_restrict [LawfulEqOrd κ] {m : SortedMap κ β} {p : κ × β → Bool} {k : κ} {v : β} :
    (m.restrict p).find? k = some v ↔ m.find? k = some v ∧ p (k, v) = true := by
  rw [← mem_entries_iff, restrict, List.mem_filter, mem_entries_iff]

/-- A map that has some of the entries of another one. -/
theorem eq_restrict [TransOrd κ] [LawfulEqOrd κ] {m n : SortedMap κ β} {p : κ × β → Bool}
    (h : ∀ k v, n.find? k = some v ↔ m.find? k = some v ∧ p (k, v) = true) : n = m.restrict p :=
  eq_of_find?_eq fun k => Option.ext fun v => (h k v).trans find?_restrict.symm

/-- A map lists each key once. -/
theorem nodup_keys [LawfulEqOrd κ] (m : SortedMap κ β) : m.keys.Nodup := by
  refine List.pairwise_map.2 (m.ascending.imp fun {a b} hab he => ?_)
  rw [he] at hab
  simp at hab

/-- Changes of different entries commute. -/
theorem alter_comm [DecidableEq κ] [TransOrd κ] [LawfulEqOrd κ] {m : SortedMap κ β} {k l : κ}
    {f f' : Option β → Option β} (hkl : k ≠ l) :
    (m.alter k f).alter l f' = (m.alter l f').alter k f := by
  refine eq_of_find?_eq fun a => ?_
  simp only [find?_alter]
  grind

/-- After inserting entries with ascending keys, these entries are found, and what was there of other
keys. -/
theorem find?_foldl_insert [DecidableEq κ] [TransOrd κ] [LawfulEqOrd κ] {es : List (κ × β)}
    (hes : AscendingKeys es) {m : SortedMap κ β} {k : κ} :
    (es.foldl (fun m e => m.insert e.1 e.2) m).find? k =
      ((⟨es, hes⟩ : SortedMap κ β).find? k).or (m.find? k) := by
  induction es generalizing m with
  | nil => rfl
  | cons e es ih =>
      obtain ⟨hfirst, hrest⟩ := List.pairwise_cons.1 hes
      rw [List.foldl_cons, ih hrest, find?_insert]
      by_cases hk : k = e.1
      · -- no later entry has the key of this one
        have hnone : (⟨es, hrest⟩ : SortedMap κ β).find? k = none := by
          rw [find?, Option.map_eq_none_iff, List.find?_eq_none]
          intro b hb
          rw [hk, hfirst b hb]
          decide
        rw [hnone, if_pos hk]
        simp [find?, hk]
      · rw [if_neg hk]
        simp [find?, hk]

/-- Inserting the entries of a map one by one gives the map. -/
theorem foldl_insert [DecidableEq κ] [TransOrd κ] [LawfulEqOrd κ] (m : SortedMap κ β) :
    m.entries.foldl (fun m e => m.insert e.1 e.2) ∅ = m :=
  eq_of_find?_eq fun k => by rw [find?_foldl_insert m.ascending, find?_empty, Option.or_none]

end SortedMap

namespace Index

variable {κ : Type u} {α : Type v} [Ord κ] [Ord α]

@[simp] theorem get_empty {k : κ} : get (∅ : Index κ α) k = ∅ := rfl

variable [DecidableEq κ] [TransOrd κ] [LawfulEqOrd κ]

/-- What is filed already is not filed again. -/
theorem add_eq_self [TransOrd α] [LawfulEqOrd α] {m : Index κ α} {k : κ} {x : α}
    (h : x ∈ (get m k).toList) : add m k x = m := by
  refine SortedMap.eq_of_find?_eq fun a => ?_
  rw [add, SortedMap.find?_alter]
  by_cases ha : a = k
  · subst ha
    rw [if_pos rfl]
    unfold get at h
    cases hs : SortedMap.find? m a with
    | none => simp [hs] at h
    | some s =>
        rw [hs] at h
        exact congrArg some (SortedSet.insert_eq_self h)
  · rw [if_neg ha]

/-- What is filed under a key after the same handle was filed under several. -/
theorem mem_get_foldl_add [TransOrd α] [LawfulEqOrd α] {m : Index κ α} {keys : List κ} {k : κ}
    {x a : α} :
    a ∈ (get (keys.foldl (fun m k => add m k x) m) k).toList ↔
      (a = x ∧ k ∈ keys) ∨ a ∈ (get m k).toList := by
  induction keys generalizing m with
  | nil => simp
  | cons k' keys ih =>
      rw [List.foldl_cons, ih, get_add, List.mem_cons]
      by_cases h : k = k'
      · subst h
        simp only [if_true, SortedSet.mem_insert, true_or, and_true]
        tauto
      · simp only [h, if_false, false_or]

/-- What is filed under a key after a handle was taken out from under several. -/
theorem mem_get_foldl_drop [LawfulEqOrd α] {m : Index κ α} {keys : List κ} {k : κ} {x a : α} :
    a ∈ (get (keys.foldl (fun m k => drop m k x) m) k).toList ↔
      a ∈ (get m k).toList ∧ ¬ (a = x ∧ k ∈ keys) := by
  induction keys generalizing m with
  | nil => simp
  | cons k' keys ih =>
      rw [List.foldl_cons, ih, get_drop, List.mem_cons]
      by_cases h : k = k'
      · subst h
        simp only [if_true, SortedSet.mem_erase, true_or, and_true]
        tauto
      · simp only [h, if_false, false_or]

/-- A handle that is taken out from under all its keys is found under none. -/
theorem get_foldl_drop_eq_without [DecidableEq α] [TransOrd α] [LawfulEqOrd α] {m : Index κ α}
    {keys : List κ} {k : κ} {x : α} (h : x ∈ (get m k).toList → k ∈ keys) :
    get (keys.foldl (fun m k => drop m k x) m) k = (get m k).without [x] := by
  refine SortedSet.eq_of_mem_iff fun a => ?_
  rw [mem_get_foldl_drop, SortedSet.mem_without, List.mem_singleton]
  exact and_congr_right fun ha => not_congr ⟨And.left, fun he => ⟨he, h (he ▸ ha)⟩⟩

theorem get_drop_eq_without [DecidableEq α] [TransOrd α] [LawfulEqOrd α] {m : Index κ α} {k a : κ}
    {x : α} (h : x ∈ (get m a).toList → a = k) : get (drop m k x) a = (get m a).without [x] := by
  have hkeys : x ∈ (get m a).toList → a ∈ [k] := fun hx => List.mem_singleton.2 (h hx)
  exact get_foldl_drop_eq_without hkeys

end Index

end Deadwood

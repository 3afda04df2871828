/-
  Listing items by their keys.

  `sortByKey key items` lists the items that have a key, each once, in ascending order of keys and,
  for equal keys, of the items themselves.  The answer depends only on which items are given, not
  on their order or how often: it is read off a `SortedSet` of keyed items.
-/
import Deadwood.SortedSet

namespace Deadwood

open Std

universe u v

/-- An item with the key it is listed by. -/
structure Keyed (κ : Type u) (ι : Type v) where
  key : κ
  item : ι
  deriving DecidableEq

namespace Keyed

variable {κ : Type u} {ι : Type v} [Ord κ] [Ord ι]

instance : Ord (Keyed κ ι) := ⟨compareLex (compareOn key) (compareOn item)⟩

instance [TransOrd κ] [TransOrd ι] : TransOrd (Keyed κ ι) :=
  inferInstanceAs (TransCmp (compareLex (compareOn key) (compareOn item)))

instance [LawfulEqOrd κ] [LawfulEqOrd ι] : LawfulEqOrd (Keyed κ ι) where
  compare_self {a} := by
    show (compare a.key a.key).then (compare a.item a.item) = .eq
    simp
  eq_of_compare {a b} h := by
    have h : (compare a.key b.key).then (compare a.item b.item) = .eq := h
    simp only [Ordering.then_eq_eq, Std.compare_eq_iff_eq] at h
    cases a; cases b; simp_all

end Keyed

variable {κ : Type u} {ι : Type v} [Ord κ] [Ord ι] [TransOrd κ] [TransOrd ι]

/-- The items that have a key, each once, in ascending order of key and item. -/
def sortByKey (key : ι → Option κ) (items : List ι) : List ι :=
  let keyed := items.filterMap fun i => (key i).map fun k => Keyed.mk k i
  (SortedSet.ofList keyed).toList.map (·.item)

/-- Exactly the items that have a key are listed. -/
theorem mem_sortByKey [LawfulEqOrd κ] [LawfulEqOrd ι] {key : ι → Option κ} {items : List ι}
    {i : ι} : i ∈ sortByKey key items ↔ i ∈ items ∧ (key i).isSome := by
  simp only [sortByKey, List.mem_map, SortedSet.mem_ofList, List.mem_filterMap,
    Option.map_eq_some_iff]
  constructor
  · rintro ⟨_, ⟨j, hj, k, hk, rfl⟩, rfl⟩
    exact ⟨hj, by simp [hk]⟩
  · rintro ⟨hi, hk⟩
    obtain ⟨k, hk⟩ := Option.isSome_iff_exists.1 hk
    exact ⟨⟨k, i⟩, ⟨i, hi, k, hk, rfl⟩, rfl⟩

end Deadwood

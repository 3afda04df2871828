/-
  Finite maps, held as their list of entries in strictly ascending order of keys, and indices:
  maps from a key to a non-empty set of handles.

  1. **Program** — a single walk, `alterEntries`, carries insertion, replacement, update and
     removal: it finds the place of the key and asks a function what to put there.

  2. **Specification** — `find?` is the view.  `find?_alter` says what the walk does to it: the
     entry of the key changes as the function says and every other entry is as before.

  3. **Crux (`ascending_alterEntries`)** — the walk keeps the keys strictly ascending, so a map has
     one representation and lists its entries in the order of their keys.  A key that compares
     equal to one already held is not replaced: the first spelling stays.
-/
import Deadwood.SortedSet

namespace Deadwood

open Std

universe u v

/-- Walk to the place of `k` and put there what `f` makes of the value found. -/
def alterEntries {κ : Type u} {β : Type v} [Ord κ] (k : κ) (f : Option β → Option β) :
    List (κ × β) → List (κ × β)
  | [] => ((f none).map fun v => (k, v)).toList
  | e :: es =>
      match compare k e.1 with
      | .lt => ((f none).map fun v => (k, v)).toList ++ e :: es
      | .eq => ((f (some e.2)).map fun v => (e.1, v)).toList ++ es
      | .gt => e :: alterEntries k f es

/-- Entries in strictly ascending order of keys. -/
abbrev AscendingKeys {κ : Type u} {β : Type v} [Ord κ] (es : List (κ × β)) : Prop :=
  es.Pairwise fun a b => compare a.1 b.1 = .lt

/-- The key of an entry after the walk is the key of the walk or was there before. -/
theorem key_of_mem_alterEntries {κ : Type u} {β : Type v} [Ord κ] {k : κ}
    {f : Option β → Option β} {es : List (κ × β)} {a : κ × β} (h : a ∈ alterEntries k f es) :
    a.1 = k ∨ ∃ e ∈ es, e.1 = a.1 := by
  induction es with
  | nil =>
      obtain ⟨v, -, rfl⟩ := Option.map_eq_some_iff.1 (Option.mem_toList.1 h)
      exact Or.inl rfl
  | cons e es ih =>
      unfold alterEntries at h
      split at h
      · rcases List.mem_append.1 h with h | h
        · obtain ⟨v, -, rfl⟩ := Option.map_eq_some_iff.1 (Option.mem_toList.1 h)
          exact Or.inl rfl
        · exact Or.inr ⟨a, h, rfl⟩
      · rcases List.mem_append.1 h with h | h
        · obtain ⟨v, -, rfl⟩ := Option.map_eq_some_iff.1 (Option.mem_toList.1 h)
          exact Or.inr ⟨e, by simp, rfl⟩
        · exact Or.inr ⟨a, by simp [h], rfl⟩
      · rcases List.mem_cons.1 h with rfl | h
        · exact Or.inr ⟨a, by simp, rfl⟩
        · rcases ih h with h | ⟨e', he', hk⟩
          · exact Or.inl h
          · exact Or.inr ⟨e', by simp [he'], hk⟩

/-- Put an optional entry in front of entries with greater keys. -/
theorem ascendingKeys_option_append {κ : Type u} {β : Type v} [Ord κ] {k : κ} {o : Option β}
    {es : List (κ × β)} (hk : ∀ e ∈ es, compare k e.1 = .lt) (h : AscendingKeys es) :
    AscendingKeys ((o.map fun v => (k, v)).toList ++ es) := by
  cases o with
  | none => simpa using h
  | some v => exact List.pairwise_cons.2 ⟨hk, h⟩

/-- **The walk keeps the keys strictly ascending.** -/
theorem ascending_alterEntries {κ : Type u} {β : Type v} [Ord κ] [TransOrd κ] {k : κ}
    {f : Option β → Option β} {es : List (κ × β)} (h : AscendingKeys es) :
    AscendingKeys (alterEntries k f es) := by
  induction es with
  | nil =>
      cases hf : f none <;> simp [alterEntries, hf]
  | cons e es ih =>
      have hd := List.pairwise_cons.1 h
      unfold alterEntries
      split
      · rename_i hlt
        refine ascendingKeys_option_append (fun a ha => ?_) h
        rcases List.mem_cons.1 ha with rfl | ha
        · exact hlt
        · exact TransCmp.lt_trans hlt (hd.1 a ha)
      · exact ascendingKeys_option_append hd.1 hd.2
      · rename_i hgt
        refine List.pairwise_cons.2 ⟨fun a ha => ?_, ih hd.2⟩
        rcases key_of_mem_alterEntries ha with hk | ⟨e', he', hk⟩
        · exact hk ▸ OrientedCmp.gt_iff_lt.1 hgt
        · exact hk ▸ hd.1 e' he'

/-- A finite map: its entries in strictly ascending order of keys. -/
structure SortedMap (κ : Type u) (β : Type v) [Ord κ] where
  entries : List (κ × β)
  ascending : AscendingKeys entries

namespace SortedMap

variable {κ : Type u} {β : Type v} [Ord κ]

instance [DecidableEq κ] [DecidableEq β] : DecidableEq (SortedMap κ β) := fun s t =>
  decidable_of_iff (s.entries = t.entries)
    ⟨fun h => by cases s; cases t; simp_all, fun h => h ▸ rfl⟩

/-- Maps with the same list of entries are the same map. -/
@[ext] theorem ext {s t : SortedMap κ β} (h : s.entries = t.entries) : s = t := by
  cases s; cases t; simp_all

/-- The map without entries. -/
def empty : SortedMap κ β := ⟨[], .nil⟩

instance : EmptyCollection (SortedMap κ β) := ⟨empty⟩
instance : Inhabited (SortedMap κ β) := ⟨empty⟩

/-- The value of a key. -/
def find? (m : SortedMap κ β) (k : κ) : Option β :=
  (m.entries.find? fun e => compare k e.1 == .eq).map (·.2)

/-- Whether the key has a value. -/
def contains (m : SortedMap κ β) (k : κ) : Bool := (m.find? k).isSome

/-- The keys, ascending. -/
def keys (m : SortedMap κ β) : List κ := m.entries.map (·.1)

/-- The values, in the order of their keys. -/
def values (m : SortedMap κ β) : List β := m.entries.map (·.2)

/-- Change the entry of `k` as `f` says: `none` stands for no entry. -/
def alter [TransOrd κ] (m : SortedMap κ β) (k : κ) (f : Option β → Option β) : SortedMap κ β :=
  ⟨alterEntries k f m.entries, ascending_alterEntries m.ascending⟩

/-- Give `k` the value `v`; a key already held keeps its spelling. -/
def insert [TransOrd κ] (m : SortedMap κ β) (k : κ) (v : β) : SortedMap κ β :=
  m.alter k fun _ => some v

/-! ## Look-up -/

@[simp] theorem find?_empty {k : κ} : (∅ : SortedMap κ β).find? k = none := rfl

/-- **What the walk does to the view**: the entry of the key changes as asked, the others stay. -/
theorem find?_alter [DecidableEq κ] [TransOrd κ] [LawfulEqOrd κ] {m : SortedMap κ β} {k a : κ}
    {f : Option β → Option β} :
    (m.alter k f).find? a = if a = k then f (m.find? k) else m.find? a := by
  obtain ⟨es, h⟩ := m
  simp only [find?, alter]
  induction es with
  | nil =>
      by_cases ha : a = k
      · subst ha; cases hf : f none <;> simp [alterEntries, hf]
      · cases hf : f none <;> simp [alterEntries, hf, ha]
  | cons e es ih =>
      have hd := List.pairwise_cons.1 h
      have ih := ih hd.2
      unfold alterEntries
      split
      · rename_i hlt
        have hne : k ≠ e.1 := fun he => by simp [he] at hlt
        have hes : es.find? (fun e => compare k e.1 == .eq) = none := by
          refine List.find?_eq_none.2 fun b hb => ?_
          have := TransCmp.lt_trans hlt (hd.1 b hb)
          simp [this]
        by_cases ha : a = k
        · subst ha; cases hf : f none <;> simp [hf, hne, hes]
        · cases f none <;> simp [ha]
      · rename_i heq
        have hke : k = e.1 := LawfulEqCmp.eq_of_compare heq
        by_cases ha : a = k
        · subst ha
          have hes : es.find? (fun e => compare a e.1 == .eq) = none := by
            refine List.find?_eq_none.2 fun b hb => ?_
            have := hd.1 b hb
            rw [← hke] at this
            simp [this]
          cases hf : f (some e.2) <;> simp [hf, ← hke, hes]
        · cases f (some e.2) <;> simp [ha, ← hke]
      · rename_i hgt
        have hne : k ≠ e.1 := fun he => by simp [he] at hgt
        by_cases hae : a = e.1
        · have : a ≠ k := fun h => hne (h ▸ hae)
          simp [hae, Ne.symm hne]
        · simpa [hae, hne] using ih

end SortedMap

/-- A map from keys to non-empty sets of handles. -/
abbrev Index (κ : Type u) (α : Type v) [Ord κ] [Ord α] := SortedMap κ (SortedSet α)

namespace Index

variable {κ : Type u} {α : Type v} [Ord κ] [Ord α]

/-- The handles filed under a key, ascending; none for an unknown key. -/
def get (m : Index κ α) (k : κ) : SortedSet α := (m.find? k).getD ∅

/-- File `x` under `k`. -/
def add [TransOrd κ] [TransOrd α] (m : Index κ α) (k : κ) (x : α) : Index κ α :=
  m.alter k fun s => some ((s.getD ∅).insert x)

/-- Take `x` out from under `k`; a key left without handles disappears. -/
def drop [TransOrd κ] (m : Index κ α) (k : κ) (x : α) : Index κ α :=
  m.alter k fun s => (s.map (·.erase x)).filter (!·.isEmpty)

/-- What is filed under a key after `add`. -/
theorem get_add [DecidableEq κ] [TransOrd κ] [LawfulEqOrd κ] [TransOrd α] {m : Index κ α}
    {k a : κ} {x : α} :
    get (add m k x) a = if a = k then (get m k).insert x else get m a := by
  by_cases h : a = k <;> simp [get, add, SortedMap.find?_alter, h]

/-- What is filed under a key after `drop`. -/
theorem get_drop [DecidableEq κ] [TransOrd κ] [LawfulEqOrd κ] {m : Index κ α} {k a : κ} {x : α} :
    get (drop m k x) a = if a = k then (get m k).erase x else get m a := by
  by_cases h : a = k
  · subst h
    simp only [get, drop, SortedMap.find?_alter, if_true]
    cases hm : SortedMap.find? m a with
    | none => rfl
    | some s =>
        by_cases he : (s.erase x).isEmpty
        · have : s.erase x = ∅ := SortedSet.ext (by simpa [SortedSet.isEmpty] using he)
          simp only [Option.map_some, this, Option.getD_some]
          rfl
        · simp [he, Option.filter]
  · simp [get, drop, SortedMap.find?_alter, h]

end Index

end Deadwood

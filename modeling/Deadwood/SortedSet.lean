/-
  Finite sets, held as their strictly ascending list of members.

  1. **Program** — one insertion that walks the list once, one erasure that filters it, and a
     membership test; everything else is built from the three.

  2. **Specification** — the list is the view.  Because it is strictly ascending, a set has one
     representation only: two sets with the same members are equal values, and listing a set always
     answers in the same order, whatever the order of the insertions.

  3. **Crux (`ascending_insertInto`)** — insertion keeps the list strictly ascending.  An element
     that compares equal to one already held is dropped, so the first spelling stays.
-/

namespace Deadwood

open Std

universe u

/-- Insert `x` into an ascending list; an element that compares equal to `x` stays as it is. -/
def insertInto {α : Type u} [Ord α] (x : α) : List α → List α
  | [] => [x]
  | y :: ys =>
      match compare x y with
      | .lt => x :: y :: ys
      | .eq => y :: ys
      | .gt => y :: insertInto x ys

/-- Strictly ascending in the order of `compare`. -/
abbrev Ascending {α : Type u} [Ord α] (xs : List α) : Prop :=
  xs.Pairwise fun a b => compare a b = .lt

/-- Insertion brings in nothing but the new element. -/
theorem mem_of_mem_insertInto {α : Type u} [Ord α] {x a : α} {xs : List α}
    (h : a ∈ insertInto x xs) : a = x ∨ a ∈ xs := by
  induction xs with
  | nil => simpa [insertInto] using h
  | cons y ys ih =>
      unfold insertInto at h
      split at h
      · simpa using h
      · exact Or.inr h
      · rcases List.mem_cons.1 h with rfl | h
        · simp
        · rcases ih h with h | h <;> simp [h]

/-- Insertion loses nothing. -/
theorem mem_insertInto_of_mem {α : Type u} [Ord α] {x a : α} {xs : List α}
    (h : a ∈ xs) : a ∈ insertInto x xs := by
  induction xs with
  | nil => cases h
  | cons y ys ih =>
      unfold insertInto
      split
      · simp [List.mem_cons.1 h]
      · exact h
      · rcases List.mem_cons.1 h with rfl | h
        · simp
        · simp [ih h]

/-- **Insertion keeps a list strictly ascending.** -/
theorem ascending_insertInto {α : Type u} [Ord α] [TransOrd α] {x : α} {xs : List α}
    (h : Ascending xs) : Ascending (insertInto x xs) := by
  induction xs with
  | nil => simp [insertInto]
  | cons y ys ih =>
      unfold insertInto
      split
      · rename_i hlt
        refine List.pairwise_cons.2 ⟨fun a ha => ?_, h⟩
        rcases List.mem_cons.1 ha with rfl | ha
        · exact hlt
        · exact TransCmp.lt_trans hlt ((List.pairwise_cons.1 h).1 a ha)
      · exact h
      · rename_i hgt
        refine List.pairwise_cons.2 ⟨fun a ha => ?_, ih (List.pairwise_cons.1 h).2⟩
        rcases mem_of_mem_insertInto ha with rfl | ha
        · exact OrientedCmp.gt_iff_lt.1 hgt
        · exact (List.pairwise_cons.1 h).1 a ha

/-- A finite set: its members in strictly ascending order. -/
structure SortedSet (α : Type u) [Ord α] where
  toList : List α
  ascending : Ascending toList

namespace SortedSet

variable {α : Type u} [Ord α]

instance [DecidableEq α] : DecidableEq (SortedSet α) := fun s t =>
  decidable_of_iff (s.toList = t.toList) ⟨fun h => by cases s; cases t; simp_all, fun h => h ▸ rfl⟩

/-- Sets with the same list of members are the same set. -/
@[ext] theorem ext {s t : SortedSet α} (h : s.toList = t.toList) : s = t := by
  cases s; cases t; simp_all

/-- The empty set. -/
def empty : SortedSet α := ⟨[], .nil⟩

instance : EmptyCollection (SortedSet α) := ⟨empty⟩
instance : Inhabited (SortedSet α) := ⟨empty⟩

/-- Whether some member compares equal to `x`. -/
def contains (s : SortedSet α) (x : α) : Bool :=
  s.toList.any fun y => compare x y == .eq

/-- Whether there is no member. -/
def isEmpty (s : SortedSet α) : Bool := s.toList.isEmpty

/-- The least member. -/
def least? (s : SortedSet α) : Option α := s.toList.head?

/-- The set with `x`; when a member compares equal to `x` the set is unchanged. -/
def insert [TransOrd α] (s : SortedSet α) (x : α) : SortedSet α :=
  ⟨insertInto x s.toList, ascending_insertInto s.ascending⟩

/-- The set without the members that compare equal to `x`. -/
def erase (s : SortedSet α) (x : α) : SortedSet α :=
  ⟨s.toList.filter fun y => compare x y != .eq, s.ascending.filter _⟩

/-- The set with every element of a list, earlier elements first. -/
def insertAll [TransOrd α] (s : SortedSet α) (xs : List α) : SortedSet α :=
  xs.foldl insert s

/-- Both sets together. -/
def union [TransOrd α] (s t : SortedSet α) : SortedSet α := s.insertAll t.toList

/-- The set with a single member. -/
def singleton (x : α) : SortedSet α := ⟨[x], by simp⟩

/-- The set of the elements of a list: an insertion sort that drops repetitions. -/
def ofList [TransOrd α] : List α → SortedSet α
  | [] => empty
  | x :: xs => (ofList xs).insert x

/-- Whether every member of the first set is in the second. -/
def subset (s t : SortedSet α) : Bool := s.toList.all t.contains

/-! ## Membership -/

/-- Where equal comparison is equality, the membership test is membership in the list. -/
@[simp] theorem contains_iff [LawfulEqOrd α] {s : SortedSet α} {x : α} :
    s.contains x = true ↔ x ∈ s.toList := by
  simp [contains, List.any_eq_true]

@[simp] theorem toList_empty : (∅ : SortedSet α).toList = [] := rfl

/-- The members after an insertion. -/
@[simp] theorem mem_insert [TransOrd α] [LawfulEqOrd α] {s : SortedSet α} {x a : α} :
    a ∈ (s.insert x).toList ↔ a = x ∨ a ∈ s.toList := by
  refine ⟨mem_of_mem_insertInto, fun h => ?_⟩
  rcases h with rfl | h
  · show a ∈ insertInto a s.toList
    induction s.toList with
    | nil => simp [insertInto]
    | cons y ys ih =>
        unfold insertInto
        split
        · simp
        · rename_i he; simp [LawfulEqCmp.eq_of_compare he]
        · simp [ih]
  · exact mem_insertInto_of_mem h

/-- The members after an erasure. -/
@[simp] theorem mem_erase [LawfulEqOrd α] {s : SortedSet α} {x a : α} :
    a ∈ (s.erase x).toList ↔ a ∈ s.toList ∧ a ≠ x := by
  simp only [erase, List.mem_filter, bne_iff_ne, ne_eq, Std.compare_eq_iff_eq, @eq_comm _ x a]

/-- The members of the set of a list are the elements of the list. -/
@[simp] theorem mem_ofList [TransOrd α] [LawfulEqOrd α] {xs : List α} {a : α} :
    a ∈ (ofList xs).toList ↔ a ∈ xs := by
  induction xs with
  | nil => simp [ofList, empty]
  | cons x xs ih => simp [ofList, ih]

/-- A set lists each member once. -/
theorem nodup (s : SortedSet α) [LawfulEqOrd α] : s.toList.Nodup :=
  s.ascending.imp fun {a b} h he => by subst he; simp at h

/-- **One representation per set**: sets with the same members are equal. -/
theorem eq_of_mem_iff [TransOrd α] [LawfulEqOrd α] {s t : SortedSet α}
    (h : ∀ a, a ∈ s.toList ↔ a ∈ t.toList) : s = t := by
  apply ext
  have perm : s.toList.Perm t.toList := (List.perm_ext_iff_of_nodup s.nodup t.nodup).2 h
  refine perm.eq_of_pairwise (fun a b _ _ hab hba => ?_) s.ascending t.ascending
  exact absurd (TransCmp.lt_trans hab hba) (by simp)

end SortedSet

example : (SortedSet.ofList [3, 1, 2, 1]).toList = [1, 2, 3] := by decide
example : SortedSet.ofList [2, 1] = SortedSet.ofList [1, 2, 2] := by decide

end Deadwood

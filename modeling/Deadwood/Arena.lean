/-
  A store of numbered entries whose numbers are never used twice.

  An entry gets the number of entries stored before it.  Removing an entry empties its slot and
  leaves every other number alone, so a number that was given out either still names its entry or
  names nothing.  The view is `get?`; each operation has one lemma that says what it does to it.
-/

namespace Deadwood

universe u

/-- Numbered entries, some of them removed. -/
structure Arena (α : Type u) where
  slots : Array (Option α)
  deriving DecidableEq

namespace Arena

variable {α : Type u}

/-- The arena in which no number was given out. -/
def empty : Arena α := ⟨#[]⟩

instance : EmptyCollection (Arena α) := ⟨empty⟩
instance : Inhabited (Arena α) := ⟨empty⟩

/-- How many numbers were given out; the next entry gets this number. -/
def size (a : Arena α) : Nat := a.slots.size

/-- The live entry of a number. -/
def get? (a : Arena α) (i : Nat) : Option α := a.slots[i]?.join

/-- Store an entry under the next number. -/
def push (a : Arena α) (x : α) : Arena α := ⟨a.slots.push (some x)⟩

/-- Remove the entry of a number. -/
def erase (a : Arena α) (i : Nat) : Arena α := ⟨a.slots.setIfInBounds i none⟩

/-- Change the live entry of a number. -/
def modify (a : Arena α) (i : Nat) (f : α → α) : Arena α := ⟨a.slots.modify i (·.map f)⟩

/-- The numbers of the live entries, ascending. -/
def live (a : Arena α) : List Nat := (List.range a.size).filter fun i => (a.get? i).isSome

/-- The live entries with their numbers, ascending. -/
def entries (a : Arena α) : List (Nat × α) := a.live.filterMap fun i => (a.get? i).map (i, ·)

/-- How many entries are live. -/
def count (a : Arena α) : Nat := a.live.length

/-! ## What the operations do to the view -/

@[simp] theorem get?_empty {i : Nat} : (∅ : Arena α).get? i = none := by
  show (#[] : Array (Option α))[i]?.join = none
  simp

@[simp] theorem size_push {a : Arena α} {x : α} : (a.push x).size = a.size + 1 := by
  simp [size, push]

@[simp] theorem size_erase {a : Arena α} {i : Nat} : (a.erase i).size = a.size := by
  simp [size, erase]

@[simp] theorem size_modify {a : Arena α} {i : Nat} {f : α → α} :
    (a.modify i f).size = a.size := by
  simp [size, modify]

/-- A number not given out yet names nothing. -/
theorem get?_eq_none_of_size_le {a : Arena α} {i : Nat} (h : a.size ≤ i) : a.get? i = none := by
  simp [get?, Array.getElem?_eq_none h]

/-- A new entry is found under its number, and the others are as before. -/
theorem get?_push {a : Arena α} {x : α} {i : Nat} :
    (a.push x).get? i = if i = a.size then some x else a.get? i := by
  by_cases h : i = a.size
  · subst h; simp [get?, push, size]
  · have h' : i ≠ a.slots.size := h
    simp [get?, push, Array.getElem?_push, h, h']

/-- A removed entry is gone, and the others are as before. -/
theorem get?_erase {a : Arena α} {i j : Nat} :
    (a.erase i).get? j = if i = j then none else a.get? j := by
  simp only [get?, erase, Array.getElem?_setIfInBounds]
  split
  · split <;> simp
  · rfl

/-- A changed entry is changed, and the others are as before. -/
theorem get?_modify {a : Arena α} {i j : Nat} {f : α → α} :
    (a.modify i f).get? j = if i = j then (a.get? j).map f else a.get? j := by
  simp only [get?, modify, Array.getElem?_modify]
  split
  · cases h : a.slots[j]? with
    | none => rfl
    | some o => cases o <;> rfl
  · rfl

/-- The live numbers are those that name an entry. -/
@[simp] theorem mem_live {a : Arena α} {i : Nat} : i ∈ a.live ↔ (a.get? i).isSome := by
  simp only [live, List.mem_filter, List.mem_range, and_iff_right_iff_imp]
  intro h
  apply Decidable.byContradiction
  intro hi
  rw [get?_eq_none_of_size_le (Nat.le_of_not_lt hi)] at h
  cases h

/-- The live numbers are listed once each. -/
theorem nodup_live {a : Arena α} : a.live.Nodup := List.nodup_range.filter _

end Arena

end Deadwood

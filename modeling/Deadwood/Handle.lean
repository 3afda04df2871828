/-
  Handles: the numbers by which the graph names its declarations and its references.

  The two sequences of numbers are separate, so they are separate types.  Handles compare by
  number.

  A handle is the number of entries that were made before, as it is.  The program keeps handles in 32
  bits and cuts that number off, so that they repeat after 2^32 entries of one sort; graphs in which
  so many were ever made are outside the model.
-/

namespace Deadwood

open Std

/-- The handle of a declaration. -/
structure DeclId where
  index : Nat
  deriving DecidableEq, Repr, Inhabited

/-- The handle of a reference. -/
structure RefId where
  index : Nat
  deriving DecidableEq, Repr, Inhabited

instance : Ord DeclId := ⟨compareOn DeclId.index⟩
instance : TransOrd DeclId := inferInstanceAs (TransCmp (compareOn DeclId.index))
instance : LawfulEqOrd DeclId where
  eq_of_compare {a b} h := by
    have h : compare a.index b.index = .eq := h
    rw [Std.compare_eq_iff_eq] at h
    cases a; cases b; simp_all

instance : Ord RefId := ⟨compareOn RefId.index⟩
instance : TransOrd RefId := inferInstanceAs (TransCmp (compareOn RefId.index))
instance : LawfulEqOrd RefId where
  eq_of_compare {a b} h := by
    have h : compare a.index b.index = .eq := h
    rw [Std.compare_eq_iff_eq] at h
    cases a; cases b; simp_all

end Deadwood

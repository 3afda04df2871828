/-
  Places in source code.

  A location is a file as it was written, a line and a column.  Its `Place` is the canonical form:
  the components of the file instead of its spelling.  Locations are compared, and told apart, by
  their places only.
-/
import Deadwood.Path

namespace Deadwood

open Std

/-- A place in source code, in canonical form. -/
structure Place where
  file : List Component
  line : Nat
  column : Nat
  deriving DecidableEq, Repr, Inhabited

namespace Place

instance : Ord Place :=
  ⟨compareLex (compareOn file) (compareLex (compareOn line) (compareOn column))⟩
instance : TransOrd Place :=
  inferInstanceAs (TransCmp
    (compareLex (compareOn file) (compareLex (compareOn line) (compareOn column))))

instance : LawfulEqOrd Place where
  eq_of_compare {a b} h := by
    have h : (compare a.file b.file).then
        ((compare a.line b.line).then (compare a.column b.column)) = .eq := h
    simp only [Ordering.then_eq_eq, Std.compare_eq_iff_eq] at h
    cases a; cases b; simp_all

end Place

/-- A location in source code: a file as it was written, a line and a column. -/
structure Location where
  file : Path
  line : Nat
  column : Nat
  deriving DecidableEq, Repr, Inhabited

namespace Location

/-- The canonical form of a location. -/
def place (l : Location) : Place := ⟨l.file.components, l.line, l.column⟩

/-- A location as `file:line:column`. -/
def text (l : Location) : String := s!"{l.file.text}:{l.line}:{l.column}"

end Location

end Deadwood

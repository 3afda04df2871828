/-
  File paths.

  A path is kept and printed as it was written, and compared by its components: repeated slashes,
  inner dots and a slash at the end do not count, a dot at the beginning does.  So two spellings
  may be the same path, and `Path.components` is the canonical form that decides.
-/
import Deadwood.Text.Pieces

namespace Deadwood

open Std

/-- A step of a path. -/
inductive Component where
  /-- The root directory, in front of an absolute path. -/
  | root
  /-- The dot at the beginning of a relative path. -/
  | here
  /-- Two dots: the parent directory. -/
  | up
  /-- A directory or file of that name. -/
  | name (text : String)
  deriving DecidableEq, Repr, Inhabited

namespace Component

/-- Steps compare by their form first. -/
def rank : Component → Nat
  | root => 0
  | here => 1
  | up => 2
  | name _ => 3

/-- Names then compare as texts. -/
def text : Component → String
  | name t => t
  | _ => ""

instance : Ord Component := ⟨compareLex (compareOn rank) (compareOn text)⟩
instance : TransOrd Component :=
  inferInstanceAs (TransCmp (compareLex (compareOn rank) (compareOn text)))

instance : LawfulEqOrd Component where
  eq_of_compare {a b} h := by
    have h : ((compare a.rank b.rank).then (compare a.text b.text)) = .eq := h
    rw [Ordering.then_eq_eq, Std.compare_eq_iff_eq, Std.compare_eq_iff_eq] at h
    cases a <;> cases b <;> simp_all [rank, text]

end Component

/-- A file path, as it was written. -/
structure Path where
  text : String
  deriving DecidableEq, Repr, Inhabited

namespace Path

/-- The components of a text between slashes; a dot counts only where `first` holds. -/
def componentsOf (first : Bool) : List (List Char) → List Component
  | [] => []
  | piece :: rest =>
      let step : Option Component :=
        if piece = [] then none
        else if piece = ['.'] then (if first then some .here else none)
        else if piece = ['.', '.'] then some .up
        else some (.name (String.ofList piece))
      step.toList ++ componentsOf false rest

/-- The canonical form of a path: its components. -/
def components (p : Path) : List Component :=
  match p.text.toList with
  | '/' :: cs => .root :: componentsOf false (Text.cutAt '/' cs)
  | cs => componentsOf true (Text.cutAt '/' cs)

/-- Whether two spellings are the same path. -/
def same (p q : Path) : Bool := p.components == q.components

/-- The file name: the last component, when it is a name. -/
def fileName? (p : Path) : Option String :=
  match p.components.getLast? with
  | some (.name t) => some t
  | _ => none

/-- The part of the file name behind its last dot; a dot at the very beginning does not count. -/
def fileExtension? (p : Path) : Option String := do
  let name ← p.fileName?
  let pieces := Text.cutAt '.' name.toList
  if pieces.dropLast = [] || pieces.dropLast = [[]] then none
  else pieces.getLast?.map String.ofList

/-- The path of a file named relative to a directory. -/
def join (dir : Path) (name : String) : Path :=
  if name.toList.head? = some '/' then ⟨name⟩
  else if dir.text = "" || dir.text.toList.getLast? = some '/' then ⟨dir.text ++ name⟩
  else ⟨dir.text ++ "/" ++ name⟩

/-- How a component is written. -/
def spell : Component → String
  | .root => ""
  | .here => "."
  | .up => ".."
  | .name t => t

/-- The plainest spelling of some components. -/
def ofComponents : List Component → Path
  | [.root] => ⟨"/"⟩
  | cs => ⟨"/".intercalate (cs.map spell)⟩

/-- The directory of a path; the root directory and the empty path have none. -/
def parent? (p : Path) : Option Path :=
  match p.components.getLast? with
  | none | some .root => none
  | some _ => some (ofComponents p.components.dropLast)

end Path

example : (Path.mk "a//b/./c/").components = [.name "a", .name "b", .name "c"] := by decide
example : (Path.mk "d/a.yml.toml").fileExtension? = some "toml" := by decide
example : (Path.mk ".yml").fileExtension? = none := by decide
example : (Path.mk "./a").same ⟨"a"⟩ = false := by decide
example : compare (Path.mk "a/b").components (Path.mk "a-b").components = .lt := by decide

end Deadwood

/-
  A directory with files in it, held in memory.

  1. **Program** — a tree is the map from the way to a file, the names from the top down, to its
     text.  A directory is there when some file lies below it; the top is always there.  `locate`
     follows a path piece by piece, and every piece, an empty one or a dot included, can only be
     taken from a directory: so `f/` names nothing when `f` is a file.

  2. **Writing** — a write is refused unless it is made in a directory that is there, under a name
     that is no directory's; otherwise the way of that name has the new text and every other way is
     as before.

  Paths that lead out of the tree name nothing.
-/
import Deadwood.Path
import Deadwood.SortedMap

namespace Deadwood

/-- What stands at a path. -/
inductive Entry where
  | missing
  | directory
  | file (text : String)
  deriving DecidableEq, Repr, Inhabited

/-- A directory with files in it. -/
structure FileTree where
  /-- The text of each file, by the names that lead to it. -/
  files : SortedMap (List String) String

namespace FileTree

instance : EmptyCollection FileTree := ⟨⟨∅⟩⟩
instance : Inhabited FileTree := ⟨∅⟩

/-- Whether the names lead to a directory: the top, or what has a file below it. -/
def isDirectory (t : FileTree) (way : List String) : Bool :=
  way.isEmpty || t.files.keys.any fun k => way.isPrefixOf k && way.length < k.length

/-- What the names lead to. -/
def entryAt (t : FileTree) (way : List String) : Entry :=
  if t.isDirectory way then .directory
  else match t.files.find? way with
    | some text => .file text
    | none => .missing

/-- Take one piece of a path from a place in the tree. -/
def step (t : FileTree) (way : List String) (piece : List Char) : Option (List String) :=
  if !t.isDirectory way then none
  else if piece = [] || piece = ['.'] then some way
  else if piece = ['.', '.'] then (if way = [] then none else some way.dropLast)
  else some (way ++ [String.ofList piece])

/-- Follow the pieces of a path from the top. -/
def locate (t : FileTree) (pieces : List (List Char)) : Option (List String) :=
  pieces.foldlM t.step []

/-- The pieces of a path that starts in the tree. -/
def pieces? (p : Path) : Option (List (List Char)) :=
  match p.text.toList with
  | [] => none
  | '/' :: _ => none
  | cs => some (Text.cutAt '/' cs)

/-- What stands at a path. -/
def look (t : FileTree) (p : Path) : Entry :=
  match (pieces? p).bind t.locate with
  | some way => t.entryAt way
  | none => .missing

/-- The names that lead to a file, from its name with slashes between them. -/
def wayTo (name : String) : List String :=
  ((Text.cutAt '/' name.toList).filter (· ≠ [])).map String.ofList

/-- Store a file under a name, the directories on the way included. -/
def put (t : FileTree) (name text : String) : FileTree := ⟨t.files.insert (wayTo name) text⟩

/-- The greatest number of bytes in a file name. -/
def maxNameSize : Nat := 255

/-- Whether a piece of a path can be the name of a file. -/
def isFileName (piece : List Char) : Bool :=
  piece ≠ [] && piece ≠ ['.'] && piece ≠ ['.', '.'] && !piece.contains '\x00' &&
    (String.ofList piece).utf8ByteSize ≤ maxNameSize

/-- Make or replace the file at a path. -/
def write? (t : FileTree) (p : Path) (text : String) : Option FileTree := do
  let pieces ← pieces? p
  let name ← pieces.getLast?
  let dir ← t.locate pieces.dropLast
  let way := dir ++ [String.ofList name]
  if isFileName name && t.isDirectory dir && !t.isDirectory way then
    some ⟨t.files.insert way text⟩
  else none

/-- The files that are new or have another text than before. -/
def changesSince (t before : FileTree) : List (String × String) :=
  (t.files.entries.filter fun e => before.files.find? e.1 != some e.2).map fun e =>
    ("/".intercalate e.1, e.2)

end FileTree

/-- A directory of settings, for the examples. -/
def FileTree.sample : FileTree := (((∅ : FileTree).put "a.yml" "x").put "d/b.yml" "y")

example : FileTree.sample.look ⟨"./d//b.yml"⟩ = .file "y" := by decide +kernel
example : FileTree.sample.look ⟨"d/../a.yml"⟩ = .file "x" := by decide +kernel
example : FileTree.sample.look ⟨"a.yml/"⟩ = .missing := by decide +kernel
example : FileTree.sample.look ⟨"d"⟩ = .directory := by decide +kernel
example : (FileTree.sample.write? ⟨"e/r.json"⟩ "").isNone := by decide +kernel

end Deadwood

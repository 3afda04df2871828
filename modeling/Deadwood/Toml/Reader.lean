/-
  Reading TOML text.

  A document is read line by line: a line is empty or holds a comment, a header or an assignment,
  and a value may go on over several lines.  Arrays and tables inside of values nest at most
  `maxDepth` deep.  `fuel` bounds the number of steps by the length of the text.
-/
import Deadwood.Toml.Table

namespace Deadwood.Toml

/-- The greatest number of arrays and tables around a value. -/
def maxDepth : Nat := 79

/-- Pass over blanks. -/
def skipBlanks (cs : List Char) : List Char := cs.dropWhile isBlank

/-- Pass over a comment. -/
def skipComment : List Char → List Char
  | '#' :: cs => cs.dropWhile isAdmitted
  | cs => cs

/-- Pass over blanks, comments and line ends. -/
def skipGap : Nat → List Char → List Char
  | 0, cs => cs
  | fuel + 1, cs =>
      let cs := skipComment (skipBlanks cs)
      match newline? cs with
      | some rest => skipGap fuel rest
      | none => cs

/-! ## Names -/

/-- Whether a character can stand in a name without quotes. -/
def isNameChar (c : Char) : Bool := c.isAlphanum || c == '_' || c == '-'

/-- A name, in quotes or not. -/
def name? (cs : List Char) : Option (String × List Char) :=
  match cs with
  | '"' :: _ | '\'' :: _ => quotedLine? cs
  | _ =>
      let name := cs.takeWhile isNameChar
      if name.isEmpty then none else some (String.ofList name, cs.dropWhile isNameChar)

/-- Names with points between them: the path and the last name. -/
def names? : Nat → Reader (List String × String)
  | 0, _ => none
  | fuel + 1, cs => do
      let (name, rest) ← name? (skipBlanks cs)
      match skipBlanks rest with
      | '.' :: rest =>
          let ((path, last), rest) ← names? fuel rest
          return ((name :: path, last), rest)
      | rest => return (([], name), rest)

/-! ## Values -/

mutual

/-- A value. -/
def value? (depth : Nat) : Nat → Reader Value
  | 0, _ => none
  | fuel + 1, cs =>
      match cs, depth with
      | '[' :: rest, depth + 1 => do
          let (items, rest) ← items? depth fuel rest
          return (.array items, rest)
      | '\x7b' :: rest, depth + 1 => do
          let (assignments, rest) ← assignments? depth true fuel rest
          return (Entries.toValue (← assignAll [] assignments), rest)
      | _, _ => scalar? cs

/-- The items of an array, to its closing bracket. -/
def items? (depth : Nat) : Nat → Reader (List Value)
  | 0, _ => none
  | fuel + 1, cs =>
      match skipGap cs.length cs with
      | ']' :: rest => some ([], rest)
      | cs => do
          let (item, rest) ← value? depth fuel cs
          match skipGap rest.length rest with
          | ',' :: rest =>
              let (items, rest) ← items? depth fuel rest
              return (item :: items, rest)
          | ']' :: rest => return ([item], rest)
          | _ => none

/-- The assignments of a table in braces, to the closing one, all on one line. -/
def assignments? (depth : Nat) (isFirst : Bool) : Nat → Reader (List Assignment)
  | 0, _ => none
  | fuel + 1, cs =>
      match skipBlanks cs, isFirst with
      | '\x7d' :: rest, true => some ([], rest)
      | cs, _ => do
          let (a, rest) ← assignment? depth fuel cs
          match skipBlanks rest with
          | ',' :: rest =>
              let (as, rest) ← assignments? depth false fuel rest
              return (a :: as, rest)
          | '\x7d' :: rest => return ([a], rest)
          | _ => none

/-- An assignment. -/
def assignment? (depth : Nat) : Nat → Reader Assignment
  | 0, _ => none
  | fuel + 1, cs => do
      let ((path, name), rest) ← names? cs.length cs
      let rest ← expect? '=' rest
      let (value, rest) ← value? depth fuel (skipBlanks rest)
      return (⟨path, name, value⟩, rest)

end

/-! ## Documents -/

/-- A line that says something. -/
inductive Line where
  | header (h : Header)
  | assignment (a : Assignment)

/-- A header, from its bracket. -/
def header? (cs : List Char) : Option (Header × List Char) :=
  match cs with
  | '[' :: '[' :: rest => do
      let ((path, name), rest) ← names? rest.length rest
      return (⟨true, path, name⟩, ← expect? ']' (← expect? ']' rest))
  | '[' :: rest => do
      let ((path, name), rest) ← names? rest.length rest
      return (⟨false, path, name⟩, ← expect? ']' rest)
  | _ => none

/-- The end of a line. -/
def lineEnd? (cs : List Char) : Option (List Char) :=
  match skipComment (skipBlanks cs) with
  | [] => some []
  | cs => newline? cs

/-- The lines of a document. -/
def lines? : Nat → List Char → Option (List Line)
  | 0, _ => none
  | fuel + 1, cs =>
      match skipGap cs.length cs with
      | [] => some []
      | '[' :: cs => do
          let (h, rest) ← header? ('[' :: cs)
          return .header h :: (← lines? fuel (← lineEnd? rest))
      | cs => do
          let (a, rest) ← assignment? maxDepth (3 * cs.length + 3) cs
          return .assignment a :: (← lines? fuel (← lineEnd? rest))

/-- Lines as the assignments in front of the first header, and sections. -/
def sections : List Line → List Assignment × List Section
  | [] => ([], [])
  | .assignment a :: ls => let (top, rest) := sections ls; (a :: top, rest)
  | .header h :: ls => let (under, rest) := sections ls; ([], ⟨h, under⟩ :: rest)

/-- Read a document; a mark of the byte order in front of it does not count. -/
def parse? (text : String) : Option Value := do
  let cs := match text.toList with
    | '\ufeff' :: cs => cs
    | cs => cs
  let lines ← lines? (cs.length + 1) cs
  buildTable (sections lines).1 (sections lines).2

end Deadwood.Toml

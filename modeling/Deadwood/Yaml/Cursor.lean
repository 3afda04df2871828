/-
  A place in a YAML text.

  A cursor is what is still to be read, with the line and the column it stands at; layout is
  decided by columns.  Lines end with a line feed, a carriage return, both in this order, or one of
  three further characters; a line end of the last two kinds is kept as it is, every other one is
  read as a line feed.
-/

namespace Deadwood.Yaml

/-! ## Characters -/

/-- Whether a character ends a line. -/
def isBreak (c : Char) : Bool :=
  c == '\n' || c == '\r' || c == '\u0085' || c == '\u2028' || c == '\u2029'

/-- Whether a character is a space or a tab. -/
def isBlank (c : Char) : Bool := c == ' ' || c == '\t'

/-- Whether a character is a blank or ends a line. -/
def isGap (c : Char) : Bool := isBlank c || isBreak c

/-- Whether nothing but blanks, line ends or the end of the text can stand here. -/
def isGapOrEnd : Option Char → Bool
  | none => true
  | some c => isGap c

/-- Whether a character can stand in the name of an anchor, a handle or a directive. -/
def isWordChar (c : Char) : Bool := c.isAlphanum || c == '_' || c == '-'

/-- Whether a character is admitted in a text at all. -/
def isAdmitted (c : Char) : Bool :=
  let n := c.toNat
  n == 0x9 || n == 0xA || n == 0xD || (0x20 ≤ n && n ≤ 0x7E) || n == 0x85 ||
    (0xA0 ≤ n && n ≤ 0xFFFD) || 0x10000 ≤ n

/-! ## Cursors -/

/-- A place in a text. -/
structure Cursor where
  rest : List Char
  index : Nat := 0
  line : Nat := 0
  column : Nat := 0
  deriving DecidableEq, Repr, Inhabited

namespace Cursor

/-- The character some places ahead. -/
def peek (c : Cursor) (n : Nat := 0) : Option Char := c.rest[n]?

/-- Go on along the line. -/
def skip (c : Cursor) (n : Nat := 1) : Cursor :=
  { c with rest := c.rest.drop n, index := c.index + n, column := c.column + n }

/-- Go on along the line to where `rest` is left. -/
def goTo (c : Cursor) (rest : List Char) : Cursor := c.skip (c.rest.length - rest.length)

/-- Pass over characters of a class along the line. -/
def skipWhile (c : Cursor) (p : Char → Bool) : Cursor := c.goTo (c.rest.dropWhile p)

/-- Take characters of a class along the line. -/
def takeWhile (c : Cursor) (p : Char → Bool) : List Char × Cursor :=
  (c.rest.takeWhile p, c.skipWhile p)

/-- The place behind a line end of some characters. -/
def nextLine (c : Cursor) (n : Nat) : Cursor :=
  { rest := c.rest.drop n, index := c.index + n, line := c.line + 1, column := 0 }

/-- Take a line end, as the character it is read as. -/
def takeBreak? (c : Cursor) : Option (Char × Cursor) :=
  match c.rest with
  | '\r' :: '\n' :: _ => some ('\n', c.nextLine 2)
  | b :: _ =>
      if b == '\u2028' || b == '\u2029' then some (b, c.nextLine 1)
      else if isBreak b then some ('\n', c.nextLine 1)
      else none
  | [] => none

/-- Pass over a line end, if there is one. -/
def skipBreak (c : Cursor) : Cursor := (c.takeBreak?.map (·.2)).getD c

/-- Whether a mark of three characters stands alone at the beginning of a line. -/
def atMark (c : Cursor) (mark : Char) : Bool :=
  c.column == 0 && c.rest.take 3 == [mark, mark, mark] && isGapOrEnd (c.peek 3)

/-- Whether a document starts or ends here. -/
def atDocumentMark (c : Cursor) : Bool := c.atMark '-' || c.atMark '.'

end Cursor

example : ({ rest := "\r\nx".toList } : Cursor).takeBreak? =
    some ('\n', { rest := ['x'], index := 2, line := 1 }) := by decide
example : ({ rest := "--- a".toList } : Cursor).atDocumentMark = true := by decide

end Deadwood.Yaml

/-
  The scalars of YAML: plain, quoted and block texts.

  1. **Folding** — inside a plain or quoted scalar a line end counts as a space and each further
     one as a line end.  `Gap` is what stands between two words and `Gap.text` is what it is read
     as.  A backslash in front of a line end takes the line end away.

  2. **Blocks** — a block keeps its lines, and a folded block joins lines that do not start with a
     blank.  What happens to the line ends behind the last line is for the header to say.

  Every reader follows the text forwards; `fuel` is the length of what is left to read.
-/
import Deadwood.Yaml.Cursor

namespace Deadwood.Yaml

/-- How a scalar is written. -/
inductive Style where
  | plain
  | quoted
  | literal
  | folded
  deriving DecidableEq, Repr, Inhabited

/-! ## Gaps -/

/-- What stands between two words of a scalar. -/
structure Gap where
  /-- The blanks in front of the first line end. -/
  spaces : List Char := []
  /-- The line ends. -/
  breaks : List Char := []
  /-- Whether a line end was passed. -/
  isBroken : Bool := false
  /-- Whether the first line end was taken away by a backslash. -/
  isJoined : Bool := false
  deriving DecidableEq, Repr, Inhabited

namespace Gap

/-- What a gap is read as. -/
def text (g : Gap) : List Char :=
  if !g.isBroken then g.spaces
  else if g.isJoined then g.breaks
  else match g.breaks with
    | ['\n'] => [' ']
    | '\n' :: further => further
    | breaks => breaks

/-- Read a gap.  A tab in front of column `floor` of a new line is refused. -/
def read (floor : Nat) : Nat → Gap → Cursor → Option (Gap × Cursor)
  | 0, g, c => some (g, c)
  | fuel + 1, g, c =>
      match c.takeBreak? with
      | some (b, next) =>
          read floor fuel { g with breaks := g.breaks ++ [b], isBroken := true } next
      | none =>
          match c.rest with
          | b :: _ =>
              if !isBlank b then some (g, c)
              else if g.isBroken then
                if b == '\t' && c.column < floor then none else read floor fuel g c.skip
              else read floor fuel { g with spaces := g.spaces ++ [b] } c.skip
          | [] => some (g, c)

end Gap

/-! ## Plain scalars -/

/-- Whether a character ends a plain scalar between brackets. -/
def isFlowMark (c : Char) : Bool := c == ',' || c == '[' || c == ']' || c == '\x7b' || c == '\x7d'

/-- A word of a plain scalar, and what is left behind it.  A colon in front of a gap ends it; so
does punctuation between brackets, where a colon in front of punctuation is refused. -/
def plainWord (inFlow : Bool) : List Char → Option (List Char × List Char)
  | [] => some ([], [])
  | c :: cs =>
      if isGap c then some ([], c :: cs)
      else if inFlow && c == ':' && cs.head?.any (fun d => isFlowMark d || d == '?') then none
      else if (c == ':' && isGapOrEnd cs.head?) || (inFlow && isFlowMark c) then some ([], c :: cs)
      else (plainWord inFlow cs).map fun (word, rest) => (c :: word, rest)

/-- The words of a plain scalar; the answer says whether it ends behind a line end. -/
def plainWords (inFlow : Bool) (floor : Nat) :
    Nat → List Char → Gap → Cursor → Option (List Char × Bool × Cursor)
  | 0, _, _, _ => none
  | fuel + 1, text, gap, c => do
      if c.atDocumentMark || c.peek == some '#' then return (text, gap.isBroken, c)
      let (word, rest) ← plainWord inFlow c.rest
      if word.isEmpty then return (text, gap.isBroken, c)
      let text := text ++ gap.text ++ word
      let c := c.goTo rest
      if !(c.peek.any isGap) then return (text, false, c)
      let (gap, c) ← Gap.read floor c.rest.length {} c
      if !inFlow && c.column < floor then return (text, gap.isBroken, c)
      plainWords inFlow floor fuel text gap c

/-- A plain scalar. -/
def readPlain (inFlow : Bool) (floor : Nat) (c : Cursor) : Option (List Char × Bool × Cursor) :=
  plainWords inFlow floor (c.rest.length + 1) [] {} c

/-! ## Quoted scalars -/

/-- A word between single quotes, and what is left behind it: a quote is written twice. -/
def singleWord : List Char → List Char × List Char
  | [] => ([], [])
  | '\'' :: '\'' :: cs => let (word, rest) := singleWord cs; ('\'' :: word, rest)
  | c :: cs =>
      if c == '\'' || isGap c then ([], c :: cs)
      else let (word, rest) := singleWord cs; (c :: word, rest)

/-- What the letter of a short escape stands for. -/
def escape? : Char → Option Char
  | '0' => some '\x00'
  | 'a' => some '\x07'
  | 'b' => some '\x08'
  | 't' | '\t' => some '\t'
  | 'n' => some '\n'
  | 'v' => some '\x0b'
  | 'f' => some '\x0c'
  | 'r' => some '\r'
  | 'e' => some '\x1b'
  | ' ' => some ' '
  | '"' => some '"'
  | '/' => some '/'
  | '\\' => some '\\'
  | 'N' => some '\u0085'
  | '_' => some '\u00a0'
  | 'L' => some '\u2028'
  | 'P' => some '\u2029'
  | _ => none

/-- The number of hexadecimal digits behind a letter. -/
def hexLength? : Char → Option Nat
  | 'x' => some 2
  | 'u' => some 4
  | 'U' => some 8
  | _ => none

/-- The value of a hexadecimal digit. -/
def hexDigit? (c : Char) : Option Nat :=
  if c.isDigit then some (c.toNat - '0'.toNat)
  else if 'a' ≤ c && c ≤ 'f' then some (c.toNat - 'a'.toNat + 10)
  else if 'A' ≤ c && c ≤ 'F' then some (c.toNat - 'A'.toNat + 10)
  else none

/-- The character with a number, if there is one. -/
def charOf? (n : Nat) : Option Char :=
  if (0xD800 ≤ n && n ≤ 0xDFFF) || 0x10FFFF < n then none else some (Char.ofNat n)

/-- The character written with some hexadecimal digits. -/
def hexChar? (digits : List Char) : Option Char := do
  let values ← digits.mapM hexDigit?
  charOf? (values.foldl (fun n d => 16 * n + d) 0)

/-- A word between double quotes, and what is left behind it.  It also ends in front of a backslash
that takes a line end away. -/
def doubleWord : Nat → List Char → Option (List Char × List Char)
  | 0, cs => some ([], cs)
  | _ + 1, [] => some ([], [])
  | fuel + 1, '\\' :: cs =>
      match cs with
      | [] => none
      | c :: rest =>
          if isBreak c then some ([], '\\' :: cs)
          else match hexLength? c with
            | some n =>
                if rest.length < n then none
                else do
                  let char ← hexChar? (rest.take n)
                  let (word, left) ← doubleWord fuel (rest.drop n)
                  return (char :: word, left)
            | none => do
                let char ← escape? c
                let (word, left) ← doubleWord fuel rest
                return (char :: word, left)
  | fuel + 1, c :: cs =>
      if c == '"' || isGap c then some ([], c :: cs)
      else (doubleWord fuel cs).map fun (word, rest) => (c :: word, rest)

/-- The words of a quoted scalar, up to its closing quote. -/
def quotedWords (quote : Char) : Nat → List Char → Cursor → Option (List Char × Cursor)
  | 0, _, _ => none
  | fuel + 1, text, c => do
      if c.atDocumentMark || c.rest.isEmpty then none
      let (word, rest) ←
        if quote == '\'' then some (singleWord c.rest) else doubleWord c.rest.length c.rest
      let text := text ++ word
      let c := c.goTo rest
      let isJoined := c.peek == some '\\'
      let c := if isJoined then c.skip.skipBreak else c
      if c.peek == some quote then return (text, c.skip)
      let (gap, c) ← Gap.read 0 c.rest.length { isBroken := isJoined, isJoined } c
      quotedWords quote fuel (text ++ gap.text) c

/-- A quoted scalar, from its opening quote. -/
def readQuoted (quote : Char) (c : Cursor) : Option (List Char × Cursor) :=
  quotedWords quote (c.rest.length + 1) [] c.skip

/-! ## Block scalars -/

/-- What happens to the line ends behind the last line of a block. -/
inductive Chomping where
  | strip
  | clip
  | keep
  deriving DecidableEq, Repr

/-- The sign that says what happens to the line ends. -/
def chomping? : Option Char → Option Chomping
  | some '+' => some .keep
  | some '-' => some .strip
  | _ => none

/-- A digit that says how far a block is indented. -/
def depth? (c : Option Char) : Option Nat := do
  let c ← c
  if c.isDigit then some (c.toNat - '0'.toNat) else none

/-- The end of a line that may hold a comment. -/
def lineEnd? (c : Cursor) : Option Cursor :=
  let c := c.skipWhile isBlank
  let c := if c.peek == some '#' then c.skipWhile (!isBreak ·) else c
  if c.rest.isEmpty || c.peek.any isBreak then some c.skipBreak else none

/-- The header of a block behind its mark: the sign and the digit, in either order. -/
def blockHeader (c : Cursor) : Option (Chomping × Option Nat × Cursor) := do
  let (chomping, depth, c) := match chomping? c.peek with
    | some ch =>
        match depth? (c.peek 1) with
        | some d => (ch, some d, c.skip 2)
        | none => (ch, none, c.skip)
    | none =>
        match depth? c.peek with
        | some d =>
            match chomping? (c.peek 1) with
            | some ch => (ch, some d, c.skip 2)
            | none => (.clip, some d, c.skip)
        | none => (.clip, none, c)
  if depth == some 0 then none
  return (chomping, depth, ← lineEnd? c)

/-- The empty lines in front of a line of a block.  Without a known indentation, the deepest of
them is answered too. -/
def blankLines (indent : Option Nat) :
    Nat → Nat → List Char → Cursor → Option (List Char × Nat × Cursor)
  | 0, deepest, breaks, c => some (breaks, deepest, c)
  | fuel + 1, deepest, breaks, c =>
      let spaces := (c.rest.takeWhile (· == ' ')).length
      let c := c.skip (match indent with
        | some n => min spaces (n - c.column)
        | none => spaces)
      let deepest := max deepest c.column
      if indent.all (c.column < ·) && c.peek == some '\t' then none
      else match c.takeBreak? with
        | some (b, c) => blankLines indent fuel deepest (breaks ++ [b]) c
        | none => some (breaks, deepest, c)

/-- The lines of a block.  `pending` is the end of the line before, and `empty` the line ends of
the empty lines behind it. -/
def blockLines (style : Style) (indent : Nat) :
    Nat → List Char → Option Char → List Char → Bool → Cursor →
    Option (List Char × Option Char × List Char × Cursor)
  | 0, _, _, _, _, _ => none
  | fuel + 1, text, pending, empty, afterBlank, c => do
      if c.column != indent || c.rest.isEmpty then return (text, pending, empty, c)
      let startsBlank := c.peek.any isBlank
      let joint : List Char :=
        if style == .folded && pending == some '\n' && !afterBlank && !startsBlank then
          (if empty.isEmpty then [' '] else [])
        else pending.toList
      let (line, c) := c.takeWhile (!isBreak ·)
      let text := text ++ joint ++ empty ++ line
      let (pending, c) := match c.takeBreak? with
        | some (b, c) => (some b, c)
        | none => (none, c)
      let (empty, _, c) ← blankLines (some indent) (c.rest.length + 1) 0 [] c
      blockLines style indent fuel text pending empty startsBlank c

/-- A block scalar, from its mark, inside a block that is indented to column `outer`. -/
def readBlock (style : Style) (outer : Int) (c : Cursor) : Option (List Char × Cursor) := do
  let (chomping, depth, c) ← blockHeader c.skip
  let known := depth.map fun d => (max outer 0).toNat + d
  let (empty, deepest, c) ← blankLines known (c.rest.length + 1) 0 [] c
  let indent := known.getD (max deepest (max (outer + 1) 1).toNat)
  let (text, pending, empty, c) ←
    blockLines style indent (c.rest.length + 2) [] none empty false c
  return (match chomping with
    | .strip => (text, c)
    | .clip => (text ++ pending.toList, c)
    | .keep => (text ++ pending.toList ++ empty, c))

example : (readQuoted '"' { rest := "\"a\\u00e9 \n b\" x".toList }).map (·.1) =
    some "aé b".toList := by decide +kernel
example : (readQuoted '\'' { rest := "'it''s'".toList }).map (·.1) = some "it's".toList := by
  decide +kernel
example : (readPlain false 1 { rest := "a b # c".toList }).map (·.1) = some "a b".toList := by
  decide +kernel
example : (readBlock .literal (-1) { rest := "|\n  a\n   b\n\nc".toList }).map (·.1) =
    some "a\n b\n".toList := by decide +kernel

end Deadwood.Yaml

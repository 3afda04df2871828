/-
  The tokens of YAML.

  1. **Layout** — the columns at which blocks start are turned into tokens that open and close
     them, so that the reader of nodes need not know about columns.

  2. **Keys** — a key is known by the colon behind it.  Wherever a key may start its place is
     noted; when the colon comes, on the same line and not too far away, the token that opens the
     key is put in front of what stands there.  In a block, what stands at the column of the block
     must become a key.

  3. **Program** — `Lexer.next` takes one token off the text, `tokens?` all of them.
-/
import Deadwood.Yaml.Scalar

namespace Deadwood.Yaml

/-- A token of YAML. -/
inductive Token where
  | versionDirective (major minor : Nat)
  | tagDirective (handle start : String)
  | documentStart
  | documentEnd
  | blockSequence
  | blockMapping
  /-- The end of a block, opened by one of the two before. -/
  | blockEnd
  | openBracket
  | closeBracket
  | openBrace
  | closeBrace
  /-- The dash in front of an entry. -/
  | entry
  | comma
  | key
  | value
  | alias (name : String)
  | anchor (name : String)
  | tag (handle suffix : String)
  | scalar (style : Style) (text : String)
  deriving DecidableEq, Repr, Inhabited

/-- A place where a key may start. -/
structure PossibleKey where
  /-- Whether it must become a key. -/
  isRequired : Bool
  /-- How many tokens stand in front of it. -/
  position : Nat
  index : Nat
  line : Nat
  column : Nat
  deriving DecidableEq, Repr

/-- The greatest number of characters in a key without a mark of its own. -/
def maxKeySize : Nat := 1024

/-- What has been read, and where the reader stands. -/
structure Lexer where
  cursor : Cursor
  tokens : Array Token := #[]
  /-- The column of the innermost block. -/
  indent : Int := -1
  /-- The columns of the blocks around it, the innermost first. -/
  outer : List Int := []
  /-- Whether a key may start here. -/
  keyAllowed : Bool := true
  /-- The possible key of each level of brackets, the innermost first. -/
  keys : List (Option PossibleKey) := [none]

namespace Lexer

/-- Whether the reader stands between brackets. -/
def inFlow (l : Lexer) : Bool := 1 < l.keys.length

/-- Write a token. -/
def push (l : Lexer) (t : Token) : Lexer := { l with tokens := l.tokens.push t }

/-- Write a token in front of others. -/
def insertAt (l : Lexer) (position : Nat) (t : Token) : Lexer :=
  { l with tokens := l.tokens.extract 0 position ++ #[t] ++
                     l.tokens.extract position l.tokens.size }

/-- Set the possible key of the innermost level. -/
def setKey (l : Lexer) (k : Option PossibleKey) : Lexer := { l with keys := k :: l.keys.tail }

/-- Give up the possible key, unless it must become one. -/
def dropKey (l : Lexer) : Option Lexer :=
  match l.keys.head?.join with
  | some k => if k.isRequired then none else some (l.setKey none)
  | none => some (l.setKey none)

/-- Note that a key may start here. -/
def noteKey (l : Lexer) : Option Lexer :=
  if !l.keyAllowed then some l
  else do
    let c := l.cursor
    let dropped ← l.dropKey
    return dropped.setKey (some {
      isRequired := !l.inFlow && l.indent == c.column
      position := l.tokens.size
      index := c.index, line := c.line, column := c.column })

/-- Open a block at a column, unless one is open there. -/
def openBlock (l : Lexer) (column position : Nat) (t : Token) : Lexer :=
  if !l.inFlow && l.indent < column then
    { l.insertAt position t with indent := column, outer := l.indent :: l.outer }
  else l

/-- Close the blocks that are deeper than a column. -/
def closeBlocks (l : Lexer) (column : Int) : Lexer :=
  if l.inFlow then l
  else go l.outer l
where
  /-- Close one block after the other. -/
  go : List Int → Lexer → Lexer
    | [], l => l
    | around :: further, l =>
        if column < l.indent then
          go further { l.push .blockEnd with indent := around, outer := further }
        else l

/-- Pass over blanks, comments and line ends.  A tab is no indentation. -/
def skipGap : Nat → Lexer → Lexer
  | 0, l => l
  | fuel + 1, l =>
      let c := l.cursor.skipWhile fun b => b == ' ' || (b == '\t' && (l.inFlow || !l.keyAllowed))
      let c := if c.peek == some '#' then c.skipWhile (!isBreak ·) else c
      match c.takeBreak? with
      | some (_, c) =>
          skipGap fuel { l with cursor := c, keyAllowed := l.keyAllowed || !l.inFlow }
      | none => { l with cursor := c }

/-! ## Directives, anchors and tags -/

/-- A number of a version. -/
def versionNumber? (c : Cursor) : Option (Nat × Cursor) :=
  let (digits, c) := c.takeWhile Char.isDigit
  if digits.isEmpty || 9 < digits.length then none
  else some (digits.foldl (fun n d => 10 * n + (d.toNat - '0'.toNat)) 0, c)

/-- A handle of a tag: an exclamation mark, or a word between two of them. -/
def handle? (inDirective : Bool) (c : Cursor) : Option (String × Cursor) :=
  if c.peek != some '!' then none
  else
    let (word, c) := c.skip.takeWhile isWordChar
    if c.peek == some '!' then some (String.ofList ('!' :: word ++ ['!']), c.skip)
    else if inDirective && !word.isEmpty then none
    else some (String.ofList ('!' :: word), c)

/-- Whether a character can stand in the rest of a tag. -/
def isTagChar (withFlowMarks : Bool) (c : Char) : Bool :=
  isWordChar c || ";/?:@&=+$.%!~*'()".toList.contains c ||
    (withFlowMarks && (c == ',' || c == '[' || c == ']'))

/-- Whether every percent sign is followed by two hexadecimal digits. -/
def hasGoodEscapes : List Char → Bool
  | [] => true
  | '%' :: a :: b :: cs => (hexDigit? a).isSome && (hexDigit? b).isSome && hasGoodEscapes cs
  | '%' :: _ => false
  | _ :: cs => hasGoodEscapes cs

/-- The rest of a tag. -/
def tagRest? (withFlowMarks : Bool) (c : Cursor) : Option (String × Cursor) :=
  let (cs, c) := c.takeWhile (isTagChar withFlowMarks)
  if hasGoodEscapes cs then some (String.ofList cs, c) else none

/-- A rest of a tag that is not empty. -/
def tagRest1? (withFlowMarks : Bool) (c : Cursor) : Option (String × Cursor) := do
  let (text, c) ← tagRest? withFlowMarks c
  if text.isEmpty then none else return (text, c)

/-- The version that a directive gives. -/
def version? (c : Cursor) : Option (Token × Cursor) := do
  let (major, c) ← versionNumber? c
  if c.peek != some '.' then none
  let (minor, c) ← versionNumber? c.skip
  return (.versionDirective major minor, c)

/-- The handle that a directive declares, and what it stands for. -/
def declaredHandle? (c : Cursor) : Option (Token × Cursor) := do
  let (handle, c) ← handle? true c
  if !c.peek.any isBlank then none
  let (start, c) ← tagRest1? true (c.skipWhile isBlank)
  if !isGapOrEnd c.peek then none
  return (.tagDirective handle start, c)

/-- A directive, from its percent sign to the end of its line. -/
def directive? (c : Cursor) : Option (Token × Cursor) := do
  let (name, c) := c.skip.takeWhile isWordChar
  if !isGapOrEnd c.peek then none
  let c := c.skipWhile isBlank
  let (token, c) ←
    if name = "YAML".toList then version? c
    else if name = "TAG".toList then declaredHandle? c
    else none
  return (token, ← lineEnd? c)

/-- The name of an anchor, behind its mark. -/
def anchorName? (c : Cursor) : Option (String × Cursor) :=
  let (name, c) := c.takeWhile isWordChar
  if name.isEmpty then none
  else if isGapOrEnd c.peek || c.peek.any (fun d => "?:,]\x7d%@`".toList.contains d) then
    some (String.ofList name, c)
  else none

/-- A tag that is written in full, between angles. -/
def fullTag? (c : Cursor) : Option (Token × Cursor) := do
  let (suffix, c) ← tagRest1? true (c.skip 2)
  if c.peek != some '>' then none
  return (.tag "" suffix, c.skip)

/-- A tag with a handle; the exclamation mark alone is one too. -/
def shortTag? (c : Cursor) : Option (Token × Cursor) := do
  let (handle, behind) ← handle? false c
  if 1 < handle.length && handle.toList.getLast? == some '!' then
    let (suffix, c) ← tagRest1? false behind
    return (.tag handle suffix, c)
  let (suffix, c) ← tagRest? false c.skip
  return (if suffix.isEmpty then .tag "" "!" else .tag "!" suffix, c)

/-- A tag, from its exclamation mark. -/
def tag? (inFlow : Bool) (c : Cursor) : Option (Token × Cursor) := do
  let (token, c) ← if c.peek 1 == some '<' then fullTag? c else shortTag? c
  if !isGapOrEnd c.peek && !(inFlow && c.peek == some ',') then none
  return (token, c)

/-! ## Tokens -/

/-- Write a token of one character. -/
def mark (l : Lexer) (keyAllowed : Bool) (t : Token) : Lexer :=
  { l.push t with cursor := l.cursor.skip, keyAllowed }

/-- Write a mark between documents. -/
def documentMark (l : Lexer) (t : Token) : Option Lexer := do
  let l ← (l.closeBlocks (-1)).dropKey
  return { l.push t with cursor := l.cursor.skip 3, keyAllowed := false }

/-- Open brackets. -/
def openFlow (l : Lexer) (t : Token) : Option Lexer := do
  let l ← l.noteKey
  return { l with keys := none :: l.keys }.mark true t

/-- Close brackets. -/
def closeFlow (l : Lexer) (t : Token) : Option Lexer := do
  let l ← l.dropKey
  return { l with keys := if l.inFlow then l.keys.tail else l.keys }.mark false t

/-- The dash in front of an entry of a block. -/
def entryMark (l : Lexer) : Option Lexer := do
  if !l.inFlow && !l.keyAllowed then none
  let l := l.openBlock l.cursor.column l.tokens.size .blockSequence
  return (← l.dropKey).mark true .entry

/-- The mark in front of a key. -/
def keyMark (l : Lexer) : Option Lexer := do
  if !l.inFlow && !l.keyAllowed then none
  let l := l.openBlock l.cursor.column l.tokens.size .blockMapping
  return (← l.dropKey).mark (!l.inFlow) .key

/-- Whether a possible key can still become one. -/
def isFresh (l : Lexer) (k : PossibleKey) : Bool :=
  k.line == l.cursor.line && l.cursor.index ≤ k.index + maxKeySize

/-- A colon without a possible key in front of it. -/
def lateValueMark (l : Lexer) : Option Lexer := do
  if !l.inFlow && !l.keyAllowed then none
  let l := (l.setKey none).openBlock l.cursor.column l.tokens.size .blockMapping
  return l.mark (!l.inFlow) .value

/-- The colon behind a key.  Behind a possible key it makes that one a key; in a block it may else
only stand where a key may. -/
def valueMark (l : Lexer) : Option Lexer :=
  match l.keys.head?.join with
  | some k =>
      if l.isFresh k then
        let l := (l.insertAt k.position .key).openBlock k.column k.position .blockMapping
        some ((l.setKey none).mark false .value)
      else if k.isRequired then none
      else l.lateValueMark
  | none => l.lateValueMark

/-- Write a token that stands for a node or belongs to one. -/
def nodeToken (l : Lexer) (read : Cursor → Option (Token × Cursor)) : Option Lexer := do
  let noted ← l.noteKey
  let (t, c) ← read l.cursor
  return { noted.push t with cursor := c, keyAllowed := false }

/-- Write a quoted scalar. -/
def quoted (l : Lexer) (quote : Char) : Option Lexer :=
  l.nodeToken fun c => do
    let (text, c) ← readQuoted quote c
    return (.scalar .quoted (String.ofList text), c)

/-- Write a block scalar. -/
def block (l : Lexer) (style : Style) : Option Lexer := do
  let l ← l.dropKey
  let (text, c) ← readBlock style l.indent l.cursor
  return { l.push (.scalar style (String.ofList text)) with cursor := c, keyAllowed := true }

/-- Write a plain scalar. -/
def plain (l : Lexer) : Option Lexer := do
  let noted ← l.noteKey
  let (text, isBroken, c) ← readPlain l.inFlow (l.indent + 1).toNat l.cursor
  let written := noted.push (.scalar .plain (String.ofList text))
  return { written with cursor := c, keyAllowed := isBroken }

/-- Whether a plain scalar can start with a character, in front of another. -/
def startsPlain (inFlow : Bool) (c : Char) (next : Option Char) : Bool :=
  if c == '-' then !next.any isBlank
  else if c == '?' || c == ':' then !inFlow && !isGapOrEnd next
  else !isGap c && !",[]\x7b\x7d#&*!|>'\"%@`".toList.contains c

/-- Take one token off the text. -/
def next (l : Lexer) : Option Lexer := do
  let c := l.cursor
  let ahead := isGapOrEnd (c.peek 1)
  if c.column == 0 && c.peek == some '%' then
    let l ← (l.closeBlocks (-1)).dropKey
    let (t, c) ← directive? c
    return { l.push t with cursor := c, keyAllowed := false }
  if c.atMark '-' then return ← l.documentMark .documentStart
  if c.atMark '.' then return ← l.documentMark .documentEnd
  match c.peek with
  | some '[' => l.openFlow .openBracket
  | some '\x7b' => l.openFlow .openBrace
  | some ']' => l.closeFlow .closeBracket
  | some '\x7d' => l.closeFlow .closeBrace
  | some ',' => return (← l.dropKey).mark true .comma
  | some '*' => l.nodeToken fun c => (anchorName? c.skip).map fun (n, c) => (.alias n, c)
  | some '&' => l.nodeToken fun c => (anchorName? c.skip).map fun (n, c) => (.anchor n, c)
  | some '!' => l.nodeToken (tag? l.inFlow)
  | some '\'' => l.quoted '\''
  | some '"' => l.quoted '"'
  | some d =>
      if d == '-' && ahead then l.entryMark
      else if d == '?' && (l.inFlow || ahead) then l.keyMark
      else if d == ':' && (l.inFlow || ahead) then l.valueMark
      else if d == '|' && !l.inFlow then l.block .literal
      else if d == '>' && !l.inFlow then l.block .folded
      else if startsPlain l.inFlow d (c.peek 1) then l.plain
      else none
  | none => none

/-- Take all tokens off the text. -/
def run : Nat → Lexer → Option (List Token)
  | 0, _ => none
  | fuel + 1, l =>
      let l := skipGap (l.cursor.rest.length + 1) l
      let l := l.closeBlocks l.cursor.column
      if l.cursor.rest.isEmpty then (l.closeBlocks (-1)).dropKey.map (·.tokens.toList)
      else match l.next with
        | some l => run fuel l
        | none => none

end Lexer

/-- The tokens of a text; a mark of the byte order in front of it does not count. -/
def tokens? (text : String) : Option (List Token) :=
  let cs := text.toList.dropWhile (· == '\ufeff')
  if cs.all isAdmitted then Lexer.run (cs.length + 1) { cursor := { rest := cs } } else none

example : tokens? "a: [x]\n" = some [.blockMapping, .key, .scalar .plain "a", .value,
    .openBracket, .scalar .plain "x", .closeBracket, .blockEnd] := by decide +kernel
example : tokens? "k:\n- b\n" = some [.blockMapping, .key, .scalar .plain "k", .value,
    .entry, .scalar .plain "b", .blockEnd] := by decide +kernel
example : tokens? "- **/x" = none := by decide +kernel
example : tokens? "a: 1\nb\nc: 2" = none := by decide +kernel

end Deadwood.Yaml

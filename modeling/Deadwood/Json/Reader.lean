/-
  Reading JSON text.

  1. **Tokens** — `Scan` is where the reader of characters stands between two characters: between
     tokens, inside a string, inside an escape, or inside a word (a number or a literal).  `lex`
     lets it run over the text.

  2. **Values** — `Machine` is where the reader of tokens stands: what may come next, and the
     arrays and objects that are still open.  `parse?` lets it run over the tokens.

  Both are runs of a step function along a list, so both end with the list.  The text of a
  document nests at most `maxDepth` arrays and objects.
-/
import Deadwood.Json.Basic

namespace Deadwood.Json

/-- A token of JSON text. -/
inductive Token where
  | openBrace
  | closeBrace
  | openBracket
  | closeBracket
  | colon
  | comma
  | text (s : String)
  /-- A number, `true`, `false` or `null`. -/
  | scalar (value : Json)
  deriving Inhabited

/-! ## Words -/

/-- Digits, one or more, and nothing else. -/
def isDigits (cs : List Char) : Bool := !cs.isEmpty && cs.all Char.isDigit

/-- The exponent of a number: a sign, which may be missing, and digits. -/
def isExponent : List Char → Bool
  | '+' :: cs => isDigits cs
  | '-' :: cs => isDigits cs
  | cs => isDigits cs

/-- What follows the integer part of a number: a fraction and an exponent, which may be missing. -/
def isNumberTail (cs : List Char) : Bool :=
  match cs with
  | [] => true
  | '.' :: rest =>
      let digits := rest.takeWhile Char.isDigit
      !digits.isEmpty && match rest.dropWhile Char.isDigit with
        | [] => true
        | e :: more => (e == 'e' || e == 'E') && isExponent more
  | e :: more => (e == 'e' || e == 'E') && isExponent more

/-- The value of a list of decimal digits. -/
def digitsValue (cs : List Char) : Nat := cs.foldl (fun n c => 10 * n + (c.toNat - '0'.toNat)) 0

/-- A number.  A leading zero stands alone; a negative zero is no integer. -/
def number? (word : List Char) : Option Json :=
  let negative := word.head? == some '-'
  let body := if negative then word.tail else word
  let digits := body.takeWhile Char.isDigit
  let tail := body.dropWhile Char.isDigit
  if digits.isEmpty || (digits.head? == some '0' && digits.length > 1) then none
  else if tail.isEmpty && !(negative && digitsValue digits == 0) then
    some (.int (if negative then -(digitsValue digits : Int) else digitsValue digits))
  else if isNumberTail tail then some (.decimal (String.ofList word))
  else none

/-- A literal or a number. -/
def wordValue? (word : List Char) : Option Json :=
  if word = "true".toList then some (.bool true)
  else if word = "false".toList then some (.bool false)
  else if word = "null".toList then some .null
  else number? word

/-! ## From characters to tokens -/

/-- Where the reader of characters stands.  Texts under way are held back to front. -/
inductive Scan where
  | between
  | inText (back : List Char)
  /-- Behind a backslash. -/
  | inEscape (back : List Char)
  /-- Among the hexadecimal digits of an escape; `high` is the first half of a pair. -/
  | inHex (back : List Char) (high : Option Nat) (count value : Nat)
  /-- Behind the first half of a pair: a backslash must follow. -/
  | beforeLow (back : List Char) (high : Nat)
  /-- Behind that backslash: the letter `u` must follow. -/
  | inLow (back : List Char) (high : Nat)
  | inWord (back : List Char)

/-- The value of a hexadecimal digit. -/
def hexValue? (c : Char) : Option Nat :=
  if c.isDigit then some (c.toNat - '0'.toNat)
  else if 'a' ≤ c && c ≤ 'f' then some (c.toNat - 'a'.toNat + 10)
  else if 'A' ≤ c && c ≤ 'F' then some (c.toNat - 'A'.toNat + 10)
  else none

/-- What the letter of a short escape stands for. -/
def shortEscape? : Char → Option Char
  | '"' => some '"'
  | '\\' => some '\\'
  | '/' => some '/'
  | 'b' => some '\x08'
  | 'f' => some '\x0c'
  | 'n' => some '\n'
  | 'r' => some '\r'
  | 't' => some '\t'
  | _ => none

/-- The state behind a complete escape of four digits. -/
def afterHex (back : List Char) (high : Option Nat) (value : Nat) : Option Scan :=
  match high with
  | none =>
      if 0xD800 ≤ value && value ≤ 0xDBFF then some (.beforeLow back value)
      else if 0xDC00 ≤ value && value ≤ 0xDFFF then none
      else some (.inText (Char.ofNat value :: back))
  | some h =>
      if 0xDC00 ≤ value && value ≤ 0xDFFF then
        some (.inText (Char.ofNat (0x10000 + (h - 0xD800) * 0x400 + (value - 0xDC00)) :: back))
      else none

/-- Whether a character is a blank of JSON. -/
def isSpace (c : Char) : Bool := c == ' ' || c == '\n' || c == '\t' || c == '\r'

/-- Whether a character can stand in a word. -/
def isWordChar (c : Char) : Bool := c.isAlphanum || c == '-' || c == '+' || c == '.'

/-- A character between tokens. -/
def scanBetween (c : Char) : Option (Scan × List Token) :=
  if isSpace c then some (.between, [])
  else if c == '"' then some (.inText [], [])
  else if isWordChar c then some (.inWord [c], [])
  else match c with
    | '\x7b' => some (.between, [.openBrace])
    | '\x7d' => some (.between, [.closeBrace])
    | '[' => some (.between, [.openBracket])
    | ']' => some (.between, [.closeBracket])
    | ':' => some (.between, [.colon])
    | ',' => some (.between, [.comma])
    | _ => none

/-- The state behind one more character, and the tokens that it completes. -/
def scan (state : Scan) (c : Char) : Option (Scan × List Token) :=
  match state with
  | .between => scanBetween c
  | .inText back =>
      if c == '"' then some (.between, [.text (String.ofList back.reverse)])
      else if c == '\\' then some (.inEscape back, [])
      else if c.toNat < 0x20 then none
      else some (.inText (c :: back), [])
  | .inEscape back =>
      if c == 'u' then some (.inHex back none 0 0, [])
      else (shortEscape? c).map fun e => (.inText (e :: back), [])
  | .inHex back high count value => do
      let digit ← hexValue? c
      let value := 16 * value + digit
      if count == 3 then return (← afterHex back high value, [])
      else return (.inHex back high (count + 1) value, [])
  | .beforeLow back high => if c == '\\' then some (.inLow back high, []) else none
  | .inLow back high => if c == 'u' then some (.inHex back (some high) 0 0, []) else none
  | .inWord back =>
      if isWordChar c then some (.inWord (c :: back), [])
      else do
        let value ← wordValue? back.reverse
        let (next, tokens) ← scanBetween c
        return (next, .scalar value :: tokens)

/-- The tokens of a text, from a state on; `back` holds the tokens before it, back to front. -/
def lexFrom (state : Scan) (back : List Token) : List Char → Option (List Token)
  | [] =>
      match state with
      | .between => some back.reverse
      | .inWord word => (wordValue? word.reverse).map fun value => (.scalar value :: back).reverse
      | _ => none
  | c :: cs =>
      match scan state c with
      | some (next, tokens) => lexFrom next (tokens.reverse ++ back) cs
      | none => none

/-- The tokens of a text. -/
def lex (text : String) : Option (List Token) := lexFrom .between [] text.toList

/-! ## From tokens to values -/

/-- An array or object that is still open, with what it holds so far, back to front. -/
inductive Frame where
  | array (back : List Json)
  /-- `key` waits for its value. -/
  | object (back : List (String × Json)) (key : String)

/-- What may come next. -/
inductive Expect where
  | value
  /-- Behind an opening bracket. -/
  | valueOrEnd
  /-- Behind an opening brace, inside the frames of the stack. -/
  | keyOrEnd
  /-- Behind a comma in an object that holds these fields so far. -/
  | key (back : List (String × Json))
  | colon (back : List (String × Json)) (key : String)
  /-- Behind a value in an array or object. -/
  | separator
  | nothing (result : Json)

/-- Where the reader of tokens stands. -/
structure Machine where
  expect : Expect
  stack : List Frame

/-- The greatest number of arrays and objects that may be open at a time. -/
def maxDepth : Nat := 127

/-- The state behind a complete value. -/
def complete (value : Json) : List Frame → Machine
  | [] => ⟨.nothing value, []⟩
  | .array back :: outer => ⟨.separator, .array (value :: back) :: outer⟩
  | .object back key :: outer => ⟨.separator, .object ((key, value) :: back) key :: outer⟩

/-- A value begins. -/
def beginValue (stack : List Frame) (token : Token) : Option Machine :=
  match token with
  | .text s => some (complete (.str s) stack)
  | .scalar v => some (complete v stack)
  | .openBracket =>
      if stack.length < maxDepth then some ⟨.valueOrEnd, .array [] :: stack⟩ else none
  | .openBrace => if stack.length < maxDepth then some ⟨.keyOrEnd, stack⟩ else none
  | _ => none

/-- The state behind one more token. -/
def step (m : Machine) (token : Token) : Option Machine :=
  match m.expect, token, m.stack with
  | .value, token, stack => beginValue stack token
  | .valueOrEnd, .closeBracket, .array back :: outer =>
      some (complete (.arr back.reverse) outer)
  | .valueOrEnd, token, stack => beginValue stack token
  | .keyOrEnd, .closeBrace, stack => some (complete (.obj []) stack)
  | .keyOrEnd, .text key, stack => some ⟨.colon [] key, stack⟩
  | .key back, .text key, stack => some ⟨.colon back key, stack⟩
  | .colon back key, .colon, stack => some ⟨.value, .object back key :: stack⟩
  | .separator, .comma, .array back :: outer => some ⟨.value, .array back :: outer⟩
  | .separator, .comma, .object back _ :: outer => some ⟨.key back, outer⟩
  | .separator, .closeBracket, .array back :: outer => some (complete (.arr back.reverse) outer)
  | .separator, .closeBrace, .object back _ :: outer => some (complete (.obj back.reverse) outer)
  | _, _, _ => none

/-- The value that a list of tokens completes, from a state on. -/
def build (m : Machine) : List Token → Option Json
  | [] =>
      match m.expect with
      | .nothing result => some result
      | _ => none
  | token :: rest =>
      match step m token with
      | some next => build next rest
      | none => none

/-- The value of a JSON text. -/
def parse? (text : String) : Option Json := (lex text).bind (build ⟨.value, []⟩)

end Deadwood.Json

/-
  Writing JSON text, on one line or laid out with two blanks for each level.

  Texts are written as they are; only the quotation mark, the backslash and the control characters
  below the blank are escaped, by a letter where there is one and by four digits otherwise.
-/
import Deadwood.Json.Basic

namespace Deadwood.Json

/-- A digit of base sixteen. -/
def hexDigit (n : Nat) : Char :=
  if n < 10 then Char.ofNat ('0'.toNat + n) else Char.ofNat ('a'.toNat + n - 10)

/-- A character inside quotation marks. -/
def escapeChar (c : Char) : List Char :=
  match c with
  | '"' => ['\\', '"']
  | '\\' => ['\\', '\\']
  | '\x08' => ['\\', 'b']
  | '\x0c' => ['\\', 'f']
  | '\n' => ['\\', 'n']
  | '\r' => ['\\', 'r']
  | '\t' => ['\\', 't']
  | c =>
      if c.toNat < 0x20 then ['\\', 'u', '0', '0', hexDigit (c.toNat / 16), hexDigit (c.toNat % 16)]
      else [c]

/-- A text in quotation marks. -/
def quote (s : String) : String :=
  String.ofList ('"' :: (s.toList.flatMap escapeChar ++ ['"']))

/-- A value without parts. -/
def scalarText : Json → String
  | .null => "null"
  | .bool true => "true"
  | .bool false => "false"
  | .int n => toString n
  | .decimal t => t
  | .str s => quote s
  | .arr _ => "[]"
  | .obj _ => "\x7b\x7d"

mutual

/-- A value on one line. -/
def compact : Json → String
  | .arr items => "[" ++ String.intercalate "," (compactItems items) ++ "]"
  | .obj fields => "\x7b" ++ String.intercalate "," (compactFields fields) ++ "\x7d"
  | j => scalarText j

/-- The items of an array, each on one line. -/
def compactItems : List Json → List String
  | [] => []
  | j :: js => compact j :: compactItems js

/-- The fields of an object, each on one line. -/
def compactFields : List (String × Json) → List String
  | [] => []
  | (name, j) :: fs => (quote name ++ ":" ++ compact j) :: compactFields fs

end

/-- The blanks in front of a line of a level. -/
def margin (level : Nat) : String := String.ofList (List.replicate (2 * level) ' ')

/-- The parts of an array or object, one on a line, between two marks. -/
def block (opening closing : String) (level : Nat) (parts : List String) : String :=
  if parts.isEmpty then opening ++ closing
  else opening ++ "\n" ++ String.intercalate ",\n" (parts.map (margin (level + 1) ++ ·)) ++
    "\n" ++ margin level ++ closing

mutual

/-- A value laid out on several lines, at a level. -/
def prettyAt (level : Nat) : Json → String
  | .arr items => block "[" "]" level (prettyItems (level + 1) items)
  | .obj fields => block "\x7b" "\x7d" level (prettyFields (level + 1) fields)
  | j => scalarText j

/-- The items of an array, laid out. -/
def prettyItems (level : Nat) : List Json → List String
  | [] => []
  | j :: js => prettyAt level j :: prettyItems level js

/-- The fields of an object, laid out. -/
def prettyFields (level : Nat) : List (String × Json) → List String
  | [] => []
  | (name, j) :: fs => (quote name ++ ": " ++ prettyAt level j) :: prettyFields level fs

end

/-- A value laid out on several lines. -/
def pretty (j : Json) : String := prettyAt 0 j

example : quote "a\"b\n" = "\"a\\\"b\\n\"" := by decide

end Deadwood.Json

/-
  The values of TOML, and how scalars are written.

  Numbers and dates are checked for their form and kept as they are written, because no setting
  has a use for them.  Each reader takes a value off the front of a text and answers what is left.
-/

namespace Deadwood.Toml

/-- A value. -/
inductive Value where
  | text (s : String)
  | flag (b : Bool)
  | number (written : String)
  /-- A date, a time, or both. -/
  | moment (written : String)
  | array (items : List Value)
  | table (entries : List (String × Value))
  deriving Inhabited

/-- A reader of something off the front of a text. -/
abbrev Reader (α : Type) := List Char → Option (α × List Char)

/-! ## Texts -/

/-- Whether a character may stand in a comment or a text: all but control characters. -/
def isAdmitted (c : Char) : Bool := c == '\t' || (' ' ≤ c && c ≠ '\x7f')

/-- Whether a character is a space or a tab. -/
def isBlank (c : Char) : Bool := c == ' ' || c == '\t'

/-- What is left behind a line end. -/
def newline? : List Char → Option (List Char)
  | '\n' :: cs => some cs
  | '\r' :: '\n' :: cs => some cs
  | _ => none

/-- The value of a hexadecimal digit. -/
def hexDigit? (c : Char) : Option Nat :=
  if c.isDigit then some (c.toNat - '0'.toNat)
  else if 'a' ≤ c && c ≤ 'f' then some (c.toNat - 'a'.toNat + 10)
  else if 'A' ≤ c && c ≤ 'F' then some (c.toNat - 'A'.toNat + 10)
  else none

/-- The character written with some hexadecimal digits. -/
def hexChar? (count : Nat) : Reader Char := fun cs => do
  if cs.length < count then none
  let digits ← (cs.take count).mapM hexDigit?
  let n := digits.foldl (fun n d => 16 * n + d) 0
  if (0xD800 ≤ n && n ≤ 0xDFFF) || 0x10FFFF < n then none
  return (Char.ofNat n, cs.drop count)

/-- The character that an escape stands for, behind the backslash. -/
def escape? : Reader Char
  | 'b' :: cs => some ('\x08', cs)
  | 't' :: cs => some ('\t', cs)
  | 'n' :: cs => some ('\n', cs)
  | 'f' :: cs => some ('\x0c', cs)
  | 'r' :: cs => some ('\r', cs)
  | '"' :: cs => some ('"', cs)
  | '\\' :: cs => some ('\\', cs)
  | 'u' :: cs => hexChar? 4 cs
  | 'U' :: cs => hexChar? 8 cs
  | _ => none

/-- The rest of a text on one line, behind its opening quote.  Only texts in double quotes have
escapes. -/
def lineText (quote : Char) : Nat → Reader (List Char)
  | 0, _ => none
  | _ + 1, [] => none
  | fuel + 1, c :: cs =>
      if c == quote then some ([], cs)
      else if c == '\\' && quote == '"' then do
        let (d, rest) ← escape? cs
        let (text, rest) ← lineText quote fuel rest
        return (d :: text, rest)
      else if isAdmitted c then (lineText quote fuel cs).map fun (text, rest) => (c :: text, rest)
      else none

/-- Pass over blanks and line ends. -/
def skipBlankLines : Nat → List Char → List Char
  | 0, cs => cs
  | fuel + 1, cs =>
      match newline? cs with
      | some rest => skipBlankLines fuel rest
      | none =>
          match cs with
          | c :: rest => if isBlank c then skipBlankLines fuel rest else cs
          | [] => []

/-- The rest of a text of several lines, behind its opening quotes.  Up to two quotes may stand in
front of the closing three; a backslash at the end of a line takes it away with all blanks and line
ends behind it. -/
def blockText (quote : Char) : Nat → Reader (List Char)
  | 0, _ => none
  | _ + 1, [] => none
  | fuel + 1, c :: cs =>
      let all := c :: cs
      let quotes := (all.takeWhile (· == quote)).length
      if 3 ≤ quotes then
        let kept := min (quotes - 3) 2
        some (List.replicate kept quote, all.drop (kept + 3))
      else if c == '\\' && quote == '"' then
        match newline? (cs.dropWhile isBlank) with
        | some rest => blockText quote fuel (skipBlankLines rest.length rest)
        | none => do
            let (d, rest) ← escape? cs
            let (text, rest) ← blockText quote fuel rest
            return (d :: text, rest)
      else match newline? all with
        | some rest => (blockText quote fuel rest).map fun (text, rest) => ('\n' :: text, rest)
        | none =>
            if isAdmitted c then
              (blockText quote fuel cs).map fun (text, rest) => (c :: text, rest)
            else none

/-- A text on one line, from its quote. -/
def quotedLine? : Reader String
  | [] => none
  | quote :: cs =>
      if quote == '"' || quote == '\'' then
        (lineText quote (cs.length + 1) cs).map fun (text, rest) => (String.ofList text, rest)
      else none

/-- A text.  A line end right behind three opening quotes does not count. -/
def text? (cs : List Char) : Option (String × List Char) :=
  match cs with
  | a :: b :: c :: rest =>
      if (a == '"' || a == '\'') && b == a && c == a then
        let rest := (newline? rest).getD rest
        (blockText a (rest.length + 1) rest).map fun (text, rest) => (String.ofList text, rest)
      else quotedLine? cs
  | _ => quotedLine? cs

/-! ## Numbers -/

/-- Digits, with single underscores between them. -/
def digits (isDigit : Char → Bool) : List Char → List Char × List Char
  | [] => ([], [])
  | [c] => if isDigit c then ([c], []) else ([], [c])
  | c :: d :: cs =>
      if !isDigit c then ([], c :: d :: cs)
      else if d == '_' && cs.head?.any isDigit then
        let (more, rest) := digits isDigit cs
        (c :: more, rest)
      else
        let (more, rest) := digits isDigit (d :: cs)
        (c :: more, rest)

/-- The value of digits in a base. -/
def digitsValue (base : Nat) (ds : List Char) : Nat :=
  ds.foldl (fun n d => base * n + (hexDigit? d).getD 0) 0

/-- The greatest integer. -/
def maxInteger : Nat := 9223372036854775807

/-- An integer in another base than ten, behind its mark. -/
def basedInteger? (base : Nat) : Reader Value := fun cs =>
  let (ds, rest) := digits (fun c => (hexDigit? c).any (· < base)) cs
  if ds.isEmpty || maxInteger < digitsValue base ds then none
  else some (.number (String.ofList ds), rest)

/-- The digits of an integer in base ten: a leading zero stands alone. -/
def integerDigits? : Reader (List Char)
  | '0' :: cs => some (['0'], cs)
  | cs =>
      let (ds, rest) := digits Char.isDigit cs
      if ds.isEmpty then none else some (ds, rest)

/-- The digits of a fraction, from its point; none when there is no point. -/
def fraction? : Reader (List Char)
  | '.' :: cs =>
      let (ds, rest) := digits Char.isDigit cs
      if ds.isEmpty then none else some (ds, rest)
  | cs => some ([], cs)

/-- An exponent, from its letter; none when there is no letter. -/
def exponent? : Reader (Option Int)
  | c :: cs =>
      if c == 'e' || c == 'E' then
        let isNegative := cs.head? == some '-'
        let isSigned := isNegative || cs.head? == some '+'
        let (ds, rest) := digits Char.isDigit (if isSigned then cs.tail else cs)
        if ds.isEmpty then none
        else
          let n : Int := digitsValue 10 ds
          some (some (if isNegative then -n else n), rest)
      else some (none, c :: cs)
  | [] => some (none, [])

/-- Whether a decimal number is beyond the greatest number of double precision: it rounds to two to
the power of 1024 or more. -/
def isTooGreat (ds : List Char) (exponent : Int) : Bool :=
  let significant := ds.dropWhile (· == '0')
  let magnitude := significant.length + exponent
  if significant.isEmpty || magnitude < 300 then false
  else if 320 < magnitude then true
  else
    let bound := Nat.pow 2 1024 - Nat.pow 2 970
    bound * Nat.pow 10 (-exponent).toNat ≤
      digitsValue 10 significant * Nat.pow 10 exponent.toNat

/-- A number in base ten, behind its sign. -/
def decimal? (isNegative : Bool) : Reader Value := fun cs => do
  let (ds, rest) ← integerDigits? cs
  let (fraction, rest) ← fraction? rest
  let (exponent, rest) ← exponent? rest
  let written := Value.number (String.ofList (cs.take (cs.length - rest.length)))
  if fraction.isEmpty && exponent.isNone then
    let bound := if isNegative then maxInteger + 1 else maxInteger
    if bound < digitsValue 10 ds then none
    return (written, rest)
  if !isNegative && isTooGreat (ds ++ fraction) (exponent.getD 0 - fraction.length) then none
  return (written, rest)

/-- A number behind its sign: infinity, what is no number, or a number in base ten. -/
def signed? (isNegative : Bool) : Reader Value
  | 'i' :: 'n' :: 'f' :: cs => some (.number "inf", cs)
  | 'n' :: 'a' :: 'n' :: cs => some (.number "nan", cs)
  | cs => decimal? isNegative cs

/-- A number. -/
def number? : Reader Value
  | '0' :: 'x' :: cs => basedInteger? 16 cs
  | '0' :: 'o' :: cs => basedInteger? 8 cs
  | '0' :: 'b' :: cs => basedInteger? 2 cs
  | '+' :: cs => signed? false cs
  | '-' :: cs => signed? true cs
  | cs => signed? false cs

/-! ## Dates and times -/

/-- A number of exactly so many digits between two bounds. -/
def field? (count least greatest : Nat) : Reader Nat := fun cs =>
  let ds := cs.take count
  let n := digitsValue 10 ds
  if ds.length == count && ds.all Char.isDigit && least ≤ n && n ≤ greatest then
    some (n, cs.drop count)
  else none

/-- What is left behind a character. -/
def expect? (c : Char) : List Char → Option (List Char)
  | d :: cs => if c == d then some cs else none
  | [] => none

/-- The number of days of a month. -/
def daysOf (year month : Nat) : Nat :=
  if month == 2 then
    if year % 4 == 0 && (year % 100 != 0 || year % 400 == 0) then 29 else 28
  else if [4, 6, 9, 11].contains month then 30 else 31

/-- What is left behind a date. -/
def date? (cs : List Char) : Option (List Char) := do
  let (year, cs) ← field? 4 0 9999 cs
  let (month, cs) ← field? 2 1 12 (← expect? '-' cs)
  let (_, cs) ← field? 2 1 (daysOf year month) (← expect? '-' cs)
  return cs

/-- What is left behind a time of the day. -/
def time? (cs : List Char) : Option (List Char) := do
  let (_, cs) ← field? 2 0 23 cs
  let (_, cs) ← field? 2 0 59 (← expect? ':' cs)
  let (_, cs) ← field? 2 0 60 (← expect? ':' cs)
  match cs with
  | '.' :: rest =>
      if rest.head?.any Char.isDigit then return rest.dropWhile Char.isDigit else none
  | _ => return cs

/-- What is left behind the distance to the time of the zero meridian, which may be missing. -/
def offset? (cs : List Char) : Option (List Char) :=
  match cs with
  | 'Z' :: rest | 'z' :: rest => some rest
  | sign :: rest =>
      if sign == '+' || sign == '-' then do
        let (_, rest) ← field? 2 0 23 rest
        let (_, rest) ← field? 2 0 59 (← expect? ':' rest)
        return rest
      else some cs
  | [] => some []

/-- What is left behind a date, a time, or a date with a time. -/
def momentEnd? (cs : List Char) : Option (List Char) :=
  match date? cs with
  | some rest =>
      match rest with
      | sep :: more =>
          if sep == 'T' || sep == 't' || sep == ' ' then
            match time? more with
            | some rest => offset? rest
            | none => some rest
          else some rest
      | [] => some []
  | none => time? cs

/-- A date, a time, or a date with a time. -/
def moment? : Reader Value := fun cs => do
  let rest ← momentEnd? cs
  return (.moment (String.ofList (cs.take (cs.length - rest.length))), rest)

/-- A scalar. -/
def scalar? (cs : List Char) : Option (Value × List Char) :=
  match cs with
  | 't' :: 'r' :: 'u' :: 'e' :: rest => some (.flag true, rest)
  | 'f' :: 'a' :: 'l' :: 's' :: 'e' :: rest => some (.flag false, rest)
  | c :: _ =>
      if c == '"' || c == '\'' then (text? cs).map fun (s, rest) => (.text s, rest)
      else (moment? cs).or (number? cs)
  | [] => none

example : text? "\"a\\u00e9\" x".toList = some ("aé", " x".toList) := by decide +kernel
example : text? "\"\"\"\na\\\n  b\"\"\"\"".toList = some ("ab\"", []) := by decide +kernel
example : text? "'''it's'''".toList = some ("it's", []) := by decide +kernel
example : (number? "1_000".toList).isSome := by decide +kernel
example : momentEnd? "1979-05-27T07:32:00Z".toList = some [] := by decide +kernel

end Deadwood.Toml

/-
  JSON values, and reading records out of them.

  Objects keep their fields in the order of the text, repeated names included: whether a repeated
  name matters is for the reader of the record to say.  A record may also be written as an array of
  its fields; then their order says which is which.  Records are read in `Option`: a reader answers
  `none` when the value does not have the form it asks for.
-/

namespace Deadwood

/-- A JSON value. -/
inductive Json where
  | null
  | bool (value : Bool)
  /-- A number written as an integer, without fraction or exponent. -/
  | int (value : Int)
  /-- Any other number, as it was written. -/
  | decimal (text : String)
  | str (text : String)
  | arr (items : List Json)
  | obj (fields : List (String × Json))
  deriving Inhabited

namespace Json

/-- A natural number as a JSON value. -/
def nat (n : Nat) : Json := .int n

/-! ## Readers of simple values -/

/-- A truth value. -/
def bool? : Json → Option Bool
  | .bool b => some b
  | _ => none

/-- A text. -/
def str? : Json → Option String
  | .str s => some s
  | _ => none

/-- The greatest number that positions and handles may have. -/
def maxNatural : Nat := 4294967295

/-- An integer that fits into 32 bits without a sign. -/
def natural? : Json → Option Nat
  | .int n => if 0 ≤ n && n ≤ maxNatural then some n.toNat else none
  | _ => none

/-- A list of values of the same form. -/
def list? {α : Type} (read : Json → Option α) : Json → Option (List α)
  | .arr items => items.mapM read
  | _ => none

/-- A value that may be missing: `null` stands for none. -/
def nullable? {α : Type} (read : Json → Option α) : Json → Option (Option α)
  | .null => some none
  | j => (read j).map some

/-- The name of a case without content: a text, or an object whose only field is `null`. -/
def caseName? : Json → Option String
  | .str s => some s
  | .obj [(s, .null)] => some s
  | _ => none

/-- A value of an enumeration, by name. -/
def case? {α : Type} (ofLabel? : String → Option α) (j : Json) : Option α :=
  j.caseName?.bind ofLabel?

/-! ## Fields of records -/

/-- The fields of a record that is written as an array: the items are those that the first names
stand for, and there may be no more items than names. -/
def positional? (names : List String) (items : List Json) : Option (List (String × Json)) :=
  if items.length ≤ names.length then some (names.zip items) else none

/-- The fields of a record by name.  An object names them itself; an array has them in order. -/
def fieldsOf? (names : List String) : Json → Option (List (String × Json))
  | .obj fields => some fields
  | .arr items => positional? names items
  | _ => none

/-- A record, given the names of its fields in order and the reader of the fields. -/
def record? {α : Type} (names : List String) (read : List (String × Json) → Option α) (j : Json) :
    Option α := (fieldsOf? names j).bind read

/-- The values of the fields of a name, in order. -/
def valuesOf (fields : List (String × Json)) (name : String) : List Json :=
  (fields.filter fun f => f.1 == name).map (·.2)

/-- A field that must be there, once. -/
def required {α : Type} (fields : List (String × Json)) (name : String)
    (read : Json → Option α) : Option α :=
  match valuesOf fields name with
  | [j] => read j
  | _ => none

/-- A field that may be left out, for a default, and is there once otherwise. -/
def optional {α : Type} (fields : List (String × Json)) (name : String) (default : α)
    (read : Json → Option α) : Option α :=
  match valuesOf fields name with
  | [] => some default
  | [j] => read j
  | _ => none

/-- The first field of a name. -/
def field? (j : Json) (name : String) : Option Json :=
  match j with
  | .obj fields => (valuesOf fields name).head?
  | _ => none

end Json

end Deadwood

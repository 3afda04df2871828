/-
  Settings written in TOML.

  Texts are texts and truth values are truth values.  A date is a record without settings, and a
  list may stand for a section: it gives the settings in order, and what is too much is passed
  over.
-/
import Deadwood.Settings.Field
import Deadwood.Toml.Reader

namespace Deadwood.Settings

mutual

/-- A value as a field. -/
def fieldOfValue : Toml.Value → Field
  | .text s => .scalar none (some s) false
  | .flag b => .scalar (some b) none false
  | .number _ => .otherScalar
  | .moment _ => .table []
  | .array items => .list (fieldsOfValues items)
  | .table entries => .table (fieldsOfTable entries)

/-- The items of an array as fields. -/
def fieldsOfValues : List Toml.Value → List Field
  | [] => []
  | v :: vs => fieldOfValue v :: fieldsOfValues vs

/-- The entries of a table as fields. -/
def fieldsOfTable : List (String × Toml.Value) → List (String × Field)
  | [] => []
  | (name, v) :: rest => (name, fieldOfValue v) :: fieldsOfTable rest

end

/-- The settings of a TOML text. -/
def ofToml? (text : String) : Option Settings :=
  (Toml.parse? text).bind fun root => ofField? .generous (fieldOfValue root)

end Deadwood.Settings

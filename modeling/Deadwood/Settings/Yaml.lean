/-
  Settings written in YAML.

  Every scalar can be read as a text, however it is written.  A plain one can also be a truth value
  or stand for nothing; a literal block can be a truth value when its tag says so.  A mapping whose
  keys are not all scalars is no section.
-/
import Deadwood.Settings.Field
import Deadwood.Yaml.Node

namespace Deadwood.Settings

/-- The truth value that a text spells. -/
def yamlFlag? : String → Option Bool
  | "true" | "True" | "TRUE" => some true
  | "false" | "False" | "FALSE" => some false
  | _ => none

/-- Whether a text spells nothing at all. -/
def spellsNothing (text : String) : Bool := ["", "~", "null", "Null", "NULL"].contains text

/-- The readings of a scalar. -/
def fieldOfScalar (style : Yaml.Style) (tag : Option String) (text : String) : Field :=
  let canBeFlag := style == .plain || (style == .literal && tag == some "tag:yaml.org,2002:bool")
  let isNull := style == .plain && match tag with
    | none => spellsNothing text
    | some t => t == "tag:yaml.org,2002:null"
  .scalar (if canBeFlag then yamlFlag? text else none) (some text) isNull

/-- The text of a scalar. -/
def keyText? : Yaml.Node → Option String
  | .scalar _ _ text => some text
  | _ => none

mutual

/-- A node as a field. -/
def fieldOfNode : Yaml.Node → Field
  | .scalar style tag text => fieldOfScalar style tag text
  | .sequence items => .list (fieldsOfNodes items)
  | .mapping entries =>
      match fieldsOfPairs entries with
      | some fields => .table fields
      | none => .otherScalar
  | .loop => .otherScalar

/-- The items of a sequence as fields. -/
def fieldsOfNodes : List Yaml.Node → List Field
  | [] => []
  | node :: nodes => fieldOfNode node :: fieldsOfNodes nodes

/-- The entries of a mapping as fields, when all keys are scalars. -/
def fieldsOfPairs : List (Yaml.Node × Yaml.Node) → Option (List (String × Field))
  | [] => some []
  | (key, node) :: rest => do
      let name ← keyText? key
      return (name, fieldOfNode node) :: (← fieldsOfPairs rest)

end

/-- The settings of a YAML text. -/
def ofYaml? (text : String) : Option Settings :=
  (Yaml.parse? text).bind fun root => ofField? .refused (fieldOfNode root)

end Deadwood.Settings

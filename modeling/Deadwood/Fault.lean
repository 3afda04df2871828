/-
  What can go wrong in an analysis.

  A look-up that finds nothing is no fault: what it looked for is declared outside of the program.
  Faults are broken promises of the front end, or handles that name nothing.
-/
import Deadwood.Handle
import Deadwood.Kind

namespace Deadwood

/-- Why an analysis cannot go on. -/
inductive Fault where
  /-- The kind of an extension does not say what kind of type it extends. -/
  | unmappedExtension (kind : Kind)
  | missingDeclaration (id : DeclId)
  | missingReference (id : RefId)
  deriving DecidableEq, Repr

namespace Fault

/-- The message of a fault. -/
def message : Fault → String
  | unmappedExtension kind =>
      s!"extension kind '{kind.title}' does not map to an extended type kind"
  | missingDeclaration id => s!"declaration decl#{id.index} is not present in the graph"
  | missingReference id => s!"reference #{id.index} is not present in the graph"

/-- The diagnostic code of a fault. -/
def code : Fault → String
  | unmappedExtension _ => "swiftdeadcode::graph::unmapped_extension"
  | missingDeclaration _ => "swiftdeadcode::graph::missing_declaration"
  | missingReference _ => "swiftdeadcode::graph::missing_reference"

/-- Advice to the user, where there is some. -/
def help? : Fault → Option String
  | unmappedExtension _ =>
      some ("the front end must report extensions as extension_class, extension_struct, " ++
        "extension_enum or extension_protocol")
  | _ => none

end Fault

/-- The kind of type that an extension of this kind extends. -/
def Kind.extended (k : Kind) : Except Fault Kind :=
  match k.extended? with
  | some extended => .ok extended
  | none => .error (.unmappedExtension k)

end Deadwood

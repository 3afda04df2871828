/-
  Warnings: what was passed over without giving up.
-/
import Deadwood.Kind
import Deadwood.Location

namespace Deadwood

/-- Something passed over. -/
inductive Warning where
  /-- A declaration of the document has no identifier. -/
  | anonymousDeclaration (kind : Kind) (location : Location)
  /-- A reference of the document has no identifier. -/
  | anonymousReference (kind : Kind) (location : Location)
  /-- The name of a synthesised initializer does not list its labels. -/
  | malformedInitializer (display : String)
  deriving DecidableEq, Repr

/-- The text of a warning. -/
def Warning.message : Warning → String
  | anonymousDeclaration kind location =>
      s!"Skipping {kind.noun} declaration without an identifier at {location.text}"
  | anonymousReference kind location =>
      s!"Skipping {kind.noun} reference without an identifier at {location.text}"
  | malformedInitializer display => s!"Skipping initializer with malformed name {display}"

end Deadwood

/-
  Graph documents: what the indexing front end says about a program.

  A document is a list of fragments, one for each source file, with the declarations of the file
  as trees and the references that no declaration encloses.  The types follow the format: lists
  keep their order and repetitions, and a field that was left out holds its default.
-/
import Deadwood.Reference
import Deadwood.SortedMap
import Deadwood.SourceFile

namespace Deadwood

/-- A reference as the front end reports it, with the references nested in its expression.
Whether it is structural is decided by the list it stands in. -/
structure ReferenceNode where
  kind : Kind
  usr : String
  name : Option String := none
  /-- The file of the fragment, where it is left out. -/
  file : Option Path := none
  line : Nat
  column : Nat := 1
  role : Role := .unknown
  references : List ReferenceNode := []

/-- A declaration as the front end reports it, with all that is nested in it. -/
structure DeclarationNode where
  kind : Kind
  usrs : List String := []
  name : Option String := none
  /-- The file of the fragment, where it is left out. -/
  file : Option Path := none
  line : Nat
  column : Nat := 1
  accessibility : Option Tier := none
  /-- Whether the accessibility was written in the source; so it was, where this is left out. -/
  accessibilityExplicit : Option Bool := none
  attributes : List String := []
  modifiers : List String := []
  comments : List String := []
  isImplicit : Bool := false
  isObjcAccessible : Bool := false
  declarations : List DeclarationNode := []
  unusedParameters : List DeclarationNode := []
  references : List ReferenceNode := []
  related : List ReferenceNode := []

/-- A source file as the front end reports it. -/
structure FileNode where
  path : Path
  modules : SortedSet String
  imports : List ImportStatement := []
  /-- The comments of the file itself. -/
  comments : List String := []
  /-- What the comments ask for; it is neither written nor read, but found when the file is prepared. -/
  directives : List Directive := []
  deriving DecidableEq

/-- One source file with its declarations and the references outside of them. -/
structure Fragment where
  file : FileNode
  declarations : List DeclarationNode := []
  references : List ReferenceNode := []

/-- Everything that the front end says about a program. -/
structure Document where
  fragments : List Fragment := []
  /-- The modules that a module passes on. -/
  moduleExports : SortedMap String (List String) := ∅
  assetReferences : List AssetReference := []

instance : Inhabited Document := ⟨{}⟩

end Deadwood

/-
  Source files, their import statements, and the declarations that other assets name.

  A file may be compiled into several modules.  Files seen again are merged: their modules,
  imports and directives come together, and the first spelling of the path stays.
-/
import Deadwood.Directive
import Deadwood.Location
import Deadwood.SortedSet

namespace Deadwood

open Std

/-- An import statement. -/
structure ImportStatement where
  module : String
  isTestable : Bool := false
  /-- Passes the module on to those that import this one. -/
  isExported : Bool := false
  line : Nat
  column : Nat := 1
  deriving DecidableEq, Repr

/-- A source file and the modules it is compiled into. -/
structure SourceFile where
  path : Path
  modules : SortedSet String
  imports : List ImportStatement := []
  directives : List Directive := []
  deriving DecidableEq

namespace SourceFile

/-- The elements of the second list that are not in the first follow it. -/
def appendNew {α : Type} [DecidableEq α] (xs ys : List α) : List α :=
  ys.foldl (fun acc y => if acc.contains y then acc else acc ++ [y]) xs

/-- The file seen once more. -/
def merge (file again : SourceFile) : SourceFile :=
  { file with
    modules := file.modules.union again.modules
    imports := appendNew file.imports again.imports
    directives := appendNew file.directives again.directives }

/-- Where an import statement of the file stands. -/
def importLocation (file : SourceFile) (i : ImportStatement) : Location :=
  ⟨file.path, i.line, i.column⟩

/-- Whether the file opens the module to its tests. -/
def importsTestable (file : SourceFile) (module : String) : Bool :=
  file.imports.any fun i => i.isTestable && i.module == module

end SourceFile

/-- Where a declaration was named outside of code. -/
inductive AssetSource where
  /-- Storyboards and interface files. -/
  | interfaceBuilder
  | dataModel
  | propertyList
  deriving DecidableEq, Repr, Inhabited

namespace AssetSource

def all : List AssetSource := [interfaceBuilder, dataModel, propertyList]

def rank : AssetSource → Nat
  | interfaceBuilder => 0
  | dataModel => 1
  | propertyList => 2

/-- The name of an asset source in documents. -/
def label : AssetSource → String
  | interfaceBuilder => "interface_builder"
  | dataModel => "data_model"
  | propertyList => "property_list"

/-- The asset source of that name. -/
def ofLabel? (text : String) : Option AssetSource := all.find? fun s => s.label == text

end AssetSource

/-- A declaration named outside of code. -/
structure AssetReference where
  name : String
  source : AssetSource
  deriving DecidableEq, Repr

namespace AssetReference

instance : Ord AssetReference := ⟨compareLex (compareOn name) (compareOn (·.source.rank))⟩
instance : TransOrd AssetReference :=
  inferInstanceAs (TransCmp (compareLex (compareOn name) (compareOn (·.source.rank))))

end AssetReference

end Deadwood

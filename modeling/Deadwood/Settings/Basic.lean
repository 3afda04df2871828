/-
  The settings of an analysis: what is retained, what is looked for, and how it is reported.
-/
import Deadwood.Glob
import Deadwood.Path

namespace Deadwood

/-- How findings are reported. -/
structure ReportSettings where
  /-- The name of the format. -/
  format : String := "terminal"
  /-- Also list what directives suppress. -/
  showIgnored : Bool := false
  deriving DecidableEq, Repr, Inhabited

/-- What is looked for. -/
structure Detection where
  unusedImports : Bool := true
  unusedParameters : Bool := true
  redundantPublic : Bool := true
  redundantInternal : Bool := true
  redundantFileprivate : Bool := true
  redundantProtocols : Bool := true
  assignOnlyProperties : Bool := true
  deriving DecidableEq, Repr, Inhabited

/-- The settings of an analysis. -/
structure Settings where
  /-- Public and open declarations are entry points. -/
  retainPublic : Bool := false
  /-- What the Objective-C runtime can reach is retained. -/
  retainObjcAccessible : Bool := false
  /-- Properties that are only written stay. -/
  retainAssignOnlyProperties : Bool := false
  /-- Unused parameters stay in functions that satisfy a requirement. -/
  retainUnusedProtocolFuncParams : Bool := false
  /-- Providers of previews are retained. -/
  retainSwiftUiPreviews : Bool := true
  /-- Patterns of names that are retained. -/
  retainPatterns : List String := []
  /-- Base classes of test cases that are declared outside of the program. -/
  externalTestCaseClasses : List String := ["XCTestCase", "QuickSpec"]
  /-- Patterns of paths whose findings are not reported. -/
  reportExclude : List String := []
  report : ReportSettings := {}
  detection : Detection := {}
  deriving DecidableEq, Repr, Inhabited

namespace Settings

/-- Whether the findings of a file are left out of reports. -/
def excludes (s : Settings) (path : Path) : Bool :=
  s.reportExclude.any fun pattern => Glob.isMatch pattern path.text

/-- Whether a name is retained. -/
def retains (s : Settings) (name : String) : Bool :=
  s.retainPatterns.any fun pattern => Glob.isMatch pattern name

end Settings

end Deadwood

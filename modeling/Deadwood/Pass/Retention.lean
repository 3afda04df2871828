/-
  Rules that keep declarations alive: what the language, a framework, an asset or the settings use
  without a reference in the source.

  Each rule lists the declarations it keeps; a pass of the rule retains them.
-/
import Deadwood.Graph.Edit
import Deadwood.Graph.Hierarchy
import Deadwood.Settings.Basic

namespace Deadwood.Retention

/-- Whether a text begins with another one. -/
def beginsWith (text start : String) : Bool := start.toList.isPrefixOf text.toList

/-! ## Language -/

/-- The members that satisfy a condition, of the types with an attribute. -/
def membersOfTypesWith (g : Graph) (name : String) (p : Declaration → Bool) : List DeclId :=
  (g.declIdsWhere fun d => d.kind.isType && d.toSymbol.hasAttribute name).flatMap
    fun owner => g.membersWhere owner p

/-- Subscripts that are called through the names of members. -/
def dynamicMembers (g : Graph) : List DeclId :=
  g.declIdsWhere fun d =>
    d.kind == .subscriptFunction && beginsWith d.nameText "subscript(dynamicMember:"

/-- Whether the syntax of a property wrapper uses a member of this name. -/
def isWrapperMember (d : Declaration) : Bool :=
  d.nameText == "wrappedValue" || d.nameText == "projectedValue" ||
    beginsWith d.nameText "init(wrappedValue:"

/-- The members of property wrappers that their syntax uses. -/
def propertyWrappers (g : Graph) : List DeclId :=
  membersOfTypesWith g "propertyWrapper" isWrapperMember

/-- The methods of result builders that the compiler calls. -/
def resultBuilders (g : Graph) : List DeclId :=
  membersOfTypesWith g "resultBuilder" fun d =>
    d.kind.isFunction && d.toSymbol.isStatic && beginsWith d.toSymbol.baseName "build"

/-- The methods that string literals call. -/
def stringInterpolation (g : Graph) : List DeclId :=
  g.declIdsWhere fun d =>
    d.kind == .instanceMethod && d.toSymbol.baseName == "appendInterpolation"

/-- Whether a declaration has one of some attributes. -/
def hasOneOf (attributes : List String) (d : Declaration) : Bool :=
  attributes.any d.toSymbol.hasAttribute

/-- The entry points of programs. -/
def entryPoints (g : Graph) : List DeclId :=
  g.declIdsWhere (hasOneOf ["main", "UIApplicationMain", "NSApplicationMain"])

/-! ## Frameworks -/

/-- Whether a type inherits from something of one of some names. -/
def inheritsFromOneOf (g : Graph) (names : List String) (id : DeclId) : Bool :=
  names.any (g.inheritsFromNamed id)

/-- The providers of previews. -/
def previews (s : Settings) (g : Graph) : List DeclId :=
  if s.retainSwiftUiPreviews then
    (g.declarationsOfKinds [.structType, .classType]).filter
      (inheritsFromOneOf g ["PreviewProvider", "LibraryContentProvider"])
  else []

/-- Whether the test framework finds a member by its name. -/
def isTestHook (d : Declaration) : Bool :=
  d.kind.isFunction && !d.kind.isAccessor &&
    ((beginsWith d.toSymbol.baseName "test" && d.toSymbol.argumentLabels == some []) ||
      ["setUp", "tearDown", "setUpWithError", "tearDownWithError"].contains d.toSymbol.baseName)

/-- The test cases, with the members that the test framework finds. -/
def testCases (s : Settings) (g : Graph) : List DeclId :=
  ((g.declarationsOfKind .classType).filter
    (inheritsFromOneOf g s.externalTestCaseClasses)).flatMap
      fun c => c :: g.membersWhere c isTestHook

/-- The tests and suites marked by attributes. -/
def markedTests (g : Graph) : List DeclId := g.declIdsWhere (hasOneOf ["Test", "Suite"])

/-! ## Assets -/

/-- The attributes of members that interface files connect to. -/
def interfaceAttributes : List String := ["IBAction", "IBOutlet", "IBInspectable", "IBSegueAction"]

/-- What an asset keeps: the types it names and, for an interface file, the members it connects. -/
def keptByAsset (g : Graph) (asset : AssetReference) : List DeclId :=
  let types := (g.declarationsOfKinds [.classType, .structType]).filter fun id =>
    (g.declaration? id).any (·.nameText == asset.name)
  types.flatMap fun id =>
    if asset.source = .interfaceBuilder then
      id :: g.membersWhere id (hasOneOf interfaceAttributes)
    else [id]

/-- What assets name. -/
def assets (g : Graph) : List DeclId := g.assets.toList.flatMap (keptByAsset g)

/-! ## Settings -/

/-- What other modules can see. -/
def publicApi (s : Settings) (g : Graph) : List DeclId :=
  if s.retainPublic then g.declIdsWhere (·.access.tier.isExposed) else []

/-- What the Objective-C runtime can reach. -/
def objcAccessible (s : Settings) (g : Graph) : List DeclId :=
  if s.retainObjcAccessible then
    g.declIdsWhere (fun d => d.isObjc || d.toSymbol.hasAttribute "objc") ++
      (g.declIdsWhere (·.toSymbol.hasAttribute "objcMembers")).flatMap
        fun id => id :: g.membersWhere id fun _ => true
  else []

/-- What the patterns of the settings name. -/
def patterns (s : Settings) (g : Graph) : List DeclId :=
  g.declIdsWhere fun d =>
    d.nameText != "" && (s.retains d.toSymbol.baseName || s.retains d.nameText)

end Deadwood.Retention

/-
  Uses that no source text shows, because the compiler makes them.

  * Synthesised code of an enum can produce any of its cases.
  * The runtime calls initializers without parameters, and deinitializers.
  * A synthesised initializer of a struct writes the properties that its labels name.
  * A call of a generic type's initializer is indexed as a use of the type.
  * A property with an accessor in the source runs its accessors.
-/
import Deadwood.Graph.Edit
import Deadwood.Pass.Outcome

namespace Deadwood.Synthesis

/-- Let a declaration refer to others, in their order. -/
def referToAll (g : Graph) (owner : DeclId) (targets : List DeclId) : Graph :=
  let mentions := targets.filterMap fun t => (g.declaration? t).map (·.toSymbol.mention false)
  mentions.foldl (fun g m => g.addUse m owner) g

/-- The members of a declaration that satisfy a condition, in the order in which they were added. -/
def addedMembers (g : Graph) (owner : DeclId) (p : Declaration → Bool) : List DeclId :=
  match g.declaration? owner with
  | some d => d.members.toList.filter fun m => (g.declaration? m).any p
  | none => []

/-! ## Enum cases -/

/-- The conformances whose synthesised code can produce any case. -/
def caseProducing : List String := [
    "String", "Character", "Int", "Int8", "Int16", "Int32", "Int64", "UInt", "UInt8", "UInt16",
    "UInt32", "UInt64", "Float", "Double", "RawRepresentable", "CodingKey", "CaseIterable"]

/-- Whether synthesised code of an enum can produce its cases. -/
def producesCases (g : Graph) (id : DeclId) : Bool :=
  (g.declaration? id).any fun d =>
    d.ownReferences.any fun r =>
      (g.reference? r).any fun x => x.isStructural && caseProducing.contains x.nameText

/-- Let one enum refer to its cases, where synthesised code can produce them. -/
def connectCases (g : Graph) (id : DeclId) : Graph :=
  if producesCases g id then referToAll g id (addedMembers g id (·.kind == .enumCase)) else g

/-- Let enums refer to their cases. -/
def enumCases (g : Graph) : Graph := (g.declarationsOfKind .enumType).foldl connectCases g

/-! ## Initializers -/

/-- Whether the runtime calls a member on its own. -/
def isRuntimeCalled (d : Declaration) : Bool :=
  (d.kind == .initializer && d.nameText == "init()") || d.kind == .deinitializer

/-- Let classes and structs refer to what the runtime calls. -/
def defaultConstructors (g : Graph) : Graph :=
  (g.declarationsOfKinds [.classType, .structType]).foldl
    (fun g owner => referToAll g owner (g.membersWhere owner isRuntimeCalled)) g

/-- Whether a type has generic parameters. -/
def isGeneric (g : Graph) (id : DeclId) : Bool :=
  !(g.membersWhere id (·.kind == .genericParameter)).isEmpty

/-- Let generic classes and structs refer to their initializers. -/
def genericConstructors (g : Graph) : Graph :=
  (g.declarationsOfKinds [.classType, .structType]).foldl
    (fun g owner =>
      if isGeneric g owner then referToAll g owner (g.membersWhere owner (·.kind == .initializer))
      else g) g

/-- What the label of a synthesised initializer writes: the setter of the property of that name,
or the property itself where it has no setter. -/
def writtenBy (g : Graph) (owner : DeclId) (label : String) : Option DeclId := do
  let property ← (g.membersWhere owner fun m =>
    m.kind == .instanceVariable && m.nameText == label).head?
  return (g.membersWhere property (·.kind == .setter)).head?.getD property

/-- Let one synthesised initializer refer to what it writes. -/
def connectInitializer (owner : DeclId) (o : Outcome) (initializer : DeclId) : Outcome :=
  match o.graph.declaration? initializer with
  | none => o
  | some d =>
      match d.toSymbol.argumentLabels with
      | none => { o with warnings := o.warnings ++ [.malformedInitializer d.toSymbol.display] }
      | some labels =>
          let written := labels.filterMap (writtenBy o.graph owner)
          { o with graph := referToAll o.graph initializer written }

/-- Let the synthesised initializers of one struct refer to what they write. -/
def connectInitializers (o : Outcome) (owner : DeclId) : Outcome :=
  (o.graph.membersWhere owner fun m => m.kind == .initializer && m.isImplicit).foldl
    (connectInitializer owner) o

/-- Let synthesised initializers of structs refer to what they write. -/
def memberwiseInitializers (g : Graph) : Outcome :=
  (g.declarationsOfKind .structType).foldl connectInitializers (.done g)

/-! ## Accessors -/

/-- Let one property refer to its accessors, where one of them is in the source. -/
def connectAccessors (g : Graph) (property : DeclId) : Graph :=
  let accessors := addedMembers g property (·.kind.isAccessor)
  if accessors.any fun a => (g.declaration? a).any (!·.isImplicit) then
    referToAll g property accessors
  else g

/-- Let properties refer to their accessors. -/
def accessors (g : Graph) : Graph :=
  (g.declarationsWhere (·.kind.isProperty)).foldl connectAccessors g

end Deadwood.Synthesis

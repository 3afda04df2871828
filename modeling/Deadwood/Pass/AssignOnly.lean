/-
  Properties that are written and never read.

  A write is a reference to the setter of a property.  Where nothing refers to the property itself
  or to another accessor, the writes are removed, so that the search for what is used leaves the
  property out, and the property is marked.
-/
import Deadwood.Graph.Edit
import Deadwood.Settings.Basic

namespace Deadwood.AssignOnly

/-- Whether a structural reference names a declaration. -/
def isRelatedTarget (g : Graph) (id : DeclId) : Bool :=
  (g.referencesTo id).any fun r => (g.reference? r).any (·.isRelated)

/-- Whether a declaration has an accessor in the source. -/
def hasWrittenAccessor (g : Graph) (d : Declaration) : Bool :=
  d.members.toList.any fun a => (g.declaration? a).any fun x => x.kind.isAccessor && !x.isImplicit

/-- Whether the uses of a declaration tell everything about it: a plain stored property that
nothing overrides, requires or observes. -/
def isCandidate (g : Graph) (id : DeclId) : Bool :=
  (g.declaration? id).any fun d =>
    d.kind.isProperty && !g.isRetained id && d.attributes.isEmpty && !d.toSymbol.isOverride &&
      !g.isProtocolMember id && d.related.isEmpty && !isRelatedTarget g id &&
      !hasWrittenAccessor g d

/-- The members of a property that are setters, or that are not. -/
def accessorsOf (g : Graph) (id : DeclId) (setters : Bool) : List DeclId :=
  match g.declaration? id with
  | some d => d.members.toList.filter fun a =>
      (g.declaration? a).any fun x => (x.kind == .setter) == setters
  | none => []

/-- The references that read a property. -/
def reads (g : Graph) (id : DeclId) : List RefId :=
  g.referencesTo id ++ (accessorsOf g id false).flatMap g.referencesTo

/-- The references that write a property. -/
def writes (g : Graph) (id : DeclId) : List RefId :=
  (accessorsOf g id true).flatMap g.referencesTo

/-- Judge one property; where it is only written, remove the writes and mark it. -/
def eliminateOne (g : Graph) (id : DeclId) : Graph :=
  if isCandidate g id && (reads g id).isEmpty && !(writes g id).isEmpty then
    ((writes g id).foldl Graph.removeReference g).mark .assignOnly id
  else g

/-- Judge every property, unless the settings keep them all. -/
def eliminate (s : Settings) (g : Graph) : Graph :=
  if s.retainAssignOnlyProperties then g
  else (g.declarationsWhere (·.kind.isProperty)).foldl eliminateOne g

end Deadwood.AssignOnly

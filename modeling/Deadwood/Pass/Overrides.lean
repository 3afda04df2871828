/-
  Overriding.

  A call through a base member may run any of its overrides, so base members of the program refer
  to the members that override them.  A member that overrides or implements something foreign is
  retained: foreign code may call it.
-/
import Deadwood.Graph.Edit

namespace Deadwood.Overrides

/-- The identifiers of functions and variables that a member is structurally related to, each with
its declaration, where the program has one. -/
def memberEdges (g : Graph) (id : DeclId) : List (String × Option DeclId) :=
  match g.declaration? id with
  | some d =>
      (g.sortedReferences d.related.toList).filterMap fun r => do
        let reference ← g.reference? r
        guard (reference.kind.isFunction || reference.kind.isVariable)
        return (reference.usr, g.declarationWithUsr? reference.usr)
  | none => []

/-- Let the base members of one override refer to it.  Requirements of protocols are not bases. -/
def connectOne (g : Graph) (id : DeclId) : Graph :=
  match g.declaration? id with
  | some d =>
      let bases := (memberEdges g id).filterMap (·.2)
      (bases.filter fun b => b ≠ id && !g.isProtocolMember b).foldl
        (fun g base => g.addUse (d.toSymbol.mention true) base) g
  | none => g

/-- Let base members refer to their overrides. -/
def connect (g : Graph) : Graph :=
  (g.declarationsWhere (·.toSymbol.isOverride)).foldl connectOne g

/-- The members that override or implement something foreign. -/
def foreign (g : Graph) : List DeclId :=
  (g.declarationsWhere fun d => d.kind.isFunction || d.kind.isVariable).filter fun id =>
    (memberEdges g id).any (·.2.isNone)

end Deadwood.Overrides

/-
  What is used.

  1. **Roots** — the retained declarations, and what the references outside of all declarations
     name.

  2. **Steps** — a used declaration uses whatever its references name, nested ones included, and
     a used accessor uses its property.  An identifier may lead to several declarations; all of
     them are used.

  3. **Dead conformers** — a requirement does not keep an implementation alive inside a type that
     nothing retains or refers to: such references are removed first.

  4. **One report for a dead tree** — everything unused inside something unused is ignored.
-/
import Deadwood.Graph.Edit

namespace Deadwood.Reachability

/-! ## Dead conformers -/

/-- Whether a declaration stands inside something, other than a protocol, that nothing retains or
refers to. -/
def hasDeadAncestor (g : Graph) (id : DeclId) : Bool :=
  (g.ancestors id).any fun a =>
    (g.declaration? a).any (·.kind != .protocolType) && !g.isRetained a && !g.isReferenced a

/-- The structural references of requirements that lead into dead types. -/
def erroneous (g : Graph) : List RefId :=
  (g.sortedDeclarations (g.declIds.filter g.isProtocolMember)).flatMap fun member =>
    match g.declaration? member with
    | some d => (g.sortedReferences d.related.toList).filter fun r =>
        (g.reference? r).any fun x => (g.declarationsWithUsr x.usr).any (hasDeadAncestor g)
    | none => []

/-- Remove the structural references of requirements that lead into dead types. -/
def removeErroneous (g : Graph) : Graph := (erroneous g).foldl Graph.removeReference g

/-! ## The search -/

/-- The declarations that a reference names. -/
def targets (g : Graph) (r : RefId) : List DeclId :=
  match g.reference? r with
  | some x => g.declarationsWithUsr x.usr
  | none => []

/-- What a used declaration uses directly. -/
def usedBy (g : Graph) (id : DeclId) : List DeclId :=
  let property := match g.declaration? id with
    | some d => if d.kind.isAccessor then d.parent.toList else []
    | none => []
  (g.referencesFrom id).flatMap (targets g) ++ property

/-- Where the search begins. -/
def startingPoints (g : Graph) : List DeclId :=
  g.marks.retained.toList ++
    (g.rootReferences.toList.flatMap g.referenceTree).flatMap (targets g)

/-- Everything that is used. -/
def reachable (g : Graph) : List DeclId :=
  explore .depthFirst (usedBy g) g.declIds (startingPoints g)

/-! ## Dead trees -/

/-- Everything unused inside something unused. -/
def shadowed (g : Graph) : List DeclId :=
  let outer := g.declIds.filter fun id => !g.isUsed id && !(g.childrenOf id).isEmpty
  outer.flatMap fun id => (g.descendants id).filter (!g.isUsed ·)

/-- Mark what is used, and ignore what is unused inside something unused. -/
def markUsed (g : Graph) : Graph :=
  let g := removeErroneous g
  let g := g.markAll .used (reachable g)
  g.markAll .ignored (shadowed g)

end Deadwood.Reachability

/-
  Protocols that types conform to and that nothing uses: not as a type, not as a constraint and
  not through a member.

  Such a protocol is reached through its conformances, so it is recorded as redundant, and its
  members, with what implements them in vain, are ignored instead of being reported one by one.
-/
import Deadwood.Graph.Edit
import Deadwood.Graph.Hierarchy

namespace Deadwood.RedundantProtocols

/-- Everything nested in the extensions of a protocol. -/
def extensionMembers (g : Graph) (proto : DeclId) : List DeclId :=
  (g.protocolExtensions proto).flatMap g.descendants

/-- Whether a reference to a protocol says nothing about its use: it is the protocol's own, or an
extension names what it extends. -/
def isOwnReference (g : Graph) (proto : DeclId) (r : RefId) : Bool :=
  let owner := g.referencingDeclaration? r
  owner == some proto ||
    ((g.reference? r).any (·.role == .extendedType) &&
      owner.any (g.protocolExtensions proto).contains)

/-- The conformance clauses that name a protocol; none when it is referred to in another way. -/
def conformances? (g : Graph) (proto : DeclId) : Option (SortedSet RefId) :=
  let foreign := (g.referencesTo proto).filter fun r => !isOwnReference g proto r
  if foreign.all fun r => (g.reference? r).any (·.isStructural) then
    some (SortedSet.ofList foreign)
  else none

/-- The protocols in the inheritance clause of a protocol. -/
def inheritedProtocols (g : Graph) (proto : DeclId) : List RefId :=
  (g.inheritedTypeReferences proto).filter fun r => (g.reference? r).any (·.kind == .protocolType)

/-- Whether a reference names something outside of the program. -/
def isForeign (g : Graph) (r : RefId) : Bool :=
  (g.reference? r).any fun x => (g.declarationsWithUsr x.usr).isEmpty

/-- Whether a protocol is redundant, and what shows it. -/
def evaluate (g : Graph) (proto : DeclId) : Option RedundantProtocol := do
  let d ← g.declaration? proto
  guard (g.isUsed proto && !g.isRetained proto)
  let inherited := inheritedProtocols g proto
  guard (!inherited.any (isForeign g))
  guard (!d.members.toList.any g.isUsed)
  guard (!(extensionMembers g proto).any g.isUsed)
  let references ← conformances? g proto
  return ⟨references, SortedSet.ofList inherited⟩

/-- What implements the members of a protocol and is not used. -/
def idleImplementations (g : Graph) (proto : DeclId) : List DeclId :=
  let members := ((g.declaration? proto).map (·.members.toList)).getD []
  let related := members.flatMap fun m => ((g.declaration? m).map (·.related.toList)).getD []
  let usrs := related.filterMap fun r => (g.reference? r).map (·.usr)
  (usrs.flatMap g.declarationsWithUsr).filter (!g.isUsed ·)

/-- What is ignored because of a redundant protocol. -/
def suppressed (g : Graph) (proto : DeclId) : List DeclId :=
  g.descendants proto ++ extensionMembers g proto ++ idleImplementations g proto

/-- The redundant protocols, each with what shows it and what is ignored because of it. -/
def found (g : Graph) : List (DeclId × RedundantProtocol × List DeclId) :=
  (g.declarationsOfKind .protocolType).filterMap fun proto =>
    (evaluate g proto).map fun result => (proto, result, suppressed g proto)

/-- Record the redundant protocols. -/
def markRedundant (g : Graph) : Graph :=
  (found g).foldl (fun g f => (g.recordRedundantProtocol f.1 f.2.1).markAll .ignored f.2.2) g

end Deadwood.RedundantProtocols

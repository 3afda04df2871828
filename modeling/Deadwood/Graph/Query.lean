/-
  Questions to the graph: look-up by identifier and kind, trees of references, and the tree of
  declarations.

  Lists of handles are answered in the order of their keys (`sortedDeclarations`,
  `sortedReferences`), which is read off the source and not off the numbers of the handles.  Walks
  are searches over the live handles, so they end whatever the links look like.
-/
import Deadwood.Graph.Basic
import Deadwood.Keyed
import Deadwood.Search

namespace Deadwood

namespace Graph

/-! ## Order -/

/-- The live declarations of a list, each once, in the order of their keys and handles. -/
def sortedDeclarations (g : Graph) (ids : List DeclId) : List DeclId :=
  sortByKey (fun id => (g.declaration? id).map (·.toSymbol.key)) ids

/-- The live references of a list, each once, in the order of their keys and handles. -/
def sortedReferences (g : Graph) (ids : List RefId) : List RefId :=
  sortByKey (fun id => (g.reference? id).map (·.toMention.key)) ids

/-- The live declarations that satisfy a condition, in order. -/
def declarationsWhere (g : Graph) (p : Declaration → Bool) : List DeclId :=
  g.sortedDeclarations (g.declIdsWhere p)

/-- The members of a declaration that satisfy a condition, in order. -/
def membersWhere (g : Graph) (owner : DeclId) (p : Declaration → Bool) : List DeclId :=
  match g.declaration? owner with
  | some d => g.sortedDeclarations (d.members.toList.filter fun id => (g.declaration? id).any p)
  | none => []

/-! ## By identifier and kind -/

/-- The declarations of the given kinds, in order. -/
def declarationsOfKinds (g : Graph) (kinds : List Kind) : List DeclId :=
  g.sortedDeclarations (kinds.flatMap fun k => (Index.get g.declarationsByKind k).toList)

/-- The declarations of a kind, in order. -/
def declarationsOfKind (g : Graph) (kind : Kind) : List DeclId := g.declarationsOfKinds [kind]

/-- The declarations that carry an identifier, in order. -/
def declarationsWithUsr (g : Graph) (usr : String) : List DeclId :=
  g.sortedDeclarations (Index.get g.declarationsByUsr usr).toList

/-- The first declaration written in the source that carries an identifier. -/
def explicitDeclarationWithUsr? (g : Graph) (usr : String) : Option DeclId :=
  (g.sortedDeclarations ((Index.get g.declarationsByUsr usr).toList.filter fun id =>
    (g.declaration? id).any (!·.isImplicit))).head?

/-- The declaration of an identifier: the first one written in the source, or else the first. -/
def declarationWithUsr? (g : Graph) (usr : String) : Option DeclId :=
  (g.explicitDeclarationWithUsr? usr).or (g.declarationsWithUsr usr).head?

/-- The references to an identifier, in order. -/
def referencesToUsr (g : Graph) (usr : String) : List RefId :=
  g.sortedReferences (Index.get g.referencesByUsr usr).toList

/-- The references to any identifier of a declaration, in order. -/
def referencesTo (g : Graph) (id : DeclId) : List RefId :=
  match g.declaration? id with
  | some d =>
      g.sortedReferences (d.usrs.toList.flatMap fun usr => (Index.get g.referencesByUsr usr).toList)
  | none => []

/-- Whether some reference names an identifier of the declaration. -/
def isReferenced (g : Graph) (id : DeclId) : Bool :=
  (g.declaration? id).any fun d =>
    d.usrs.toList.any fun usr => !(Index.get g.referencesByUsr usr).isEmpty

/-- A reference with this key and this owner. -/
def equalReference? (g : Graph) (key : Mention.Key) (owner : Option Owner) : Option RefId :=
  (Index.get g.referencesByUsr key.usr).toList.find? fun id =>
    (g.reference? id).any fun r => r.owner == owner && r.toMention.key == key

/-! ## Trees of references -/

/-- The references nested directly in a reference. -/
def nestedReferences (g : Graph) (id : RefId) : List RefId :=
  ((g.reference? id).map (·.nested.toList)).getD []

/-- A reference, then everything nested in it, depth first. -/
def referenceTree (g : Graph) (id : RefId) : List RefId :=
  explore .depthFirst g.nestedReferences g.refIds [id]

/-- Every reference that a declaration makes: ordinary, structural and nested ones. -/
def referencesFrom (g : Graph) (id : DeclId) : List RefId :=
  match g.declaration? id with
  | some d => d.ownReferences.flatMap g.referenceTree
  | none => []

/-- The declaration at the end of the chain of owners, within a number of steps. -/
def ownerWithin (g : Graph) : Nat → RefId → Option DeclId
  | 0, _ => none
  | steps + 1, id =>
      match (g.reference? id).bind (·.owner) with
      | some (.declaration d) => some d
      | some (.reference outer) => g.ownerWithin steps outer
      | none => none

/-- The declaration that makes a reference.  A chain of owners without repetition is no longer
than the number of references. -/
def referencingDeclaration? (g : Graph) (id : RefId) : Option DeclId :=
  g.ownerWithin (g.references.size + 1) id

/-! ## The tree of declarations -/

/-- The declarations nested directly in a declaration. -/
def childrenOf (g : Graph) (id : DeclId) : List DeclId :=
  ((g.declaration? id).map (·.children)).getD []

/-- The declaration that encloses a declaration. -/
def parentOf? (g : Graph) (id : DeclId) : Option DeclId := (g.declaration? id).bind (·.parent)

/-- A declaration, then what encloses it, nearest first. -/
def lineage (g : Graph) (id : DeclId) : List DeclId :=
  explore .depthFirst (fun d => (g.parentOf? d).toList) g.declIds [id]

/-- The declarations that enclose a declaration, nearest first. -/
def ancestors (g : Graph) (id : DeclId) : List DeclId := (g.lineage id).tail

/-- The outermost enclosing declaration, or the declaration itself. -/
def topLevelAncestor (g : Graph) (id : DeclId) : DeclId := (g.ancestors id).getLast?.getD id

/-- A declaration and everything nested in it. -/
def subtree (g : Graph) (id : DeclId) : List DeclId :=
  explore .depthFirst g.childrenOf g.declIds [id]

/-- Everything nested in a declaration, in order. -/
def descendants (g : Graph) (id : DeclId) : List DeclId :=
  g.sortedDeclarations (g.subtree id).tail

/-- The declaration that encloses a declaration directly. -/
def parentDeclaration? (g : Graph) (id : DeclId) : Option Declaration :=
  (g.parentOf? id).bind g.declaration?

/-- Whether a declaration is a requirement: a protocol encloses it directly. -/
def isProtocolMember (g : Graph) (id : DeclId) : Bool :=
  (g.parentDeclaration? id).any fun p => p.kind == .protocolType

/-- The declarations neither used nor ignored, in order. -/
def unusedDeclarations (g : Graph) : List DeclId :=
  g.sortedDeclarations (g.declIds.filter fun id => !g.isUsed id && !g.isIgnored id)

end Graph

end Deadwood

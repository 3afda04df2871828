/-
  Inheritance, conformance and extension.

  The inheritance clause of a type is the structural references to classes and protocols, together
  with the ordinary ones that stand in such a clause.  Superclasses and subclasses are the closure
  of the direct relation, found by a search breadth first, so cycles do no harm.
-/
import Deadwood.Fault
import Deadwood.Graph.Query

namespace Deadwood

namespace Graph

/-- The references that satisfy a condition, among those of a list. -/
def referencesAmong (g : Graph) (ids : List RefId) (p : Reference → Bool) : List RefId :=
  ids.filter fun id => (g.reference? id).any p

/-! ## Inheritance -/

/-- Whether a reference stands in the inheritance clause of its owner. -/
def isInheritance (r : Reference) : Bool :=
  (r.kind == .classType || r.kind == .protocolType) &&
    (r.role.isConformance || (r.isRelated && r.role == .unknown))

/-- The inheritance clause of a type, in order. -/
def inheritedTypeReferences (g : Graph) (id : DeclId) : List RefId :=
  match g.declaration? id with
  | some d =>
      g.sortedReferences (g.referencesAmong (d.related.toList ++ d.references.toList) isInheritance)
  | none => []

/-- The superclasses named in the inheritance clause that are declared in the program. -/
def immediateSuperclasses (g : Graph) (id : DeclId) : List DeclId :=
  g.sortedDeclarations ((g.inheritedTypeReferences id).filterMap fun r => do
    let reference ← g.reference? r
    guard (reference.kind == .classType)
    let target ← g.explicitDeclarationWithUsr? reference.usr
    guard (target ≠ id)
    return target)

/-- All superclasses, nearest first. -/
def superclasses (g : Graph) (id : DeclId) : List DeclId :=
  (explore .breadthFirst g.immediateSuperclasses g.declIds [id]).tail

/-- The classes that name a class in their inheritance clause, in order. -/
def immediateSubclasses (g : Graph) (id : DeclId) : List DeclId :=
  g.sortedDeclarations ((g.referencesTo id).filterMap fun r => do
    let reference ← g.reference? r
    guard (reference.kind == .classType && reference.isStructural)
    let heir ← g.referencingDeclaration? r
    guard (heir ≠ id)
    let d ← g.declaration? heir
    guard (d.kind == .classType)
    return heir)

/-- All subclasses, in order. -/
def subclasses (g : Graph) (id : DeclId) : List DeclId :=
  g.sortedDeclarations (explore .breadthFirst g.immediateSubclasses g.declIds [id]).tail

/-- Whether the inheritance clause of a type, or of one of its superclasses, uses a name; the type
of that name need not be declared in the program. -/
def inheritsFromNamed (g : Graph) (id : DeclId) (name : String) : Bool :=
  (id :: g.superclasses id).any fun c =>
    (g.inheritedTypeReferences c).any fun r =>
      (g.reference? r).any fun reference => reference.nameText == name

/-! ## Extensions -/

/-- The reference that names what an extension extends.  Among the references to the extended kind,
one in that role comes first, then one with the extension's own name, then the first in order. -/
def extendedTypeReference (g : Graph) (extension : DeclId) : Except Fault (Option RefId) := do
  match g.declaration? extension with
  | none => throw (.missingDeclaration extension)
  | some d =>
      let kind ← d.kind.extended
      let candidates := g.sortedReferences (g.referencesAmong d.ownReferences (·.kind == kind))
      let byRole := candidates.find? fun r => (g.reference? r).any (·.role == .extendedType)
      let byName := candidates.find? fun r =>
        (g.reference? r).any fun x => x.nameText != "" && x.nameText == d.nameText
      return (byRole.or byName).or candidates.head?

/-- The declaration that an extension extends, when it is declared in the program. -/
def extendedDeclaration (g : Graph) (extension : DeclId) : Except Fault (Option DeclId) := do
  match ← g.extendedTypeReference extension with
  | none => return none
  | some r =>
      match g.reference? r with
      | some reference => return g.explicitDeclarationWithUsr? reference.usr
      | none => throw (.missingReference r)

/-- Whether a declaration is an extension of another one. -/
def isExtensionOf (g : Graph) (extension target : DeclId) : Bool :=
  match g.extendedDeclaration extension with
  | .ok (some d) => d == target
  | _ => false

/-- The protocol extensions of a protocol, in order. -/
def protocolExtensions (g : Graph) (id : DeclId) : List DeclId :=
  g.sortedDeclarations ((g.declarationsOfKind .protocolExtension).filter (g.isExtensionOf · id))

/-! ## Conformance -/

/-- Whether declarations of a kind can conform to a protocol. -/
def canConform (k : Kind) : Bool := k.isConcreteType || k.isExtension || k == .protocolType

/-- The declarations that name a protocol in a conformance clause, in order. -/
def conformingDeclarations (g : Graph) (id : DeclId) : List DeclId :=
  g.sortedDeclarations ((g.referencesTo id).filterMap fun r => do
    let reference ← g.reference? r
    guard reference.isStructural
    let conformer ← g.referencingDeclaration? r
    let d ← g.declaration? conformer
    guard (canConform d.kind && conformer ≠ id)
    return conformer)

/-- The first member of a declaration, in order, that bears a name and can stand for a
requirement of a kind. -/
def witness? (g : Graph) (owner : DeclId) (name : String) (kind : Kind) : Option DeclId :=
  (g.membersWhere owner fun m => m.nameText == name && m.kind.meets kind).head?

end Graph

end Deadwood

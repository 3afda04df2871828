/-
  Protocols: uses that reach implementations through requirements.

  1. **Default implementations** — a protocol refers to each of its extensions, and a requirement
     to the member of the extension that implements it by default.

  2. **Conformance** — the index records that an implementation refers to its requirement.  A call
     through the protocol names only the requirement, so these references are turned around: the
     requirement refers to its implementations.  A class may also satisfy a requirement with a
     member that it inherits; the requirement then refers to that member.
-/
import Deadwood.Graph.Edit
import Deadwood.Graph.Hierarchy
import Deadwood.Pass.Outcome

namespace Deadwood.Protocols

/-- Let `owner` refer to a declaration, structurally or as a use. -/
def refer (g : Graph) (owner target : DeclId) (isRelated : Bool) : Graph :=
  match g.declaration? target with
  | some d => g.addUse (d.toSymbol.mention isRelated) owner
  | none => g

/-! ## Default implementations -/

/-- The requirements of a protocol with the members of an extension that implement them. -/
def defaultImplementations (g : Graph) (proto extension : DeclId) : List (DeclId × DeclId) :=
  (g.membersWhere proto fun _ => true).filterMap fun requirement => do
    let d ← g.declaration? requirement
    let implementation ← g.witness? extension d.nameText d.kind
    return (requirement, implementation)

/-- Connect one extension with its protocol. -/
def connectOne (g : Graph) (extension : DeclId) : Outcome :=
  .andThen g (g.extendedDeclaration extension) fun
    | none => .done g
    | some proto =>
        let g := refer g proto extension false
        .done ((defaultImplementations g proto extension).foldl
          (fun g pair => refer g pair.1 pair.2 true) g)

/-- Connect the extensions of a list, one after the other, until one cannot be connected. -/
def connectEach (g : Graph) : List DeclId → Outcome
  | [] => .done g
  | extension :: rest =>
      let connected := connectOne g extension
      match connected.fault with
      | some _ => connected
      | none => connectEach connected.graph rest

/-- Connect every protocol with its extensions. -/
def connectExtensions (g : Graph) : Outcome :=
  connectEach g (g.declarationsOfKind .protocolExtension)

/-! ## Conformance -/

/-- The requirements of a protocol that a class satisfies with members it inherits, each with the
member of the nearest superclass that has one. -/
def inheritedBy (g : Graph) (requirements : List DeclId) (conformer : DeclId) :
    List (DeclId × DeclId) :=
  let superclasses := g.superclasses conformer
  requirements.filterMap fun requirement => do
    let d ← g.declaration? requirement
    guard d.kind.isWitness
    guard (g.witness? conformer d.nameText d.kind).isNone
    let implementation ← superclasses.findSome? fun c => g.witness? c d.nameText d.kind
    return (requirement, implementation)

/-- The requirements of a protocol that conforming classes satisfy with inherited members. -/
def inheritedFor (g : Graph) (proto : DeclId) : List (DeclId × DeclId) :=
  let requirements := g.membersWhere proto fun _ => true
  let classes := (g.conformingDeclarations proto).filter fun c =>
    (g.declaration? c).any (·.kind == .classType)
  classes.flatMap (inheritedBy g requirements)

/-- What a pair of declarations is ordered by. -/
def pairKey (g : Graph) (pair : DeclId × DeclId) : Option Symbol.Key × Option Symbol.Key :=
  let key id := (g.declaration? id).map (·.toSymbol.key)
  (key pair.1, key pair.2)

/-- Whether a pair does not come after another one. -/
def pairLe (g : Graph) (a b : DeclId × DeclId) : Bool :=
  let (a₁, a₂) := pairKey g a
  let (b₁, b₂) := pairKey g b
  ((compare a₁ b₁).then (compare a₂ b₂)).isLE

/-- Insert a pair in front of the first one that comes after it or is level with it. -/
def insertPair (g : Graph) (pair : DeclId × DeclId) :
    List (DeclId × DeclId) → List (DeclId × DeclId)
  | [] => [pair]
  | p :: ps => if pairLe g pair p then pair :: p :: ps else p :: insertPair g pair ps

/-- All pairs of a requirement and an inherited member that satisfies it, in order; pairs that are
level stay in the order in which they were found. -/
def inheritedImplementations (g : Graph) : List (DeclId × DeclId) :=
  ((g.declarationsOfKind .protocolType).flatMap (inheritedFor g)).foldr (insertPair g) []

/-- Whether a declaration is a member of a protocol extension. -/
def isDefaultImplementation (g : Graph) (id : DeclId) : Bool :=
  (g.parentDeclaration? id).any fun p => p.kind == .protocolExtension

/-- Turn around one reference of an implementation to its requirement.  The reference of a default
implementation stays as well. -/
def invertOne (g : Graph) (id : RefId) : Graph :=
  let turned : Option (DeclId × DeclId) := do
    let reference ← g.reference? id
    let requirement ← g.declarationWithUsr? reference.usr
    guard (g.isProtocolMember requirement)
    let conformer ← g.referencingDeclaration? id
    guard (conformer ≠ requirement && !g.isProtocolMember conformer)
    guard (g.hasDeclaration conformer)
    return (requirement, conformer)
  match turned with
  | none => g
  | some (requirement, conformer) =>
      let added := refer g requirement conformer true
      if isDefaultImplementation added conformer then added else added.removeReference id

/-- Let requirements refer to everything that satisfies them. -/
def invertConformances (g : Graph) : Graph :=
  let g := (inheritedImplementations g).foldl (fun g pair => refer g pair.1 pair.2 true) g
  let candidates := g.refIdsWhere fun r => r.isRelated && r.kind.isWitness
  (g.sortedReferences candidates).foldl invertOne g

end Deadwood.Protocols

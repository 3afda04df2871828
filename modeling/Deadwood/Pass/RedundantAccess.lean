/-
  Written accessibility wider than the uses of a declaration need.

  1. **Candidates** — declarations with a written tier that are used, and neither retained nor
     ignored nor made by the compiler.

  2. **Uses** — a declaration is used where something refers to it, to anything nested in it or,
     for a protocol, to the default implementations of its extensions.

  3. **Judgement** — a tier is redundant when every use would still see the declaration in a
     narrower one.  Members that property wrappers use, and members that satisfy a requirement of a
     protocol of that tier or a wider one, are never redundant.

  4. **Extensions** — an extension is not judged on its own: it follows what it extends, when both
     stand in the same scope.
-/
import Deadwood.Graph.Edit
import Deadwood.Graph.Hierarchy
import Deadwood.Pass.Outcome
import Deadwood.Pass.Retention

namespace Deadwood.RedundantAccess

/-! ## Candidates and uses -/

/-- The declarations that may have a redundant tier, in order. -/
def candidates (g : Graph) (tier : Tier) : List DeclId :=
  g.sortedDeclarations ((g.declIdsWhere fun d => d.access.isWritten tier && !d.isImplicit).filter
    fun id => g.isUsed id && !g.isRetained id && !g.isIgnored id)

/-- Whether a declaration is an extension. -/
def isExtension (g : Graph) (id : DeclId) : Bool := (g.declaration? id).any (·.kind.isExtension)

/-- The uses of a declaration. -/
def usesOf (g : Graph) (id : DeclId) : List RefId :=
  let defaults := (g.protocolExtensions id).flatMap g.descendants
  g.sortedReferences ((id :: g.descendants id ++ defaults).flatMap g.referencesTo)

/-- Whether the syntax of property wrappers uses a declaration. -/
def isWrapperMember (g : Graph) (id : DeclId) : Bool :=
  (g.parentDeclaration? id).any (·.toSymbol.hasAttribute "propertyWrapper") &&
    (g.declaration? id).any Retention.isWrapperMember

/-- Whether a declaration satisfies a requirement of a protocol at least as wide as a tier. -/
def satisfiesRequirement (g : Graph) (id : DeclId) (tier : Tier) : Bool :=
  (g.referencesTo id).any fun r =>
    (g.reference? r).any (·.isRelated) &&
      (g.referencingDeclaration? r).any fun requirement =>
        requirement ≠ id && g.isProtocolMember requirement &&
          (g.parentDeclaration? requirement).any fun p => tier.rank ≤ p.access.tier.rank

/-- Whether a declaration has to keep its tier whatever its uses are. -/
def isBound (g : Graph) (id : DeclId) (tier : Tier) : Bool :=
  isWrapperMember g id || satisfiesRequirement g id tier

/-! ## Scopes -/

/-- Whether references all come from inside the outermost declaration around a declaration. -/
def areWithinTopLevel (g : Graph) (id : DeclId) (references : List RefId) : Bool :=
  let top := g.topLevelAncestor id
  references.all fun r =>
    (g.referencingDeclaration? r).any fun owner => g.topLevelAncestor owner == top

/-- Whether two declarations stand in the same file. -/
def sameFile (g : Graph) (a b : DeclId) : Bool :=
  match g.declaration? a, g.declaration? b with
  | some x, some y => x.location.file.same y.location.file
  | _, _ => false

/-- Whether the files of two declarations are compiled into the same modules. -/
def sameModules (g : Graph) (a b : DeclId) : Bool :=
  match g.declaration? a, g.declaration? b with
  | some x, some y => g.modulesOf x.location.file == g.modulesOf y.location.file
  | _, _ => false

/-! ## Judgement -/

/-- Whether a reference comes from outside of a declaration's modules, and its file does not open
one of them to its tests. -/
def isCrossModule (g : Graph) (id : DeclId) (r : RefId) : Bool :=
  match g.declaration? id, g.reference? r with
  | some d, some x =>
      let declaredIn := g.modulesOf d.location.file
      let referredFrom := g.modulesOf x.location.file
      let opened := (g.file? x.location.file).any fun file =>
        declaredIn.toList.any file.importsTestable
      !referredFrom.subset declaredIn && !opened
  | _, _ => false

/-- Whether another module uses a declaration. -/
def isUsedCrossModule (g : Graph) (id : DeclId) : Bool := (usesOf g id).any (isCrossModule g id)

/-- Whether a body that other modules take over refers to a declaration. -/
def hasInlinableCaller (g : Graph) (id : DeclId) : Bool :=
  (g.referencesTo id).any fun r =>
    (g.referencingDeclaration? r).any fun owner =>
      (owner :: g.ancestors owner).any fun d =>
        (g.declaration? d).any (Retention.hasOneOf ["inlinable", "usableFromInline"])

/-- Whether a declaration stands in the signature of something exposed that other modules use. -/
def isInExposedSignature (g : Graph) (id : DeclId) : Bool :=
  (g.referencesTo id).any fun r =>
    (g.reference? r).any (·.role.isSignature) &&
      (g.referencingDeclaration? r).any fun owner =>
        (g.declaration? owner).any (·.access.tier.isExposed) && owner ≠ id &&
          (g.isRetained owner || isUsedCrossModule g owner)

/-- A narrower tier for a public declaration: internal, when no other module needs it. -/
def suggestForPublic (g : Graph) (id : DeclId) : Option Tier :=
  if !isUsedCrossModule g id && !hasInlinableCaller g id && !isBound g id .publicTier &&
      !isInExposedSignature g id then some .internalTier
  else none

/-- A narrower tier for an internal declaration, when no other file needs it. -/
def suggestForInternal (g : Graph) (id : DeclId) : Option Tier := do
  let d ← g.declaration? id
  guard (!isBound g id .internalTier)
  let uses := usesOf g id
  guard (uses.all fun r => (g.reference? r).any fun x => x.location.file.same d.location.file)
  return if areWithinTopLevel g id uses then .privateTier else .fileprivateTier

/-- A narrower tier for a fileprivate declaration: private, when only its own outermost
declaration needs it. -/
def suggestForFileprivate (g : Graph) (id : DeclId) : Option Tier :=
  if !isBound g id .fileprivateTier && areWithinTopLevel g id (usesOf g id) then some .privateTier
  else none

/-! ## Recording -/

/-- Record a redundant tier. -/
def record (g : Graph) (declared : Tier) (id : DeclId) (suggested : Tier) : Graph :=
  match g.declaration? id with
  | some d =>
      let file := d.location.file
      g.recordRedundantAccess id ⟨declared, suggested, g.modulesOf file, file⟩
  | none => g

/-- The tier that an extension takes over from what it extends, if that was found redundant. -/
def inherited (g : Graph) (declared : Tier) (sameScope : Graph → DeclId → DeclId → Bool)
    (extension : DeclId) : Except Fault (Option (DeclId × Tier)) := do
  let extended ← g.extendedDeclaration extension
  return do
    let target ← extended
    let result ← g.redundantAccess.find? target
    guard (result.declared == declared && sameScope g extension target)
    return (extension, result.suggested)

/-- Judge one tier: first the declarations, then the extensions that follow them. -/
def judge (g : Graph) (declared : Tier) (suggest : Graph → DeclId → Option Tier)
    (sameScope : Graph → DeclId → DeclId → Bool) : Outcome :=
  let (extensions, others) := (candidates g declared).partition (isExtension g)
  let redundant := others.filterMap fun id => (suggest g id).map (id, ·)
  let g := redundant.foldl (fun g r => record g declared r.1 r.2) g
  .andThen g (extensions.mapM (inherited g declared sameScope)) fun followers =>
    .done ((followers.filterMap id).foldl (fun g r => record g declared r.1 r.2) g)

/-- Record public declarations that no other module needs, unless all of them are retained. -/
def markPublic (retainPublic : Bool) (g : Graph) : Outcome :=
  if retainPublic then .done g else judge g .publicTier suggestForPublic sameModules

/-- Record internal declarations that no other file needs. -/
def markInternal (g : Graph) : Outcome := judge g .internalTier suggestForInternal sameFile

/-- Record fileprivate declarations that only their own outermost declaration needs. -/
def markFileprivate (g : Graph) : Outcome :=
  judge g .fileprivateTier suggestForFileprivate sameFile

end Deadwood.RedundantAccess

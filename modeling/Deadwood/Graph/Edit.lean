/-
  Changes to the graph.

  1. **Program** — declarations and references are added, moved and removed; each operation keeps
     both ends of every link and the indices in step.  An operation on a handle that names nothing
     changes nothing; a declaration or reference added under something that is not there becomes a
     root.

  2. **Removal** — a declaration goes with everything nested in it and every reference these make;
     a reference goes with everything nested in it.  What goes is found first, by a search, and
     taken out one entry after the other.

  3. **Equal references** — an owner holds no two references with the same key: adding one that
     is already there answers the handle of the one that is there, and moving one to where its
     equal already is removes it.
-/
import Deadwood.Graph.Query

namespace Deadwood

namespace Graph

/-- Change the declaration that a handle names. -/
def modifyDeclaration (g : Graph) (id : DeclId) (f : Declaration → Declaration) : Graph :=
  { g with declarations := g.declarations.modify id.index f }

/-- Change the reference that a handle names. -/
def modifyReference (g : Graph) (id : RefId) (f : Reference → Reference) : Graph :=
  { g with references := g.references.modify id.index f }

/-! ## Links -/

/-- Enter a declaration among the children of its parent, or among the roots. -/
def linkDeclaration (g : Graph) (id : DeclId) (nesting : Nesting) : Option DeclId → Graph
  | some parent => g.modifyDeclaration parent (·.addChild nesting id)
  | none => { g with roots := g.roots.insert id }

/-- Strike a declaration off the children of its parent, or off the roots. -/
def unlinkDeclaration (g : Graph) (id : DeclId) : Option DeclId → Graph
  | some parent => g.modifyDeclaration parent (·.dropChild id)
  | none => { g with roots := g.roots.erase id }

/-- Enter a reference at its owner, or among the root references. -/
def linkReference (g : Graph) (id : RefId) (isRelated : Bool) : Option Owner → Graph
  | some (.declaration d) => g.modifyDeclaration d (·.addReference isRelated id)
  | some (.reference r) => g.modifyReference r fun x => { x with nested := x.nested.insert id }
  | none => { g with rootReferences := g.rootReferences.insert id }

/-- Strike a reference off its owner, or off the root references. -/
def unlinkReference (g : Graph) (id : RefId) : Option Owner → Graph
  | some (.declaration d) => g.modifyDeclaration d (·.dropReference id)
  | some (.reference r) => g.modifyReference r fun x => { x with nested := x.nested.erase id }
  | none => { g with rootReferences := g.rootReferences.erase id }

/-! ## Declarations -/

/-- Add a declaration as a member of its parent, or as a root when the parent is not there. -/
def addDeclaration (g : Graph) (s : Symbol) (parent : Option DeclId) : Graph × DeclId :=
  let id : DeclId := ⟨g.declarations.size⟩
  let parent := parent.filter g.hasDeclaration
  let linked := g.linkDeclaration id .member parent
  ({ linked with
      declarations := linked.declarations.push { s with parent }
      declarationsByUsr :=
        s.usrs.toList.foldl (fun index usr => Index.add index usr id) g.declarationsByUsr
      declarationsByKind := Index.add g.declarationsByKind s.kind id }, id)

/-- Add a parameter that the body of a function does not use: a declaration under the function,
which then lists it among its unused parameters instead of its members. -/
def addUnusedParameter (g : Graph) (s : Symbol) (function : DeclId) : Graph × DeclId :=
  let (g, id) := g.addDeclaration { s with kind := .parameter } (some function)
  (g.modifyDeclaration function fun d => (d.dropChild id).addChild .unusedParameter id, id)

/-- Give a declaration one more identifier. -/
def addUsr (g : Graph) (id : DeclId) (usr : String) : Graph :=
  if g.hasDeclaration id then
    { g.modifyDeclaration id fun d => { d with usrs := d.usrs.insert usr } with
      declarationsByUsr := Index.add g.declarationsByUsr usr id }
  else g

/-- Set the accessibility of a declaration. -/
def setAccess (g : Graph) (id : DeclId) (access : Access) : Graph :=
  g.modifyDeclaration id fun d => { d with access }

/-- Move a declaration under another one; a parameter stays a parameter. -/
def moveDeclaration (g : Graph) (id target : DeclId) : Graph :=
  match g.declaration? id with
  | some d =>
      if g.hasDeclaration target then
        let wasParameter := (g.parentDeclaration? id).any fun p => p.parameters.contains id
        let nesting : Nesting := if wasParameter then .unusedParameter else .member
        let moved := (g.unlinkDeclaration id d.parent).linkDeclaration id nesting (some target)
        moved.modifyDeclaration id fun d => { d with parent := some target }
      else g
  | none => g

/-! ## References -/

/-- Add a reference to an owner, or as a root when the owner is not there.  Where the owner has an
equal reference, that one is answered and nothing changes. -/
def addReference (g : Graph) (m : Mention) (owner : Option Owner) : Graph × RefId :=
  match g.equalReference? m.key owner with
  | some id => (g, id)
  | none =>
      let id : RefId := ⟨g.references.size⟩
      let owner := owner.filter g.hasOwner
      let linked := g.linkReference id m.isRelated owner
      ({ linked with
          references := linked.references.push { m with owner }
          referencesByUsr := Index.add g.referencesByUsr m.usr id }, id)

/-- Add a reference to a declaration. -/
def addUse (g : Graph) (m : Mention) (owner : DeclId) : Graph :=
  (g.addReference m (some (.declaration owner))).1

/-- Take a single reference out of the graph, and nothing that is nested in it. -/
def takeReference (g : Graph) (id : RefId) : Graph :=
  match g.reference? id with
  | some r =>
      let unlinked := g.unlinkReference id r.owner
      { unlinked with
        references := unlinked.references.erase id.index
        referencesByUsr := Index.drop g.referencesByUsr r.usr id }
  | none => g

/-- Remove a reference and everything nested in it. -/
def removeReference (g : Graph) (id : RefId) : Graph := (g.referenceTree id).foldl takeReference g

/-- Move a reference to a declaration; where the declaration has an equal one, remove it. -/
def moveReference (g : Graph) (id : RefId) (target : DeclId) : Graph :=
  match g.reference? id with
  | some r =>
      let owner := some (Owner.declaration target)
      if !g.hasDeclaration target || r.owner == owner then g
      else if (g.equalReference? r.toMention.key owner).isSome then g.removeReference id
      else
        ((g.unlinkReference id r.owner).linkReference id r.isRelated owner).modifyReference
          id fun r => { r with owner }
  | none => g

/-! ## Removal of declarations -/

/-- Take a single declaration out of the graph, with the references it makes. -/
def takeDeclaration (g : Graph) (id : DeclId) : Graph :=
  match g.declaration? id with
  | some d =>
      let g := d.ownReferences.foldl removeReference g
      let unlinked := g.unlinkDeclaration id d.parent
      { unlinked with
        declarations := unlinked.declarations.erase id.index
        declarationsByUsr :=
          d.usrs.toList.foldl (fun index usr => Index.drop index usr id) g.declarationsByUsr
        declarationsByKind := Index.drop g.declarationsByKind d.kind id
        marks := g.marks.forget id }
  | none => g

/-- Remove a declaration, everything nested in it, and every reference these make. -/
def removeDeclaration (g : Graph) (id : DeclId) : Graph := (g.subtree id).foldl takeDeclaration g

/-! ## Marks and results -/

/-- Put a mark on a declaration that is there. -/
def mark (g : Graph) (mark : Mark) (id : DeclId) : Graph :=
  if g.hasDeclaration id then { g with marks := g.marks.add mark id } else g

/-- Put a mark on each declaration of a list. -/
def markAll (g : Graph) (mark : Mark) (ids : List DeclId) : Graph :=
  ids.foldl (fun g id => g.mark mark id) g

/-- Keep declarations alive. -/
def retainAll (g : Graph) (ids : List DeclId) : Graph := g.markAll .retained ids

def recordFolded (g : Graph) (extension target : DeclId) : Graph :=
  { g with folded := g.folded.insert extension target }

def recordRedundantProtocol (g : Graph) (id : DeclId) (result : RedundantProtocol) : Graph :=
  { g with redundantProtocols := g.redundantProtocols.insert id result }

def recordRedundantAccess (g : Graph) (id : DeclId) (result : RedundantAccess) : Graph :=
  { g with redundantAccess := g.redundantAccess.insert id result }

def recordUnusedImport (g : Graph) (i : UnusedImport) : Graph :=
  { g with unusedImports := g.unusedImports.insert i }

/-! ## Files and modules -/

/-- Register a file; a file seen again is merged with what is known of it. -/
def addFile (g : Graph) (file : SourceFile) : Graph :=
  { g with
    files := g.files.alter file.path.components fun known =>
      some ((known.map (·.merge file)).getD file) }

/-- Record that a module passes another one on. -/
def addModuleExport (g : Graph) (module exported : String) : Graph :=
  { g with exports := Index.add g.exports module exported }

/-- Record that an asset names a declaration. -/
def addAsset (g : Graph) (asset : AssetReference) : Graph :=
  { g with assets := g.assets.insert asset }

end Graph

end Deadwood

/-
  Merging prepared fragments into a graph.

  1. **Program** — a fragment brings its file, its declarations and its outer references, in this
     order.  Fragments are merged one after the other.

  2. **Partial definitions** — a declaration that shares an identifier, the place and the kind of
     one already in the graph is joined with it: what the two say is united, and what is nested in
     the newcomer goes to the one that was there.
-/
import Deadwood.Graph.Edit
import Deadwood.Ingest.Prepare

namespace Deadwood

namespace Graph

/-! ## References -/

mutual

/-- Add a reference and what is nested in it. -/
def mergeReference (g : Graph) (owner : Option Owner) : ReferenceTree → Graph
  | ⟨mention, nested⟩ =>
      let added := g.addReference mention owner
      added.1.mergeReferences (some (.reference added.2)) nested

/-- Add the references of a list. -/
def mergeReferences (g : Graph) (owner : Option Owner) : List ReferenceTree → Graph
  | [] => g
  | t :: ts => (g.mergeReference owner t).mergeReferences owner ts

end

/-! ## Declarations -/

/-- The declaration that a newcomer is another part of: the one of its first identifier that
leads to a declaration of the same place and kind. -/
def partner? (g : Graph) (s : Symbol) : Option DeclId :=
  s.usrs.toList.findSome? fun usr =>
    (g.declarationWithUsr? usr).filter fun id =>
      (g.declaration? id).any fun d =>
        d.kind == s.kind && d.location.place == s.location.place

/-- What two parts of a definition say together, apart from their identifiers. -/
def joinParts (d : Declaration) (s : Symbol) : Declaration :=
  { d with
    attributes := d.attributes.union s.attributes
    modifiers := d.modifiers.union s.modifiers
    directives := SourceFile.appendNew d.directives s.directives
    name := d.name.or s.name
    access := if !d.access.written && s.access.written then s.access else d.access
    isImplicit := d.isImplicit && s.isImplicit
    isObjc := d.isObjc || s.isObjc }

/-- Join a newcomer with a declaration of the graph. -/
def unify (g : Graph) (id : DeclId) (s : Symbol) : Graph :=
  (s.usrs.toList.foldl (fun g usr => g.addUsr id usr) g).modifyDeclaration id (joinParts · s)

/-- Add a symbol, or join it with the declaration that it is another part of. -/
def placeSymbol (g : Graph) (s : Symbol) (nesting : Nesting) (parent : Option DeclId) :
    Graph × DeclId :=
  match g.partner? s with
  | some id => (g.unify id s, id)
  | none =>
      match nesting, parent with
      | .unusedParameter, some function => g.addUnusedParameter s function
      | _, parent => g.addDeclaration s parent

mutual

/-- Add a declaration, what is nested in it, and the references it makes. -/
def mergeDeclaration (g : Graph) (nesting : Nesting) (parent : Option DeclId) :
    DeclarationTree → Graph
  | ⟨symbol, members, parameters, references⟩ =>
      let placed := g.placeSymbol symbol nesting parent
      ((placed.1.mergeDeclarations .member (some placed.2) members).mergeDeclarations
        .unusedParameter (some placed.2) parameters).mergeReferences
        (some (.declaration placed.2)) references

/-- Add the declarations of a list. -/
def mergeDeclarations (g : Graph) (nesting : Nesting) (parent : Option DeclId) :
    List DeclarationTree → Graph
  | [] => g
  | t :: ts => (g.mergeDeclaration nesting parent t).mergeDeclarations nesting parent ts

end

/-! ## Documents -/

/-- Merge a fragment. -/
def merge (g : Graph) (f : PreparedFragment) : Graph :=
  ((g.addFile f.file).mergeDeclarations .member none f.declarations).mergeReferences none
    f.references

/-- Record the module exports and the assets of a document. -/
def addMetadata (g : Graph) (doc : Document) : Graph :=
  let withExports := doc.moduleExports.entries.foldl (fun g e =>
    e.2.foldl (fun g exported => g.addModuleExport e.1 exported) g) g
  doc.assetReferences.foldl addAsset withExports

/-- Merge a document: its fragments in order, then its metadata. -/
def ingest (g : Graph) (doc : Document) : Graph × List Warning :=
  let prepared := doc.fragments.map Fragment.prepare
  (((prepared.map (·.1)).foldl merge g).addMetadata doc, prepared.flatMap (·.2))

/-- The graph of a document. -/
def ofDocument (doc : Document) : Graph × List Warning := (∅ : Graph).ingest doc

end Graph

end Deadwood

/-
  From the nodes of a document to symbols and mentions.

  Preparing a fragment does not look at the graph, so fragments can be prepared apart from each
  other.  A node without an identifier is passed over, with all that is nested in it, and leaves a
  warning.  Warnings come in the order of the nodes, and inside a declaration its references come
  before the declarations nested in it.
-/
import Deadwood.Document.Basic
import Deadwood.Warning

namespace Deadwood

/-- A mention with the mentions nested in its expression. -/
structure ReferenceTree where
  mention : Mention
  nested : List ReferenceTree

/-- A symbol with the symbols nested in it and the mentions it makes. -/
structure DeclarationTree where
  symbol : Symbol
  members : List DeclarationTree
  parameters : List DeclarationTree
  references : List ReferenceTree

/-- A fragment ready to be merged into a graph. -/
structure PreparedFragment where
  file : SourceFile
  declarations : List DeclarationTree
  references : List ReferenceTree

/-! ## References -/

/-- What a reference node says, in a fragment of a file. -/
def ReferenceNode.mention (n : ReferenceNode) (path : Path) (isRelated : Bool) : Mention :=
  { kind := n.kind, usr := n.usr, name := n.name, location := ⟨n.file.getD path, n.line, n.column⟩,
    role := n.role, isRelated }

mutual

/-- Prepare a reference.  What is nested in it is never structural. -/
def prepareReference (path : Path) (isRelated : Bool) :
    ReferenceNode → Option ReferenceTree × List Warning
  | ⟨kind, usr, name, file, line, column, role, references⟩ =>
      let node : ReferenceNode := ⟨kind, usr, name, file, line, column, role, []⟩
      let mention := node.mention path isRelated
      if usr = "" then (none, [.anonymousReference kind mention.location])
      else
        let nested := prepareReferences path false references
        (some ⟨mention, nested.1⟩, nested.2)

/-- Prepare the references of a list. -/
def prepareReferences (path : Path) (isRelated : Bool) :
    List ReferenceNode → List ReferenceTree × List Warning
  | [] => ([], [])
  | n :: ns =>
      let first := prepareReference path isRelated n
      let rest := prepareReferences path isRelated ns
      (first.1.toList ++ rest.1, first.2 ++ rest.2)

end

/-! ## Declarations -/

/-- Where a declaration node stands, in a fragment of a file. -/
def DeclarationNode.location (n : DeclarationNode) (path : Path) : Location :=
  ⟨n.file.getD path, n.line, n.column⟩

/-- The accessibility of a declaration node. -/
def DeclarationNode.access (n : DeclarationNode) : Access :=
  match n.accessibility with
  | some tier => ⟨tier, n.accessibilityExplicit.getD true⟩
  | none => .unwritten

/-- What a declaration node says, in a fragment of a file; none when it has no identifier. -/
def DeclarationNode.symbol? (n : DeclarationNode) (path : Path) : Option Symbol :=
  let usrs := n.usrs.filter (· ≠ "")
  if usrs = [] then none
  else some
    { kind := n.kind
      usrs := SortedSet.ofList usrs
      name := n.name
      location := n.location path
      access := n.access
      attributes := SortedSet.ofList n.attributes
      modifiers := SortedSet.ofList n.modifiers
      directives := Directive.parseAll n.comments
      isImplicit := n.isImplicit
      isObjc := n.isObjcAccessible }

mutual

/-- Prepare a declaration. -/
def prepareDeclaration (path : Path) : DeclarationNode → Option DeclarationTree × List Warning
  | ⟨kind, usrs, name, file, line, column, accessibility, accessibilityExplicit, attributes,
      modifiers, comments, isImplicit, isObjcAccessible, declarations, unusedParameters,
      references, related⟩ =>
      let node : DeclarationNode :=
        ⟨kind, usrs, name, file, line, column, accessibility, accessibilityExplicit, attributes,
          modifiers, comments, isImplicit, isObjcAccessible, [], [], [], []⟩
      match node.symbol? path with
      | none => (none, [.anonymousDeclaration kind (node.location path)])
      | some symbol =>
          let uses := prepareReferences path false references
          let relations := prepareReferences path true related
          let members := prepareDeclarations path declarations
          let parameters := prepareDeclarations path unusedParameters
          (some ⟨symbol, members.1, parameters.1, uses.1 ++ relations.1⟩,
            uses.2 ++ relations.2 ++ members.2 ++ parameters.2)

/-- Prepare the declarations of a list. -/
def prepareDeclarations (path : Path) :
    List DeclarationNode → List DeclarationTree × List Warning
  | [] => ([], [])
  | n :: ns =>
      let first := prepareDeclaration path n
      let rest := prepareDeclarations path ns
      (first.1.toList ++ rest.1, first.2 ++ rest.2)

end

/-! ## Fragments -/

/-- The file that a file node describes. -/
def FileNode.sourceFile (f : FileNode) : SourceFile :=
  { path := f.path, modules := f.modules, imports := f.imports,
    directives := Directive.parseAll f.comments }

/-- Prepare a fragment. -/
def Fragment.prepare (f : Fragment) : PreparedFragment × List Warning :=
  let declarations := prepareDeclarations f.file.path f.declarations
  let references := prepareReferences f.file.path false f.references
  (⟨f.file.sourceFile, declarations.1, references.1⟩, declarations.2 ++ references.2)

end Deadwood

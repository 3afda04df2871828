/-
  Graph documents as JSON.

  1. **Writing** — every field is written, defaults included, with one exception: the comments of
     a file are read but not written.  What they ask for is neither: it is found from them later.

  2. **Records** — a record is an object, or an array of its fields in the order in which the format
     lists them (`fieldNames`); both are read as fields by name.  The map of what modules pass on is
     no record, and is an object only.

  3. **Reading** — a field that has a default may be left out, of an array with all that follow it;
     unknown fields of an object are passed over, but an array has no room for more; a known field
     that stands twice, or holds a value of another form, makes the document invalid.

  4. **Trees (`tree?`)** — references and declarations hold nodes of their own form.  These are read
     together with the fields that hold them, so that reading follows the JSON value.
-/
import Deadwood.Document.Basic
import Deadwood.Json.Basic

namespace Deadwood

open Json

/-! ## Writing -/

/-- Text, or `null` for none. -/
def Json.ofOption {α : Type} (write : α → Json) : Option α → Json
  | some x => write x
  | none => .null

/-- A list of texts. -/
def Json.texts (items : List String) : Json := .arr (items.map Json.str)

mutual

/-- A reference with all that is nested in it. -/
def ReferenceNode.toJson : ReferenceNode → Json
  | ⟨kind, usr, name, file, line, column, role, references⟩ => .obj [
      ("kind", .str kind.label),
      ("usr", .str usr),
      ("name", ofOption .str name),
      ("file", ofOption (fun p => .str p.text) file),
      ("line", .nat line),
      ("column", .nat column),
      ("role", .str role.label),
      ("references", .arr (ReferenceNode.toJsonAll references))]

/-- References of a list. -/
def ReferenceNode.toJsonAll : List ReferenceNode → List Json
  | [] => []
  | n :: ns => n.toJson :: ReferenceNode.toJsonAll ns

end

mutual

/-- A declaration with all that is nested in it. -/
def DeclarationNode.toJson : DeclarationNode → Json
  | ⟨kind, usrs, name, file, line, column, accessibility, accessibilityExplicit, attributes,
      modifiers, comments, isImplicit, isObjcAccessible, declarations, unusedParameters,
      references, related⟩ => .obj [
      ("kind", .str kind.label),
      ("usrs", texts usrs),
      ("name", ofOption .str name),
      ("file", ofOption (fun p => .str p.text) file),
      ("line", .nat line),
      ("column", .nat column),
      ("accessibility", ofOption (fun t => .str t.label) accessibility),
      ("accessibility_explicit", ofOption .bool accessibilityExplicit),
      ("attributes", texts attributes),
      ("modifiers", texts modifiers),
      ("comments", texts comments),
      ("is_implicit", .bool isImplicit),
      ("is_objc_accessible", .bool isObjcAccessible),
      ("declarations", .arr (DeclarationNode.toJsonAll declarations)),
      ("unused_parameters", .arr (DeclarationNode.toJsonAll unusedParameters)),
      ("references", .arr (ReferenceNode.toJsonAll references)),
      ("related", .arr (ReferenceNode.toJsonAll related))]

/-- Declarations of a list. -/
def DeclarationNode.toJsonAll : List DeclarationNode → List Json
  | [] => []
  | n :: ns => n.toJson :: DeclarationNode.toJsonAll ns

end

/-- An import statement. -/
def ImportStatement.toJson (i : ImportStatement) : Json := .obj [
    ("module", .str i.module),
    ("is_testable", .bool i.isTestable),
    ("is_exported", .bool i.isExported),
    ("line", .nat i.line),
    ("column", .nat i.column)]

/-- A file, without its comments. -/
def FileNode.toJson (f : FileNode) : Json := .obj [
    ("path", .str f.path.text),
    ("modules", texts f.modules.toList),
    ("imports", .arr (f.imports.map (·.toJson)))]

/-- An asset's mention of a declaration. -/
def AssetReference.toJson (a : AssetReference) : Json := .obj [
    ("name", .str a.name),
    ("source", .str a.source.label)]

/-- A fragment. -/
def Fragment.toJson (f : Fragment) : Json := .obj [
    ("file", f.file.toJson),
    ("declarations", .arr (DeclarationNode.toJsonAll f.declarations)),
    ("references", .arr (ReferenceNode.toJsonAll f.references))]

/-- A document. -/
def Document.toJson (d : Document) : Json := .obj [
    ("fragments", .arr (d.fragments.map (·.toJson))),
    ("module_exports", .obj (d.moduleExports.entries.map fun e => (e.1, texts e.2))),
    ("asset_references", .arr (d.assetReferences.map (·.toJson)))]

/-! ## Reading -/

/-- A path. -/
def Json.path? (j : Json) : Option Path := j.str?.map Path.mk

/-- A list of texts. -/
def Json.texts? : Json → Option (List String) := list? str?

/-! ### Trees -/

section Trees

variable {α : Type}

/-- The nodes read from the fields of a name: none, or those of its only field. -/
def soleNodes (read : List (String × List α)) (name : String) : Option (List α) :=
  match (read.filter fun f => f.1 == name).map (·.2) with
  | [] => some []
  | [nodes] => some nodes
  | _ => none

variable (names : List String) (holds : String → Bool)
  (ofFields? : List (String × Json) → List (String × List α) → Option α)

mutual

/-- A record with all that is nested in it: some of its fields hold nodes of the same form, and
`ofFields?` says what the record is, given the nodes read from these. -/
def tree? : Json → Option α
  | .obj fields => do ofFields? fields (← nodesOf? fields)
  | .arr items => do
      let fields ← positional? names items
      ofFields? fields (← nodesAt? names items)
  | _ => none

/-- The nodes in the fields of an object, by field. -/
def nodesOf? : List (String × Json) → Option (List (String × List α))
  | [] => some []
  | (name, j) :: rest =>
      if holds name then do
        let nodes ← nodes? j
        return (name, nodes) :: (← nodesOf? rest)
      else nodesOf? rest

/-- The same for fields that stand in the order of their names. -/
def nodesAt? : List String → List Json → Option (List (String × List α))
  | name :: others, j :: rest =>
      if holds name then do
        let nodes ← nodes? j
        return (name, nodes) :: (← nodesAt? others rest)
      else nodesAt? others rest
  | _, _ => some []

/-- An array of nodes. -/
def nodes? : Json → Option (List α)
  | .arr items => trees? items
  | _ => none

/-- The nodes of a list. -/
def trees? : List Json → Option (List α)
  | [] => some []
  | j :: js => do return (← tree? j) :: (← trees? js)

end

end Trees

/-! ### Records -/

/-- The fields of a reference. -/
def ReferenceNode.fieldNames : List String :=
  ["kind", "usr", "name", "file", "line", "column", "role", "references"]

/-- Whether a field of a reference holds references. -/
def ReferenceNode.holdsNodes (name : String) : Bool := name == "references"

/-- A reference, given the references nested in it. -/
def ReferenceNode.ofFields? (fields : List (String × Json))
    (nodes : List (String × List ReferenceNode)) : Option ReferenceNode := do
  return {
    kind := ← required fields "kind" (case? Kind.ofLabel?)
    usr := ← required fields "usr" str?
    name := ← optional fields "name" none (nullable? str?)
    file := ← optional fields "file" none (nullable? path?)
    line := ← required fields "line" natural?
    column := ← optional fields "column" 1 natural?
    role := ← optional fields "role" .unknown (case? Role.ofLabel?)
    references := ← soleNodes nodes "references" }

/-- A reference with all that is nested in it. -/
def ReferenceNode.ofJson? : Json → Option ReferenceNode :=
  tree? ReferenceNode.fieldNames ReferenceNode.holdsNodes ReferenceNode.ofFields?

/-- The fields of a declaration. -/
def DeclarationNode.fieldNames : List String :=
  ["kind", "usrs", "name", "file", "line", "column", "accessibility", "accessibility_explicit",
    "attributes", "modifiers", "comments", "is_implicit", "is_objc_accessible", "declarations",
    "unused_parameters", "references", "related"]

/-- Whether a field of a declaration holds declarations. -/
def DeclarationNode.holdsNodes (name : String) : Bool :=
  name == "declarations" || name == "unused_parameters"

/-- A declaration, given the declarations nested in it. -/
def DeclarationNode.ofFields? (fields : List (String × Json))
    (nodes : List (String × List DeclarationNode)) : Option DeclarationNode := do
  return {
    kind := ← required fields "kind" (case? Kind.ofLabel?)
    usrs := ← optional fields "usrs" [] texts?
    name := ← optional fields "name" none (nullable? str?)
    file := ← optional fields "file" none (nullable? path?)
    line := ← required fields "line" natural?
    column := ← optional fields "column" 1 natural?
    accessibility := ← optional fields "accessibility" none (nullable? (case? Tier.ofLabel?))
    accessibilityExplicit := ← optional fields "accessibility_explicit" none (nullable? bool?)
    attributes := ← optional fields "attributes" [] texts?
    modifiers := ← optional fields "modifiers" [] texts?
    comments := ← optional fields "comments" [] texts?
    isImplicit := ← optional fields "is_implicit" false bool?
    isObjcAccessible := ← optional fields "is_objc_accessible" false bool?
    declarations := ← soleNodes nodes "declarations"
    unusedParameters := ← soleNodes nodes "unused_parameters"
    references := ← optional fields "references" [] (list? ReferenceNode.ofJson?)
    related := ← optional fields "related" [] (list? ReferenceNode.ofJson?) }

/-- A declaration with all that is nested in it. -/
def DeclarationNode.ofJson? : Json → Option DeclarationNode :=
  tree? DeclarationNode.fieldNames DeclarationNode.holdsNodes DeclarationNode.ofFields?

/-- The fields of an import statement. -/
def ImportStatement.fieldNames : List String :=
  ["module", "is_testable", "is_exported", "line", "column"]

/-- An import statement. -/
def ImportStatement.ofJson? : Json → Option ImportStatement :=
  record? ImportStatement.fieldNames fun fields => do return {
    module := ← required fields "module" str?
    isTestable := ← optional fields "is_testable" false bool?
    isExported := ← optional fields "is_exported" false bool?
    line := ← required fields "line" natural?
    column := ← optional fields "column" 1 natural? }

/-- The fields of a file. -/
def FileNode.fieldNames : List String := ["path", "modules", "imports", "comments"]

/-- A file. -/
def FileNode.ofJson? : Json → Option FileNode :=
  record? FileNode.fieldNames fun fields => do return {
    path := ← required fields "path" path?
    modules := SortedSet.ofList (← required fields "modules" texts?)
    imports := ← optional fields "imports" [] (list? ImportStatement.ofJson?)
    comments := ← optional fields "comments" [] texts? }

/-- The fields of an asset's mention. -/
def AssetReference.fieldNames : List String := ["name", "source"]

/-- An asset's mention of a declaration. -/
def AssetReference.ofJson? : Json → Option AssetReference :=
  record? AssetReference.fieldNames fun fields => do return {
    name := ← required fields "name" str?
    source := ← required fields "source" (case? AssetSource.ofLabel?) }

/-- The fields of a fragment. -/
def Fragment.fieldNames : List String := ["file", "declarations", "references"]

/-- A fragment. -/
def Fragment.ofJson? : Json → Option Fragment :=
  record? Fragment.fieldNames fun fields => do return {
    file := ← required fields "file" FileNode.ofJson?
    declarations := ← optional fields "declarations" [] (list? DeclarationNode.ofJson?)
    references := ← optional fields "references" [] (list? ReferenceNode.ofJson?) }

/-- The modules that each module passes on; of a module that stands twice the last entry counts. -/
def exportsOfJson? : Json → Option (SortedMap String (List String))
  | .obj fields => fields.foldlM (fun m f => (texts? f.2).map (m.insert f.1 ·)) ∅
  | _ => none

/-- The fields of a document. -/
def Document.fieldNames : List String := ["fragments", "module_exports", "asset_references"]

/-- A document. -/
def Document.ofJson? : Json → Option Document :=
  record? Document.fieldNames fun fields => do return {
    fragments := ← optional fields "fragments" [] (list? Fragment.ofJson?)
    moduleExports := ← optional fields "module_exports" ∅ exportsOfJson?
    assetReferences := ← optional fields "asset_references" [] (list? AssetReference.ofJson?) }

end Deadwood

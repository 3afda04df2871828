/-
  What the changes to the graph do to its view.

  1. **Primitive changes** — changing an entry, linking, unlinking: one equation each for
     `declaration?` and for `reference?`.  A change is written as a function on the entry that asks
     whether the entry is the one concerned, so changes compose by `Option.map_map`.

  2. **Links as relations** — `parentOf?`, `childrenOf`, `ownerOf?`, `heldBy` and
     `nestedReferences` read one link each.  Consistency is stated through them.
-/
import Deadwood.Graph.Edit
import Deadwood.Proofs.SortedSet

namespace Deadwood

@[simp] theorem DeclId.mk_index (d : DeclId) : DeclId.mk d.index = d := rfl

@[simp] theorem RefId.mk_index (r : RefId) : RefId.mk r.index = r := rfl

theorem DeclId.index_inj {a b : DeclId} : a.index = b.index ↔ a = b := by
  cases a; cases b; simp

theorem RefId.index_inj {a b : RefId} : a.index = b.index ↔ a = b := by
  cases a; cases b; simp

namespace Declaration

variable {x : Declaration} {c d : DeclId} {r q : RefId} {isRelated b : Bool}

/-- The structural or the ordinary references that a declaration owns directly. -/
def held (x : Declaration) (isRelated : Bool) : SortedSet RefId :=
  if isRelated then x.related else x.references

/-- Where a declaration stands in the tree of declarations. -/
def links (x : Declaration) : Option DeclId × SortedSet DeclId × SortedSet DeclId :=
  (x.parent, x.members, x.parameters)

theorem mem_ownReferences : r ∈ x.ownReferences ↔ ∃ b, r ∈ (x.held b).toList := by
  simp [ownReferences, held]

theorem mem_children : c ∈ x.children ↔ c ∈ x.members.toList ∨ c ∈ x.parameters.toList := by
  simp [children]

theorem mem_children_addChild {nesting : Nesting} :
    c ∈ (x.addChild nesting d).children ↔ c = d ∨ c ∈ x.children := by
  cases nesting <;> simp only [addChild, mem_children, SortedSet.mem_insert] <;> tauto

theorem mem_children_dropChild : c ∈ (x.dropChild d).children ↔ c ∈ x.children ∧ c ≠ d := by
  simp only [dropChild, mem_children, SortedSet.mem_erase]
  tauto

theorem mem_held_addReference :
    r ∈ ((x.addReference isRelated q).held b).toList ↔
      (r = q ∧ isRelated = b) ∨ r ∈ (x.held b).toList := by
  cases isRelated <;> cases b <;> simp [addReference, held]

theorem mem_held_dropReference :
    r ∈ ((x.dropReference q).held b).toList ↔ r ∈ (x.held b).toList ∧ r ≠ q := by
  cases b <;> simp [dropReference, held]

@[simp] theorem toSymbol_addChild {nesting : Nesting} :
    (x.addChild nesting d).toSymbol = x.toSymbol := by cases nesting <;> rfl

@[simp] theorem parent_addChild {nesting : Nesting} : (x.addChild nesting d).parent = x.parent := by
  cases nesting <;> rfl

@[simp] theorem held_addChild {nesting : Nesting} :
    (x.addChild nesting d).held b = x.held b := by cases nesting <;> rfl

@[simp] theorem toSymbol_dropChild : (x.dropChild d).toSymbol = x.toSymbol := rfl

@[simp] theorem parent_dropChild : (x.dropChild d).parent = x.parent := rfl

@[simp] theorem held_dropChild : (x.dropChild d).held b = x.held b := rfl

@[simp] theorem toSymbol_addReference : (x.addReference isRelated q).toSymbol = x.toSymbol := by
  cases isRelated <;> rfl

@[simp] theorem parent_addReference : (x.addReference isRelated q).parent = x.parent := by
  cases isRelated <;> rfl

@[simp] theorem members_addReference : (x.addReference isRelated q).members = x.members := by
  cases isRelated <;> rfl

@[simp] theorem parameters_addReference :
    (x.addReference isRelated q).parameters = x.parameters := by cases isRelated <;> rfl

@[simp] theorem toSymbol_dropReference : (x.dropReference q).toSymbol = x.toSymbol := rfl

@[simp] theorem parent_dropReference : (x.dropReference q).parent = x.parent := rfl

@[simp] theorem members_dropReference : (x.dropReference q).members = x.members := rfl

@[simp] theorem parameters_dropReference : (x.dropReference q).parameters = x.parameters := rfl

end Declaration

namespace Graph

variable {g : Graph} {c d id : DeclId} {r : RefId}

/-- What owns a reference. -/
def ownerOf? (g : Graph) (r : RefId) : Option Owner := (g.reference? r).bind (·.owner)

/-- The structural or the ordinary references that a declaration owns directly. -/
def heldBy (g : Graph) (d : DeclId) (isRelated : Bool) : List RefId :=
  ((g.declaration? d).map fun x => (x.held isRelated).toList).getD []

/-- What is known about the program apart from its declarations and references. -/
structure Notes where
  marks : Marks
  folded : SortedMap DeclId DeclId
  redundantProtocols : SortedMap DeclId RedundantProtocol
  redundantAccess : SortedMap DeclId RedundantAccess
  unusedImports : SortedSet UnusedImport
  files : SortedMap (List Component) SourceFile
  exports : Index String String
  assets : SortedSet AssetReference

/-- The notes of a graph; edits of declarations and references leave them alone. -/
def notes (g : Graph) : Notes :=
  ⟨g.marks, g.folded, g.redundantProtocols, g.redundantAccess, g.unusedImports, g.files,
    g.exports, g.assets⟩

/-! ## Live handles -/

theorem hasDeclaration_iff : g.hasDeclaration d = true ↔ ∃ x, g.declaration? d = some x :=
  Option.isSome_iff_exists

theorem hasReference_iff : g.hasReference r = true ↔ ∃ x, g.reference? r = some x :=
  Option.isSome_iff_exists

theorem hasDeclaration_of_eq {x : Declaration} (h : g.declaration? d = some x) :
    g.hasDeclaration d = true := by simp [hasDeclaration, h]

theorem hasReference_of_eq {x : Reference} (h : g.reference? r = some x) :
    g.hasReference r = true := by simp [hasReference, h]

@[simp] theorem mem_declIds : d ∈ g.declIds ↔ g.hasDeclaration d = true := by
  simp only [declIds, List.mem_map, Arena.mem_live, hasDeclaration, declaration?]
  constructor
  · rintro ⟨i, hi, rfl⟩
    exact hi
  · intro h
    exact ⟨d.index, h, rfl⟩

@[simp] theorem mem_refIds : r ∈ g.refIds ↔ g.hasReference r = true := by
  simp only [refIds, List.mem_map, Arena.mem_live, hasReference, reference?]
  constructor
  · rintro ⟨i, hi, rfl⟩
    exact hi
  · intro h
    exact ⟨r.index, h, rfl⟩

theorem nodup_declIds : g.declIds.Nodup :=
  Arena.nodup_live.map fun a b h => by simpa using h

theorem mem_declIdsWhere {p : Declaration → Bool} :
    d ∈ g.declIdsWhere p ↔ ∃ x, g.declaration? d = some x ∧ p x = true := by
  simp only [declIdsWhere, List.mem_filter, mem_declIds, hasDeclaration]
  cases g.declaration? d <;> simp

theorem mem_refIdsWhere {p : Reference → Bool} :
    r ∈ g.refIdsWhere p ↔ ∃ x, g.reference? r = some x ∧ p x = true := by
  simp only [refIdsWhere, List.mem_filter, mem_refIds, hasReference]
  cases g.reference? r <;> simp

/-- A live declaration has a number that was given out. -/
theorem index_lt_of_hasDeclaration (h : g.hasDeclaration d = true) :
    d.index < g.declarations.size := by
  by_contra hd
  rw [hasDeclaration, declaration?, Arena.get?_eq_none_of_size_le (by omega)] at h
  cases h

theorem index_lt_of_hasReference (h : g.hasReference r = true) : r.index < g.references.size := by
  by_contra hr
  rw [hasReference, reference?, Arena.get?_eq_none_of_size_le (by omega)] at h
  cases h

theorem mem_childrenOf_iff : c ∈ g.childrenOf d ↔
    ∃ x, g.declaration? d = some x ∧ (c ∈ x.members.toList ∨ c ∈ x.parameters.toList) := by
  unfold childrenOf
  cases g.declaration? d <;> simp [Declaration.children]

theorem mem_heldBy_iff {isRelated : Bool} : r ∈ g.heldBy d isRelated ↔
    ∃ x, g.declaration? d = some x ∧ r ∈ (x.held isRelated).toList := by
  unfold heldBy
  cases g.declaration? d <;> simp

theorem mem_nestedReferences_iff {o : RefId} : r ∈ g.nestedReferences o ↔
    ∃ x, g.reference? o = some x ∧ r ∈ x.nested.toList := by
  unfold nestedReferences
  cases g.reference? o <;> simp

theorem parentOf?_eq_some_iff : g.parentOf? c = some d ↔
    ∃ x, g.declaration? c = some x ∧ x.parent = some d := by
  simp [parentOf?, Option.bind_eq_some_iff]

theorem ownerOf?_eq_some_iff {o : Owner} : g.ownerOf? r = some o ↔
    ∃ x, g.reference? r = some x ∧ x.owner = some o := by
  simp [ownerOf?, Option.bind_eq_some_iff]

/-! ## Changing an entry -/

theorem declaration?_modifyDeclaration {f : Declaration → Declaration} :
    (g.modifyDeclaration id f).declaration? c =
      (g.declaration? c).map fun x => if id = c then f x else x := by
  simp only [declaration?, modifyDeclaration, Arena.get?_modify, DeclId.index_inj]
  split <;> simp

theorem reference?_modifyReference {q : RefId} {f : Reference → Reference} :
    (g.modifyReference q f).reference? r =
      (g.reference? r).map fun x => if q = r then f x else x := by
  simp only [reference?, modifyReference, Arena.get?_modify, RefId.index_inj]
  split <;> simp

@[simp] theorem reference?_modifyDeclaration {f : Declaration → Declaration} :
    (g.modifyDeclaration id f).reference? r = g.reference? r := rfl

@[simp] theorem declaration?_modifyReference {q : RefId} {f : Reference → Reference} :
    (g.modifyReference q f).declaration? d = g.declaration? d := rfl

/-! ## Linking declarations -/

theorem declaration?_linkDeclaration {nesting : Nesting} {p : Option DeclId} :
    (g.linkDeclaration id nesting p).declaration? c =
      (g.declaration? c).map fun x => if p = some c then x.addChild nesting id else x := by
  cases p with
  | none => simp [linkDeclaration, declaration?]
  | some p => simp [linkDeclaration, declaration?_modifyDeclaration]

theorem declaration?_unlinkDeclaration {p : Option DeclId} :
    (g.unlinkDeclaration id p).declaration? c =
      (g.declaration? c).map fun x => if p = some c then x.dropChild id else x := by
  cases p with
  | none => simp [unlinkDeclaration, declaration?]
  | some p => simp [unlinkDeclaration, declaration?_modifyDeclaration]

@[simp] theorem reference?_linkDeclaration {nesting : Nesting} {p : Option DeclId} :
    (g.linkDeclaration id nesting p).reference? r = g.reference? r := by cases p <;> rfl

@[simp] theorem reference?_unlinkDeclaration {p : Option DeclId} :
    (g.unlinkDeclaration id p).reference? r = g.reference? r := by cases p <;> rfl

section UnlinkDeclaration

variable {p : Option DeclId}

theorem roots_unlinkDeclaration : (g.unlinkDeclaration id p).roots =
    if p = none then g.roots.erase id else g.roots := by cases p <;> rfl

theorem declarations_size_unlinkDeclaration :
    (g.unlinkDeclaration id p).declarations.size = g.declarations.size := by
  cases p <;> simp [unlinkDeclaration, modifyDeclaration]

@[simp] theorem references_unlinkDeclaration :
    (g.unlinkDeclaration id p).references = g.references := by cases p <;> rfl

@[simp] theorem referencesByUsr_unlinkDeclaration :
    (g.unlinkDeclaration id p).referencesByUsr = g.referencesByUsr := by cases p <;> rfl

@[simp] theorem rootReferences_unlinkDeclaration :
    (g.unlinkDeclaration id p).rootReferences = g.rootReferences := by cases p <;> rfl

@[simp] theorem notes_unlinkDeclaration : (g.unlinkDeclaration id p).notes = g.notes := by
  cases p <;> rfl

end UnlinkDeclaration

/-! ## Linking references -/

theorem declaration?_linkReference {q : RefId} {b : Bool} {o : Option Owner} :
    (g.linkReference q b o).declaration? d = (g.declaration? d).map fun x =>
      if o = some (.declaration d) then x.addReference b q else x := by
  rcases o with _ | ⟨p | p⟩
  · simp [linkReference, declaration?]
  · simp [linkReference, declaration?_modifyDeclaration]
  · simp [linkReference]

theorem reference?_linkReference {q : RefId} {b : Bool} {o : Option Owner} :
    (g.linkReference q b o).reference? r = (g.reference? r).map fun x =>
      if o = some (.reference r) then { x with nested := x.nested.insert q } else x := by
  rcases o with _ | ⟨p | p⟩
  · simp [linkReference, reference?]
  · simp [linkReference]
  · simp [linkReference, reference?_modifyReference]

theorem declaration?_unlinkReference {q : RefId} {o : Option Owner} :
    (g.unlinkReference q o).declaration? d = (g.declaration? d).map fun x =>
      if o = some (.declaration d) then x.dropReference q else x := by
  rcases o with _ | ⟨p | p⟩
  · simp [unlinkReference, declaration?]
  · simp [unlinkReference, declaration?_modifyDeclaration]
  · simp [unlinkReference]

theorem reference?_unlinkReference {q : RefId} {o : Option Owner} :
    (g.unlinkReference q o).reference? r = (g.reference? r).map fun x =>
      if o = some (.reference r) then { x with nested := x.nested.erase q } else x := by
  rcases o with _ | ⟨p | p⟩
  · simp [unlinkReference, reference?]
  · simp [unlinkReference]
  · simp [unlinkReference, reference?_modifyReference]

section Unlink

variable {q : RefId} {o : Option Owner}

theorem rootReferences_unlinkReference : (g.unlinkReference q o).rootReferences =
    if o = none then g.rootReferences.erase q else g.rootReferences := by
  rcases o with _ | ⟨p | p⟩ <;> rfl

theorem references_size_unlinkReference :
    (g.unlinkReference q o).references.size = g.references.size := by
  rcases o with _ | ⟨p | p⟩ <;> simp [unlinkReference, modifyDeclaration, modifyReference]

theorem declarations_size_unlinkReference :
    (g.unlinkReference q o).declarations.size = g.declarations.size := by
  rcases o with _ | ⟨p | p⟩ <;> simp [unlinkReference, modifyDeclaration, modifyReference]

@[simp] theorem roots_unlinkReference : (g.unlinkReference q o).roots = g.roots := by
  rcases o with _ | ⟨p | p⟩ <;> rfl

@[simp] theorem declarationsByUsr_unlinkReference :
    (g.unlinkReference q o).declarationsByUsr = g.declarationsByUsr := by
  rcases o with _ | ⟨p | p⟩ <;> rfl

@[simp] theorem declarationsByKind_unlinkReference :
    (g.unlinkReference q o).declarationsByKind = g.declarationsByKind := by
  rcases o with _ | ⟨p | p⟩ <;> rfl

@[simp] theorem notes_unlinkReference : (g.unlinkReference q o).notes = g.notes := by
  rcases o with _ | ⟨p | p⟩ <;> rfl

end Unlink

end Graph

end Deadwood

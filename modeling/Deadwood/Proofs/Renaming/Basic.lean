/-
  Graphs that differ in the numbers of their handles only.

  1. **`Renamed δ ρ g h`** — `h` is `g` with declarations renamed by `δ` and references by `ρ`: every
     field, every link, the roots, the marks and the results correspond, and the tables of files,
     exports and assets are equal.  The indices are not mentioned: consistency determines them.

  2. **`Twin`** — renamed graphs that are consistent and in which no two declarations share an
     identifier.  Then the order of declarations by their keys is strict, and corresponds too.

  3. **`Tracks`** — what a change to both graphs has to establish: they are twins again, under a
     renaming that treats every reference given out before as it was treated.  New references may
     get different numbers in the two graphs, so the renaming grows along the way.
-/
import Deadwood.Proofs.Store.Outline
import Mathlib.Logic.Equiv.Basic

namespace Deadwood

/-! ## Renaming entries -/

section Rename

variable (δ : DeclId ≃ DeclId) (ρ : RefId ≃ RefId)

/-- The declaration with its links renamed. -/
def Declaration.rename (x : Declaration) : Declaration :=
  { x with
    parent := x.parent.map δ
    members := x.members.image δ
    parameters := x.parameters.image δ
    references := x.references.image ρ
    related := x.related.image ρ }

/-- The owner under its new name. -/
def Owner.rename : Owner → Owner
  | .declaration d => .declaration (δ d)
  | .reference r => .reference (ρ r)

/-- The reference with its links renamed. -/
def Reference.rename (x : Reference) : Reference :=
  { x with owner := x.owner.map (Owner.rename δ ρ), nested := x.nested.image ρ }

/-- The evidence against a protocol under its new names. -/
def RedundantProtocol.rename (p : RedundantProtocol) : RedundantProtocol :=
  ⟨p.references.image ρ, p.inherited.image ρ⟩

end Rename

section

variable {δ : DeclId ≃ DeclId} {ρ ρ' : RefId ≃ RefId} {x : Declaration} {y : Reference}
  {c d : DeclId} {r q : RefId} {b : Bool}

@[simp] theorem Declaration.toSymbol_rename : (x.rename δ ρ).toSymbol = x.toSymbol := rfl

@[simp] theorem Declaration.parent_rename : (x.rename δ ρ).parent = x.parent.map δ := rfl

@[simp] theorem Declaration.held_rename : (x.rename δ ρ).held b = (x.held b).image ρ := by
  cases b <;> rfl

@[simp] theorem Reference.toMention_rename : (y.rename δ ρ).toMention = y.toMention := rfl

theorem Declaration.mem_members_rename :
    δ c ∈ (x.rename δ ρ).members.toList ↔ c ∈ x.members.toList :=
  SortedSet.mem_image_iff δ.injective

theorem Declaration.mem_parameters_rename :
    δ c ∈ (x.rename δ ρ).parameters.toList ↔ c ∈ x.parameters.toList :=
  SortedSet.mem_image_iff δ.injective

theorem Declaration.mem_held_rename :
    ρ r ∈ ((x.rename δ ρ).held b).toList ↔ r ∈ (x.held b).toList := by
  rw [held_rename, SortedSet.mem_image_iff ρ.injective]

theorem Owner.rename_injective : Function.Injective (Owner.rename δ ρ) := by
  rintro (a | a) (b | b) h <;> simp_all [Owner.rename]

theorem Declaration.rename_addChild {nesting : Nesting} :
    (x.addChild nesting c).rename δ ρ = (x.rename δ ρ).addChild nesting (δ c) := by
  cases nesting <;> simp only [Declaration.rename, Declaration.addChild, SortedSet.image_insert]

theorem Declaration.rename_dropChild :
    (x.dropChild c).rename δ ρ = (x.rename δ ρ).dropChild (δ c) := by
  simp only [Declaration.rename, Declaration.dropChild, SortedSet.image_erase δ.injective]

theorem Declaration.rename_addReference :
    (x.addReference b r).rename δ ρ = (x.rename δ ρ).addReference b (ρ r) := by
  cases b <;> simp [Declaration.rename, Declaration.addReference, SortedSet.image_insert]

theorem Declaration.rename_dropReference :
    (x.dropReference r).rename δ ρ = (x.rename δ ρ).dropReference (ρ r) := by
  simp only [Declaration.rename, Declaration.dropReference, SortedSet.image_erase ρ.injective]

/-- Two renamings that agree on what an entry lists rename it alike. -/
theorem Declaration.rename_congr (h : ∀ b, ∀ r ∈ (x.held b).toList, ρ' r = ρ r) :
    x.rename δ ρ' = x.rename δ ρ := by
  have href : x.references.image ρ' = x.references.image ρ := SortedSet.image_congr (h false)
  have hrel : x.related.image ρ' = x.related.image ρ := SortedSet.image_congr (h true)
  simp only [Declaration.rename, href, hrel]

theorem Reference.rename_congr (ho : ∀ r, y.owner = some (.reference r) → ρ' r = ρ r)
    (hn : ∀ r ∈ y.nested.toList, ρ' r = ρ r) : y.rename δ ρ' = y.rename δ ρ := by
  have hnested : y.nested.image ρ' = y.nested.image ρ := SortedSet.image_congr hn
  have howner : y.owner.map (Owner.rename δ ρ') = y.owner.map (Owner.rename δ ρ) := by
    rcases hy : y.owner with _ | ⟨o | o⟩
    · rfl
    · rfl
    · simp [Owner.rename, ho o hy]
  simp only [Reference.rename, hnested, howner]

end

namespace Graph

variable {δ : DeclId ≃ DeclId} {ρ ρ' : RefId ≃ RefId} {g h : Graph} {c d : DeclId} {r q : RefId}

/-- The notes `n` are `m` under new names. -/
structure Notes.Renamed (δ : DeclId ≃ DeclId) (ρ : RefId ≃ RefId) (m n : Notes) : Prop where
  marks : ∀ mark, n.marks.of mark = (m.marks.of mark).image δ
  folded : ∀ d, n.folded.find? (δ d) = (m.folded.find? d).map δ
  redundantProtocols : ∀ d,
    n.redundantProtocols.find? (δ d) = (m.redundantProtocols.find? d).map (·.rename ρ)
  redundantAccess : ∀ d, n.redundantAccess.find? (δ d) = m.redundantAccess.find? d
  unusedImports : n.unusedImports = m.unusedImports
  files : n.files = m.files
  exports : n.exports = m.exports
  assets : n.assets = m.assets

/-- `h` is `g` under new names. -/
structure Renamed (δ : DeclId ≃ DeclId) (ρ : RefId ≃ RefId) (g h : Graph) : Prop where
  declaration : ∀ d, h.declaration? (δ d) = (g.declaration? d).map (·.rename δ ρ)
  reference : ∀ r, h.reference? (ρ r) = (g.reference? r).map (·.rename δ ρ)
  roots : h.roots = g.roots.image δ
  rootReferences : h.rootReferences = g.rootReferences.image ρ
  notes : Notes.Renamed δ ρ g.notes h.notes

/-- No identifier is carried by two declarations. -/
def Unambiguous (g : Graph) : Prop :=
  ∀ c d x y usr, g.declaration? c = some x → g.declaration? d = some y →
    usr ∈ x.usrs.toList → usr ∈ y.usrs.toList → c = d

/-- The identifiers that the declaration of a handle carries. -/
def usrsOf (g : Graph) (d : DeclId) : List String :=
  (g.declaration? d).elim [] (·.usrs.toList)

theorem mem_usrsOf {g : Graph} {d : DeclId} {usr : String} :
    usr ∈ g.usrsOf d ↔ ∃ x, g.declaration? d = some x ∧ usr ∈ x.usrs.toList := by
  unfold usrsOf
  cases g.declaration? d <;> simp

theorem unambiguous_iff {g : Graph} : g.Unambiguous ↔
    ∀ c ∈ g.declIds, ∀ d ∈ g.declIds, ∀ usr ∈ g.usrsOf c, usr ∈ g.usrsOf d → c = d := by
  constructor
  · intro hu c _ d _ usr hc hd
    obtain ⟨x, hx, hux⟩ := mem_usrsOf.1 hc
    obtain ⟨y, hy, huy⟩ := mem_usrsOf.1 hd
    exact hu c d x y usr hx hy hux huy
  · intro hall c d x y usr hx hy hux huy
    exact hall c (mem_declIds.2 (hasDeclaration_of_eq hx)) d (mem_declIds.2 (hasDeclaration_of_eq hy))
      usr (mem_usrsOf.2 ⟨x, hx, hux⟩) (mem_usrsOf.2 ⟨y, hy, huy⟩)

instance (g : Graph) : Decidable g.Unambiguous := decidable_of_iff _ unambiguous_iff.symm

/-- Renamed graphs that are consistent and unambiguous. -/
structure Twin (δ : DeclId ≃ DeclId) (ρ : RefId ≃ RefId) (g h : Graph) : Prop
    extends Renamed δ ρ g h where
  left : g.Consistent
  right : h.Consistent
  unambiguous : g.Unambiguous

/-- After a change the graphs are twins again, and what was given out keeps its name. -/
def Tracks (δ : DeclId ≃ DeclId) (ρ : RefId ≃ RefId) (g h g' h' : Graph) : Prop :=
  ∃ ρ' : RefId ≃ RefId,
    (∀ r, r.index < g.references.size → (ρ r).index < h.references.size → ρ' r = ρ r) ∧
    g.references.size ≤ g'.references.size ∧ h.references.size ≤ h'.references.size ∧
    Twin δ ρ' g' h'

/-! ## Entries -/

namespace Renamed

variable (R : Renamed δ ρ g h)
include R

theorem hasDeclaration : h.hasDeclaration (δ d) = g.hasDeclaration d := by
  simp [Graph.hasDeclaration, R.declaration]

theorem hasReference : h.hasReference (ρ r) = g.hasReference r := by
  simp [Graph.hasReference, R.reference]

theorem parentOf? : h.parentOf? (δ d) = (g.parentOf? d).map δ := by
  simp only [Graph.parentOf?, R.declaration]
  cases g.declaration? d <;> rfl

theorem ownerOf? : h.ownerOf? (ρ r) = (g.ownerOf? r).map (Owner.rename δ ρ) := by
  simp only [Graph.ownerOf?, R.reference]
  cases g.reference? r <;> rfl

theorem mem_declIds : δ d ∈ h.declIds ↔ d ∈ g.declIds := by
  rw [Graph.mem_declIds, Graph.mem_declIds, R.hasDeclaration]

theorem mem_refIds : ρ r ∈ h.refIds ↔ r ∈ g.refIds := by
  rw [Graph.mem_refIds, Graph.mem_refIds, R.hasReference]

theorem mem_childrenOf : δ c ∈ h.childrenOf (δ d) ↔ c ∈ g.childrenOf d := by
  simp only [childrenOf, R.declaration]
  cases g.declaration? d with
  | none => simp
  | some x =>
      simp only [Option.map_some, Option.getD_some, Declaration.mem_children,
        Declaration.mem_members_rename, Declaration.mem_parameters_rename]

theorem mem_heldBy {b : Bool} : ρ r ∈ h.heldBy (δ d) b ↔ r ∈ g.heldBy d b := by
  simp only [heldBy, R.declaration]
  cases g.declaration? d with
  | none => simp
  | some x => simp [SortedSet.mem_image_iff ρ.injective]

theorem mem_nestedReferences : ρ r ∈ h.nestedReferences (ρ q) ↔ r ∈ g.nestedReferences q := by
  simp only [nestedReferences, R.reference]
  cases g.reference? q with
  | none => simp
  | some x => exact SortedSet.mem_image_iff ρ.injective

theorem marks (mark : Mark) : h.marks.of mark = (g.marks.of mark).image δ := R.notes.marks mark

theorem files : h.files = g.files := R.notes.files

theorem isMarked {mark : Mark} : h.isMarked mark (δ d) = g.isMarked mark d := by
  rw [Graph.isMarked, Graph.isMarked, R.marks, SortedSet.contains_image δ.injective]

/-- What a declaration says is not renamed. -/
theorem any_declaration {p : Declaration → Bool} {p' : Declaration → Bool}
    (hp : ∀ x, g.declaration? d = some x → p' (x.rename δ ρ) = p x) :
    (h.declaration? (δ d)).any p' = (g.declaration? d).any p := by
  rw [R.declaration]
  cases hx : g.declaration? d with
  | none => rfl
  | some x => exact hp x hx

theorem any_reference {p : Reference → Bool} {p' : Reference → Bool}
    (hp : ∀ x, g.reference? r = some x → p' (x.rename δ ρ) = p x) :
    (h.reference? (ρ r)).any p' = (g.reference? r).any p := by
  rw [R.reference]
  cases hx : g.reference? r with
  | none => rfl
  | some x => exact hp x hx

/-- A renaming counts only on what is there and on what results name. -/
theorem congr (hlive : ∀ r, g.hasReference r = true → ρ' r = ρ r) (hl : g.Owned)
    (hnoted : ∀ d p r, g.redundantProtocols.find? d = some p →
      (r ∈ p.references.toList ∨ r ∈ p.inherited.toList) → ρ' r = ρ r) :
    Renamed δ ρ' g h where
  declaration d := by
    rw [R.declaration]
    cases hx : g.declaration? d with
    | none => rfl
    | some x =>
        refine congrArg some (Declaration.rename_congr fun b r hr => (hlive r ?_).symm)
        exact live_of_ownerOf? (hl.listed.held d x b r hx hr)
  reference r := by
    by_cases hr : g.hasReference r = true
    · rw [hlive r hr, R.reference]
      obtain ⟨x, hx⟩ := hasReference_iff.1 hr
      rw [hx]
      refine congrArg some (Reference.rename_congr (fun o ho => (hlive o ?_).symm)
        fun q hq => (hlive q ?_).symm)
      · exact hl.owner_live (ownerOf?_eq_some_iff.2 ⟨x, hx, ho⟩)
      · exact live_of_ownerOf? (hl.listed.nested r x q hx hq)
    · -- the images of what is there are used up, so this one names nothing
      have hnone : h.reference? (ρ' r) = none := by
        obtain ⟨s, hs⟩ := ρ.surjective (ρ' r)
        rw [← hs, R.reference]
        cases hx : g.reference? s with
        | none => rfl
        | some x =>
            have hsl := hasReference_of_eq hx
            rw [← hlive s hsl] at hs
            exact absurd (ρ'.injective hs ▸ hsl) hr
      have hr' : g.reference? r = none := Option.not_isSome_iff_eq_none.1 hr
      rw [hnone, hr']
      rfl
  roots := R.roots
  rootReferences := by
    rw [R.rootReferences]
    exact (SortedSet.image_congr fun r hr => hlive r (hl.listed.root r hr).1).symm
  notes :=
    { R.notes with
      redundantProtocols := fun d => by
        rw [R.notes.redundantProtocols]
        cases hp : g.notes.redundantProtocols.find? d with
        | none => rfl
        | some p =>
            have href : p.references.image ρ = p.references.image ρ' :=
              SortedSet.image_congr fun r hr => (hnoted d p r hp (.inl hr)).symm
            have hinh : p.inherited.image ρ = p.inherited.image ρ' :=
              SortedSet.image_congr fun r hr => (hnoted d p r hp (.inr hr)).symm
            simp only [Option.map_some, RedundantProtocol.rename, href, hinh] }

end Renamed

end Graph

end Deadwood

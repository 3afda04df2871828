/-
  Consistency of the store.

  1. **`Indexed`** — the indices say exactly which live declarations carry an identifier or have a
     kind.

  2. **`Nested`** — a declaration is listed by exactly the declaration that it calls its parent,
     as a member or as a parameter and not as both; the roots are the declarations without parent.

  3. **`Owned`** — a reference is listed by exactly the owner it names, and filed under the
     identifier it names.  A reference is younger than the reference it is nested in, so chains of
     owners end, and an owner holds no two references of one key.

  The empty graph is consistent and every operation keeps it so.
-/
import Deadwood.Proofs.Store.View

namespace Deadwood

namespace Graph

/-- The indices of declarations agree with the entries. -/
structure Indexed (g : Graph) : Prop where
  byUsr : ∀ usr d, d ∈ (Index.get g.declarationsByUsr usr).toList ↔
    ∃ x, g.declaration? d = some x ∧ usr ∈ x.usrs.toList
  byKind : ∀ kind d, d ∈ (Index.get g.declarationsByKind kind).toList ↔
    ∃ x, g.declaration? d = some x ∧ x.kind = kind

/-- Both ends of every link between declarations agree. -/
structure Nested (g : Graph) : Prop where
  child_iff : ∀ p c, c ∈ g.childrenOf p ↔ g.parentOf? c = some p
  apart : ∀ p x c, g.declaration? p = some x → c ∈ x.members.toList → c ∉ x.parameters.toList
  root_iff : ∀ c, c ∈ g.roots.toList ↔ g.hasDeclaration c = true ∧ g.parentOf? c = none

/-- Both ends of every link between references and their owners agree. -/
structure Owned (g : Graph) : Prop where
  uses : ∀ usr r, r ∈ (Index.get g.referencesByUsr usr).toList ↔
    ∃ x, g.reference? r = some x ∧ x.usr = usr
  held_iff : ∀ d b r, r ∈ g.heldBy d b ↔
    ∃ x, g.reference? r = some x ∧ x.owner = some (.declaration d) ∧ x.isRelated = b
  nested_iff : ∀ o r, r ∈ g.nestedReferences o ↔ g.ownerOf? r = some (.reference o)
  rootReference_iff : ∀ r, r ∈ g.rootReferences.toList ↔
    g.hasReference r = true ∧ g.ownerOf? r = none
  owner_lt : ∀ r o, g.ownerOf? r = some (.reference o) → o.index < r.index
  distinct : ∀ r s x y, g.reference? r = some x → g.reference? s = some y → x.owner = y.owner →
    x.owner ≠ none → x.toMention.key = y.toMention.key → r = s

/-- The marks are on live declarations, and the results name references that were given out. -/
structure Noted (g : Graph) : Prop where
  marked_live : ∀ mark d, d ∈ (g.marks.of mark).toList → g.hasDeclaration d = true
  recorded : ∀ d p r, g.redundantProtocols.find? d = some p →
    (r ∈ p.references.toList ∨ r ∈ p.inherited.toList) → r.index < g.references.size

/-- A graph in which all parts agree and, if `named`, every declaration has an identifier.  No
operation of the store asks for identifiers; it is those who add declarations that see to them. -/
structure Coherent (named : Prop) (g : Graph) : Prop
    extends Indexed g, Nested g, Owned g, Noted g where
  identified : named → ∀ d x, g.declaration? d = some x → x.usrs.toList ≠ []

/-- A graph in which all parts agree, and every declaration has an identifier. -/
abbrev Consistent (g : Graph) : Prop := g.Coherent True

variable {g : Graph} {c d p : DeclId} {r : RefId} {named : Prop}

theorem Consistent.identified (hg : g.Consistent) (d : DeclId) (x : Declaration)
    (hx : g.declaration? d = some x) : x.usrs.toList ≠ [] := Coherent.identified hg trivial d x hx

namespace Nested

theorem parent_live (h : g.Nested) (hp : g.parentOf? c = some p) : g.hasDeclaration p = true := by
  obtain ⟨x, hx, -⟩ := mem_childrenOf_iff.1 ((h.child_iff p c).2 hp)
  exact hasDeclaration_of_eq hx

end Nested

namespace Owned

theorem owner_live (h : g.Owned) {o : Owner} (ho : g.ownerOf? r = some o) :
    g.hasOwner o = true := by
  obtain ⟨x, hx, hxo⟩ := ownerOf?_eq_some_iff.1 ho
  cases o with
  | declaration d =>
      obtain ⟨y, hy, -⟩ := mem_heldBy_iff.1 ((h.held_iff d x.isRelated r).2 ⟨x, hx, hxo, rfl⟩)
      exact hasDeclaration_of_eq hy
  | reference q =>
      obtain ⟨y, hy, -⟩ := mem_nestedReferences_iff.1 ((h.nested_iff q r).2 ho)
      exact hasReference_of_eq hy

theorem nodup_ownReferences (h : g.Owned) {x : Declaration} (hx : g.declaration? d = some x) :
    x.ownReferences.Nodup := by
  refine List.nodup_append.2 ⟨x.references.nodup, x.related.nodup, fun r hr s hs he => ?_⟩
  subst he
  -- an ordinary reference is not structural
  obtain ⟨y, hy, -, hno⟩ := (h.held_iff d false r).1 (mem_heldBy_iff.2 ⟨x, hx, hr⟩)
  obtain ⟨z, hz, -, hyes⟩ := (h.held_iff d true r).1 (mem_heldBy_iff.2 ⟨x, hx, hs⟩)
  rw [hy] at hz
  cases hz
  rw [hno] at hyes
  cases hyes

end Owned

/-! ## Changes that leave a part of the graph alone -/

section Congr

variable {h : Graph}

theorem hasDeclaration_congr {α : Type} {f : Declaration → α}
    (hd : (h.declaration? d).map f = (g.declaration? d).map f) :
    h.hasDeclaration d = g.hasDeclaration d := by
  simpa [hasDeclaration] using congrArg Option.isSome hd

theorem Indexed.congr (hg : g.Indexed)
    (hd : ∀ d, (h.declaration? d).map (·.toSymbol) = (g.declaration? d).map (·.toSymbol))
    (hu : h.declarationsByUsr = g.declarationsByUsr)
    (hk : h.declarationsByKind = g.declarationsByKind) : h.Indexed where
  byUsr usr d := by
    rw [hu, hg.byUsr]
    have := hd d
    cases hx : g.declaration? d <;> cases hy : h.declaration? d <;> simp_all
  byKind kind d := by
    rw [hk, hg.byKind]
    have := hd d
    cases hx : g.declaration? d <;> cases hy : h.declaration? d <;> simp_all

theorem parentOf?_congr
    (hd : (h.declaration? c).map (·.links) = (g.declaration? c).map (·.links)) :
    h.parentOf? c = g.parentOf? c := by
  unfold parentOf?
  cases hx : g.declaration? c <;> cases hy : h.declaration? c <;> simp_all [Declaration.links]

theorem childrenOf_congr
    (hd : (h.declaration? c).map (·.links) = (g.declaration? c).map (·.links)) :
    h.childrenOf c = g.childrenOf c := by
  unfold childrenOf
  cases hx : g.declaration? c <;> cases hy : h.declaration? c <;>
    simp_all [Declaration.links, Declaration.children]

theorem Nested.congr (hg : g.Nested)
    (hd : ∀ d, (h.declaration? d).map (·.links) = (g.declaration? d).map (·.links))
    (hr : h.roots = g.roots) : h.Nested where
  child_iff p c := by rw [childrenOf_congr (hd p), parentOf?_congr (hd c), hg.child_iff]
  apart p x c hx := by
    have := hd p
    cases hy : g.declaration? p with
    | none => simp_all
    | some y =>
        have := hg.apart p y c hy
        simp_all [Declaration.links]
  root_iff c := by rw [hr, hg.root_iff, parentOf?_congr (hd c), hasDeclaration_congr (hd c)]

theorem Owned.congr (hg : g.Owned) (hr : ∀ r, h.reference? r = g.reference? r)
    (hd : ∀ d b r, r ∈ h.heldBy d b ↔ r ∈ g.heldBy d b)
    (hs : h.rootReferences = g.rootReferences) (hu : h.referencesByUsr = g.referencesByUsr) :
    h.Owned where
  uses usr r := by rw [hu, hg.uses, hr]
  held_iff d b r := by rw [hd, hg.held_iff, hr]
  nested_iff o r := by
    have := hg.nested_iff o r
    simpa only [nestedReferences, ownerOf?, hr] using this
  rootReference_iff r := by
    have := hg.rootReference_iff r
    simpa only [hs, hasReference, ownerOf?, hr] using this
  owner_lt r o := by
    have := hg.owner_lt r o
    simpa only [ownerOf?, hr] using this
  distinct r s x y := by
    have := hg.distinct r s x y
    simpa only [hr] using this

theorem Noted.congr (hg : g.Noted) (hn : h.notes = g.notes)
    (hd : ∀ d, g.hasDeclaration d = true → h.hasDeclaration d = true)
    (hs : g.references.size ≤ h.references.size) : h.Noted where
  marked_live mark d hm := by
    have he : h.marks = g.marks := congrArg Notes.marks hn
    rw [he] at hm
    exact hd d (hg.marked_live mark d hm)
  recorded d p r hp hr := by
    have he : h.redundantProtocols = g.redundantProtocols :=
      congrArg Notes.redundantProtocols hn
    rw [he] at hp
    exact Nat.lt_of_lt_of_le (hg.recorded d p r hp hr) hs

end Congr

/-! ## The next handles -/

/-- The handle of the next declaration. -/
def nextDeclaration (g : Graph) : DeclId := ⟨g.declarations.size⟩

/-- The handle of the next reference. -/
def nextReference (g : Graph) : RefId := ⟨g.references.size⟩

@[simp] theorem declaration?_nextDeclaration : g.declaration? g.nextDeclaration = none :=
  Arena.get?_eq_none_of_size_le (Nat.le_refl _)

@[simp] theorem reference?_nextReference : g.reference? g.nextReference = none :=
  Arena.get?_eq_none_of_size_le (Nat.le_refl _)

theorem ne_nextDeclaration (hd : g.hasDeclaration d = true) : d ≠ g.nextDeclaration := by
  rintro rfl
  simp [hasDeclaration] at hd

theorem ne_nextReference (hr : g.hasReference r = true) : r ≠ g.nextReference := by
  rintro rfl
  simp [hasReference] at hr

/-! ## The empty graph -/

@[simp] theorem declaration?_empty : (∅ : Graph).declaration? d = none := Arena.get?_empty

@[simp] theorem reference?_empty : (∅ : Graph).reference? r = none := Arena.get?_empty

theorem coherent_empty : (∅ : Graph).Coherent named where
  byUsr usr d := by simp [show (∅ : Graph).declarationsByUsr = ∅ from rfl]
  byKind kind d := by simp [show (∅ : Graph).declarationsByKind = ∅ from rfl]
  uses usr r := by simp [show (∅ : Graph).referencesByUsr = ∅ from rfl]
  child_iff p c := by simp [childrenOf, parentOf?]
  apart p x c hx := by simp at hx
  root_iff c := by simp [hasDeclaration, show (∅ : Graph).roots = ∅ from rfl]
  held_iff d b r := by simp [heldBy]
  nested_iff o r := by simp [nestedReferences, ownerOf?]
  rootReference_iff r := by simp [hasReference, show (∅ : Graph).rootReferences = ∅ from rfl]
  owner_lt r o ho := by simp [ownerOf?] at ho
  distinct r s x y hx := by simp at hx
  marked_live mark d hd := by cases mark <;> cases hd
  identified _ d x hx := by simp at hx
  recorded d p r hp := by cases hp

end Graph

end Deadwood

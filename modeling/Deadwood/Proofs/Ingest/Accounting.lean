/-
  Where everything in the graph of a document comes from, and where every node went.

  1. **Parts (`Symbol.Unites`)** — a declaration says what the nodes mapped to it say together: it has
     their identifiers, attributes, modifiers and directives and no others, it is implicit when all of
     them are, and visible to the other runtime when one of them is.

  2. **Founders (`Document.FoundedAt`)** — one of these nodes was there first.  The declaration took its
     location and its kind, and a parameter that a body does not use became a `parameter`.  The others
     stand at the same place and have the kind that the declaration has.

  3. **Account (`Document.Accounts`)** — every node that had its turn is mapped to something live,
     every live entry is what some node was mapped to, and a reference is owned by what the node around
     it was mapped to.  One turn keeps the account (`Accounts.place`, `Accounts.refer`), so it is closed
     behind the last fragment (`exists_accounts_ofDocument`).
-/
import Deadwood.Proofs.Ingest.Turns

namespace Deadwood

open Deadwood.Graph

/-! ## Parts -/

/-- What a symbol says is what some nodes, each with the file of its fragment, say together. -/
structure Symbol.Unites (x : Symbol) (parts : Set (Path × DeclarationNode)) : Prop where
  usrs : ∀ usr, usr ∈ x.usrs.toList ↔ ∃ p ∈ parts, usr ∈ p.2.usrs ∧ usr ≠ ""
  attributes : ∀ name, name ∈ x.attributes.toList ↔ ∃ p ∈ parts, name ∈ p.2.attributes
  modifiers : ∀ name, name ∈ x.modifiers.toList ↔ ∃ p ∈ parts, name ∈ p.2.modifiers
  directives : ∀ c, c ∈ x.directives ↔ ∃ p ∈ parts, c ∈ Directive.parseAll p.2.comments
  isImplicit : x.isImplicit = true ↔ ∀ p ∈ parts, p.2.isImplicit = true
  isObjc : x.isObjc = true ↔ ∃ p ∈ parts, p.2.isObjcAccessible = true
  place : ∀ p ∈ parts, (p.2.location p.1).place = x.location.place

/-- What a node says, item by item. -/
theorem DeclarationNode.unites_symbol? {n : DeclarationNode} {path : Path} {symbol : Symbol}
    (hs : n.symbol? path = some symbol) : symbol.Unites {(path, n)} ∧ symbol.kind = n.kind ∧
      symbol.location = n.location path := by
  unfold symbol? at hs
  simp only at hs
  split at hs
  · cases hs
  · cases hs
    refine ⟨?_, rfl, rfl⟩
    constructor <;> simp [SortedSet.mem_ofList]

/-- The kind is not counted. -/
theorem Symbol.Unites.of_kind {x : Symbol} {parts : Set (Path × DeclarationNode)} {kind : Kind}
    (hx : x.Unites parts) : Symbol.Unites { x with kind } parts :=
  ⟨hx.usrs, hx.attributes, hx.modifiers, hx.directives, hx.isImplicit, hx.isObjc, hx.place⟩

theorem SourceFile.mem_appendNew {α : Type} [DecidableEq α] {xs ys : List α} {a : α} :
    a ∈ SourceFile.appendNew xs ys ↔ a ∈ xs ∨ a ∈ ys := by
  unfold SourceFile.appendNew
  induction ys generalizing xs with
  | nil => simp
  | cons y ys ih =>
      rw [List.foldl_cons, ih, List.mem_cons, ← or_assoc]
      refine or_congr_left ?_
      split
      · rename_i hy
        constructor
        · exact .inl
        · rintro (ha | rfl)
          · exact ha
          · exact List.contains_iff_mem.1 hy
      · simp

/-- Elements that are there already are not added. -/
theorem SourceFile.appendNew_eq_self {α : Type} [DecidableEq α] {xs ys : List α}
    (h : ∀ y ∈ ys, y ∈ xs) : SourceFile.appendNew xs ys = xs := by
  unfold SourceFile.appendNew
  induction ys with
  | nil => rfl
  | cons y ys ih =>
      rw [List.foldl_cons, if_pos (List.contains_iff_mem.2 (h y (by simp)))]
      exact ih fun z hz => h z (by simp [hz])

/-- What is said before or by one more node is said by one of them all. -/
theorem exists_mem_insert_of_or {parts : Set (Path × DeclarationNode)} {p : Path × DeclarationNode}
    {Q : Path × DeclarationNode → Prop} {a b c : Prop} (hc : c ↔ a ∨ b)
    (ha : a ↔ ∃ q ∈ parts, Q q) (hb : b ↔ ∃ q ∈ ({p} : Set (Path × DeclarationNode)), Q q) :
    c ↔ ∃ q ∈ insert p parts, Q q := by
  rw [hc, ha, hb, Set.exists_mem_insert, or_comm]
  simp

/-- Joining with one more part unites with one more part. -/
theorem Symbol.Unites.join {x : Declaration} {s : Symbol} {parts : Set (Path × DeclarationNode)}
    {p : Path × DeclarationNode} (hx : x.toSymbol.Unites parts) (hs : s.Unites {p})
    (hplace : x.location.place = s.location.place) :
    (joined x s).toSymbol.Unites (insert p parts) where
  usrs usr := exists_mem_insert_of_or SortedSet.mem_union (hx.usrs usr) (hs.usrs usr)
  attributes name :=
    exists_mem_insert_of_or SortedSet.mem_union (hx.attributes name) (hs.attributes name)
  modifiers name :=
    exists_mem_insert_of_or SortedSet.mem_union (hx.modifiers name) (hs.modifiers name)
  directives c :=
    exists_mem_insert_of_or SourceFile.mem_appendNew (hx.directives c) (hs.directives c)
  isImplicit := by
    have hboth : (joined x s).isImplicit = (x.isImplicit && s.isImplicit) := rfl
    rw [hboth, Bool.and_eq_true, hx.isImplicit, hs.isImplicit, Set.forall_mem_insert, and_comm]
    simp
  isObjc := exists_mem_insert_of_or Bool.or_eq_true_iff hx.isObjc hs.isObjc
  place := by
    refine Set.forall_mem_insert.2 ⟨?_, hx.place⟩
    exact (hs.place p rfl).trans hplace.symm

/-! ## What a turn does to the entries -/

namespace Graph

variable {g : Graph} {d : DeclId} {s : Symbol} {nesting : Nesting} {parent : Option DeclId}

/-- The kind of a new declaration: one that is listed as a parameter is one. -/
def newKind (s : Symbol) (nesting : Nesting) (parent : Option DeclId) : Kind :=
  if nesting = .unusedParameter ∧ parent ≠ none then .parameter else s.kind

/-- **What placing a symbol does to its declaration**: it is joined, or it is new. -/
theorem declaration?_placeSymbol (hp : ∀ q, parent = some q → g.hasDeclaration q = true) :
    (∃ x, g.declaration? (g.placeSymbol s nesting parent).2 = some x ∧ x.kind = s.kind ∧
      x.location.place = s.location.place ∧ (g.placeSymbol s nesting parent).1.declaration?
        (g.placeSymbol s nesting parent).2 = some (joined x s)) ∨
    g.declaration? (g.placeSymbol s nesting parent).2 = none ∧
      ∃ y, (g.placeSymbol s nesting parent).1.declaration?
        (g.placeSymbol s nesting parent).2 = some y ∧
        y.toSymbol = { s with kind := newKind s nesting parent } ∧ y.parent = parent := by
  cases hpartner : g.partner? s with
  | some c =>
      obtain ⟨x, hx, hkind, hplace⟩ := declaration?_of_partner? hpartner
      have he : g.placeSymbol s nesting parent = (g.unify c s, c) := by
        simp only [placeSymbol, hpartner]
      rw [he]
      refine .inl ⟨x, hx, hkind, hplace, ?_⟩
      rw [declaration?_unify, hx, Option.map_some, if_pos rfl]
  | none =>
      refine .inr ?_
      by_cases hparameter : nesting = .unusedParameter ∧ parent ≠ none
      · obtain ⟨q, rfl⟩ := Option.ne_none_iff_exists'.1 hparameter.2
        have he : g.placeSymbol s nesting (some q) = g.addUnusedParameter s q := by
          simp only [placeSymbol, hpartner, hparameter.1]
        rw [he]
        refine ⟨declaration?_nextDeclaration, ?_⟩
        have hnew : (g.addUnusedParameter s q).2 = g.nextDeclaration := rfl
        rw [hnew, addUnusedParameter_fst, declaration?_modifyDeclaration,
          declaration?_addDeclaration, if_pos rfl, filter_hasDeclaration hp]
        refine ⟨_, rfl, ?_⟩
        rw [newKind, if_pos hparameter]
        split <;> simp
      · have he : g.placeSymbol s nesting parent = g.addDeclaration s parent := by
          cases nesting with
          | member => simp only [placeSymbol, hpartner]
          | unusedParameter =>
              have hnone : parent = none := by simpa using hparameter
              simp only [placeSymbol, hpartner, hnone]
        rw [he]
        refine ⟨declaration?_nextDeclaration, ?_⟩
        have hnew : (g.addDeclaration s parent).2 = g.nextDeclaration := rfl
        rw [hnew, declaration?_addDeclaration, if_pos rfl, filter_hasDeclaration hp]
        refine ⟨_, rfl, ?_⟩
        rw [newKind, if_neg hparameter]
        exact ⟨rfl, rfl⟩

/-- The other declarations keep what they say, and their parents. -/
theorem declaration?_placeSymbol_of_ne (hne : d ≠ (g.placeSymbol s nesting parent).2) :
    ((g.placeSymbol s nesting parent).1.declaration? d).map (fun x => (x.toSymbol, x.parent)) =
      (g.declaration? d).map fun x => (x.toSymbol, x.parent) := by
  rcases placeSymbol_cases g s nesting parent with ⟨c, -, he⟩ | ⟨-, ⟨q, -, -, he⟩ | he⟩ <;>
    rw [he] at hne ⊢
  · rw [declaration?_unify]
    cases g.declaration? d with
    | none => rfl
    | some x => simp [if_neg (Ne.symm hne)]
  · have hne : d ≠ g.nextDeclaration := hne
    rw [addUnusedParameter_fst, declaration?_modifyDeclaration, declaration?_addDeclaration,
      if_neg hne]
    cases g.declaration? d with
    | none => rfl
    | some x =>
        simp only [Option.map_some]
        split <;> split <;> simp
  · have hne : d ≠ g.nextDeclaration := hne
    rw [declaration?_addDeclaration, if_neg hne]
    cases g.declaration? d with
    | none => rfl
    | some x =>
        simp only [Option.map_some]
        split <;> simp

/-- **What adding a reference does to its entry**: an equal one is there, or it is new. -/
theorem reference?_addReference_snd {m : Mention} {w : Option Owner}
    (hw : ∀ o, w = some o → g.hasOwner o = true) :
    ((g.addReference m w).1 = g ∧ ∃ x, g.reference? (g.addReference m w).2 = some x ∧
      x.owner = w ∧ x.toMention.key = m.key) ∨
    g.reference? (g.addReference m w).2 = none ∧
      ∃ x, (g.addReference m w).1.reference? (g.addReference m w).2 = some x ∧
        x.owner = w ∧ x.toMention = m := by
  cases hnew : g.equalReference? m.key w with
  | some q =>
      rw [addReference_eq_of_some hnew]
      exact .inl ⟨rfl, reference?_of_equalReference? hnew⟩
  | none =>
      have hid : (g.addReference m w).2 = g.nextReference := by
        simp only [addReference, hnew]
        rfl
      refine .inr ⟨hid ▸ reference?_nextReference, ?_⟩
      rw [hid, reference?_addReference hnew, if_pos rfl, filter_hasOwner hw]
      exact ⟨_, rfl, rfl, rfl⟩

/-- The other references keep what they say, and their owners. -/
theorem reference?_addReference_of_ne {m : Mention} {w : Option Owner} {r : RefId}
    (hne : r ≠ (g.addReference m w).2) :
    ((g.addReference m w).1.reference? r).map (fun x => (x.toMention, x.owner)) =
      (g.reference? r).map fun x => (x.toMention, x.owner) := by
  cases hnew : g.equalReference? m.key w with
  | some q => rw [addReference_eq_of_some hnew]
  | none =>
      have hid : (g.addReference m w).2 = g.nextReference := by
        simp only [addReference, hnew]
        rfl
      rw [reference?_addReference hnew, if_neg (hid ▸ hne)]
      cases g.reference? r with
      | none => rfl
      | some x =>
          simp only [Option.map_some]
          split <;> rfl

/-- Adding a reference leaves what the declarations say alone. -/
theorem declaration?_addReference_outline {m : Mention} {w : Option Owner} :
    ((g.addReference m w).1.declaration? d).map (fun x => (x.toSymbol, x.parent)) =
      (g.declaration? d).map fun x => (x.toSymbol, x.parent) := by
  cases hnew : g.equalReference? m.key w with
  | some q => rw [addReference_eq_of_some hnew]
  | none => exact map_declaration?_addReference hnew _ fun x b q => by simp

end Graph

/-! ## Accounts -/

namespace Document

/-- The nodes, each with the file of its fragment, that stand at some of the sites and are mapped to
a declaration. -/
def partsOf (doc : Document) (D : Set DeclarationSite) (δ : DeclarationSite → DeclId)
    (d : DeclId) : Set (Path × DeclarationNode) :=
  {p | ∃ s ∈ D, doc.declarationAt? s = some p ∧ δ s = d}

/-- The node of the site became the declaration, and all other nodes that are mapped to it were joined
with it. -/
structure FoundedAt (doc : Document) (D : Set DeclarationSite) (δ : DeclarationSite → DeclId)
    (d : DeclId) (location : Location) (kind : Kind) (parent : Option DeclId)
    (s : DeclarationSite) : Prop where
  mem : s ∈ D
  image : δ s = d
  /-- One that is listed as a parameter becomes one, whatever its kind. -/
  node : ∃ path n, doc.declarationAt? s = some (path, n) ∧ location = n.location path ∧
    kind = if s.nesting = .unusedParameter then .parameter else n.kind
  parent : parent = s.around?.map δ
  others : ∀ t ∈ D, δ t = d → t ≠ s → ∀ path n, doc.declarationAt? t = some (path, n) →
    n.kind = kind

/-- **Everything in the graph comes from the nodes of some sites, and none of these is lost.** -/
structure Accounts (doc : Document) (D : Set DeclarationSite) (R : Set ReferenceSite)
    (δ : DeclarationSite → DeclId) (ρ : ReferenceSite → RefId) (g : Graph) : Prop where
  live : ∀ s ∈ D, g.hasDeclaration (δ s) = true
  unites : ∀ d x, g.declaration? d = some x → x.toSymbol.Unites (doc.partsOf D δ d)
  founded : ∀ d x, g.declaration? d = some x →
    ∃ s, doc.FoundedAt D δ d x.location x.kind x.parent s
  /-- A reference is owned by what the node around it was mapped to. -/
  kept : ∀ r ∈ R, ∀ path n, doc.referenceAt? r = some (path, n) →
    ∃ x, g.reference? (ρ r) = some x ∧ x.toMention.key = (n.mention path r.isRelated).key ∧
      x.owner = r.owner δ ρ
  mentioned : ∀ q x, g.reference? q = some x → ∃ r ∈ R, ρ r = q ∧
    ∃ path n, doc.referenceAt? r = some (path, n) ∧ x.toMention = n.mention path r.isRelated

variable {doc : Document} {D : Set DeclarationSite} {R : Set ReferenceSite} {g h : Graph}
  {δ : DeclarationSite → DeclId} {ρ : ReferenceSite → RefId} {s : DeclarationSite} {d : DeclId}
  {p : Path × DeclarationNode}

theorem accounts_empty : doc.Accounts ∅ ∅ δ ρ ∅ where
  live s hs := by cases hs
  unites d x hx := by simp at hx
  founded d x hx := by simp at hx
  kept r hr := by cases hr
  mentioned q x hx := by simp at hx

theorem partsOf_insert_of_eq (hat : doc.declarationAt? s = some p) (hd : δ s = d) :
    doc.partsOf (insert s D) δ d = insert p (doc.partsOf D δ d) := by
  ext q
  simp only [partsOf, Set.mem_ofPred_eq, Set.mem_insert_iff, or_and_right, exists_or,
    exists_eq_left, hat, hd, and_true, Option.some.injEq, eq_comm (a := p)]

theorem partsOf_insert_of_ne (hd : δ s ≠ d) :
    doc.partsOf (insert s D) δ d = doc.partsOf D δ d := by
  ext q
  simp only [partsOf, Set.mem_ofPred_eq, Set.mem_insert_iff, or_and_right, exists_or,
    exists_eq_left, hd, and_false, false_or]

/-- What is not there yet, nothing was mapped to. -/
theorem Accounts.image_ne (H : doc.Accounts D R δ ρ g) (hd : g.declaration? d = none)
    (hs : s ∈ D) : δ s ≠ d := by
  rintro rfl
  have hlive := H.live s hs
  simp [hasDeclaration, hd] at hlive

/-- One more node of the same kind does not change who was first. -/
theorem FoundedAt.insert {location : Location} {kind : Kind} {parent : Option DeclId}
    {t : DeclarationSite} (F : doc.FoundedAt D δ d location kind parent t)
    (hs : δ s = d → ∀ path n, doc.declarationAt? s = some (path, n) → n.kind = kind) :
    doc.FoundedAt (insert s D) δ d location kind parent t where
  mem := Set.mem_insert_of_mem s F.mem
  image := F.image
  node := F.node
  parent := F.parent
  others u hu hd hne path n hat := by
    rcases hu with rfl | hu
    · exact hs hd path n hat
    · exact F.others u hu hd hne path n hat

variable {path : Path} {n : DeclarationNode} {symbol : Symbol}

/-- Only what is nested in something is listed as a parameter. -/
theorem newKind_eq : newKind symbol s.nesting (s.around?.map δ) =
    if s.nesting = .unusedParameter then .parameter else symbol.kind := by
  cases s with
  | outer f i => rfl
  | inside t nesting i => cases nesting <;> rfl

/-- The account of one declaration, behind the turn of a node. -/
theorem Accounts.declaration_place (H : doc.Accounts D R δ ρ g)
    (hat : doc.declarationAt? s = some (path, n)) (hsymbol : n.symbol? path = some symbol)
    (hp : ∀ q, s.around?.map δ = some q → g.hasDeclaration q = true)
    (hδ : δ s = (g.placeSymbol symbol s.nesting (s.around?.map δ)).2) {y : Declaration}
    (hy : (g.placeSymbol symbol s.nesting (s.around?.map δ)).1.declaration? d = some y) :
    y.toSymbol.Unites (doc.partsOf (insert s D) δ d) ∧
      ∃ t, doc.FoundedAt (insert s D) δ d y.location y.kind y.parent t := by
  obtain ⟨hunites, hkind, hlocation⟩ := DeclarationNode.unites_symbol? hsymbol
  by_cases hd : δ s = d
  · subst hd
    rw [partsOf_insert_of_eq hat rfl]
    rw [hδ] at hy
    rcases @declaration?_placeSymbol g symbol s.nesting _ hp with
      ⟨x, hx, hkindx, hplace, hjoined⟩ | ⟨hnone, z, hz, hzs, hzp⟩
    · -- it was there: the node is one more part of it
      rw [hy] at hjoined
      cases hjoined
      rw [← hδ] at hx
      refine ⟨(H.unites _ x hx).join hunites hplace, ?_⟩
      obtain ⟨t, F⟩ := H.founded _ x hx
      refine ⟨t, F.insert fun _ path' m hm => ?_⟩
      rw [hat] at hm
      cases hm
      exact hkind.symm.trans hkindx.symm
    · -- it is new: the node is its founder, and nothing else was mapped to it
      rw [hy] at hz
      cases hz
      rw [← hδ] at hnone
      have hparts : doc.partsOf D δ (δ s) = ∅ := by
        refine Set.eq_empty_of_forall_notMem fun q hq => ?_
        obtain ⟨t, ht, -, he⟩ := hq
        exact H.image_ne hnone ht he
      rw [hparts, insert_empty_eq, hzs, hzp]
      refine ⟨hunites.of_kind, s, Set.mem_insert s D, rfl, ⟨path, n, hat, hlocation, ?_⟩, rfl, ?_⟩
      · rw [newKind_eq, hkind]
      · intro t ht he hne
        exact absurd he (H.image_ne hnone (Set.mem_of_mem_insert_of_ne ht hne))
  · have hne : d ≠ (g.placeSymbol symbol s.nesting (s.around?.map δ)).2 :=
      fun he => hd (hδ.trans he.symm)
    have hsame := declaration?_placeSymbol_of_ne hne
    rw [hy] at hsame
    obtain ⟨x, hx, he⟩ := Option.map_eq_some_iff.1 hsame.symm
    obtain ⟨hsymbols, hparents⟩ := Prod.mk.inj he
    obtain ⟨t, F⟩ := H.founded d x hx
    rw [partsOf_insert_of_ne hd, ← hsymbols, ← hparents]
    exact ⟨H.unites d x hx, t, F.insert fun h => absurd h hd⟩

/-- **The turn of a declaration node keeps the account.** -/
theorem Accounts.place (H : doc.Accounts D R δ ρ g)
    (hat : doc.declarationAt? s = some (path, n)) (hsymbol : n.symbol? path = some symbol)
    (hdue : s.Due D) (hδ : δ s = (g.placeSymbol symbol s.nesting (s.around?.map δ)).2) :
    doc.Accounts (insert s D) R δ ρ (g.placeSymbol symbol s.nesting (s.around?.map δ)).1 := by
  have hp : ∀ q, s.around?.map δ = some q → g.hasDeclaration q = true := by
    intro q hq
    obtain ⟨t, ht, rfl⟩ := Option.map_eq_some_iff.1 hq
    exact H.live t (hdue t ht)
  constructor
  · intro t ht
    rcases ht with rfl | ht
    · exact hasDeclaration_placeSymbol.2 (.inl hδ)
    · exact hasDeclaration_placeSymbol.2 (.inr (H.live t ht))
  · intro d y hy
    exact (H.declaration_place hat hsymbol hp hδ hy).1
  · intro d y hy
    exact (H.declaration_place hat hsymbol hp hδ hy).2
  · simpa only [reference?_placeSymbol] using H.kept
  · simpa only [reference?_placeSymbol] using H.mentioned

/-- What owns a reference had its turn before. -/
theorem Accounts.owner_live {r : ReferenceSite} {n : ReferenceNode} (H : doc.Accounts D R δ ρ g)
    (hat : doc.referenceAt? r = some (path, n)) (hdue : r.Due D R) :
    ∀ o, r.owner δ ρ = some o → g.hasOwner o = true := by
  intro o ho
  cases r with
  | outer f i => cases ho
  | under s isRelated i =>
      cases ho
      exact H.live s hdue
  | inside q i =>
      cases ho
      obtain ⟨⟨path', m⟩, hq, -⟩ := Option.bind_eq_some_iff.1 hat
      obtain ⟨x, hx, -⟩ := H.kept q hdue path' m hq
      exact hasReference_of_eq hx

/-- A node whose reference is there already is accounted for by that one. -/
theorem Accounts.refer_equal {r : ReferenceSite} {n : ReferenceNode} {x : Reference}
    (H : doc.Accounts D R δ ρ g) (hat : doc.referenceAt? r = some (path, n))
    (hx : g.reference? (ρ r) = some x) (howner : x.owner = r.owner δ ρ)
    (hkey : x.toMention.key = (n.mention path r.isRelated).key) :
    doc.Accounts D (insert r R) δ ρ g where
  live := H.live
  unites := H.unites
  founded := H.founded
  kept q hq path' m hm := by
    rcases hq with rfl | hq
    · rw [hat] at hm
      cases hm
      exact ⟨x, hx, hkey, howner⟩
    · exact H.kept q hq path' m hm
  mentioned q y hy := by
    obtain ⟨t, ht, hrest⟩ := H.mentioned q y hy
    exact ⟨t, Set.mem_insert_of_mem r ht, hrest⟩

/-- **The turn of a reference node keeps the account.** -/
theorem Accounts.refer {r : ReferenceSite} {n : ReferenceNode} (H : doc.Accounts D R δ ρ g)
    (hat : doc.referenceAt? r = some (path, n)) (hdue : r.Due D R)
    (hρ : ρ r = (g.addReference (n.mention path r.isRelated) (r.owner δ ρ)).2) :
    doc.Accounts D (insert r R) δ ρ
      (g.addReference (n.mention path r.isRelated) (r.owner δ ρ)).1 := by
  have hturn := reference?_addReference_snd (m := n.mention path r.isRelated)
    (H.owner_live hat hdue)
  rw [← hρ] at hturn
  rcases hturn with ⟨hgraph, x, hx, howner, hkey⟩ | ⟨hnone, x, hx, howner, hmention⟩
  · rw [hgraph]
    exact H.refer_equal hat hx howner hkey
  · -- it is new: every other entry keeps what it says and where it belongs
    have hdeclaration : ∀ {d y}, (g.addReference (n.mention path r.isRelated)
        (r.owner δ ρ)).1.declaration? d = some y → ∃ x, g.declaration? d = some x ∧
          x.toSymbol = y.toSymbol ∧ x.parent = y.parent := by
      intro d y hy
      have hkeep := declaration?_addReference_outline (g := g) (d := d)
        (m := n.mention path r.isRelated) (w := r.owner δ ρ)
      rw [hy] at hkeep
      obtain ⟨x, hx, he⟩ := Option.map_eq_some_iff.1 hkeep.symm
      exact ⟨x, hx, Prod.mk.inj he⟩
    constructor
    · intro s hs
      rw [hasDeclaration_addReference]
      exact H.live s hs
    · intro d y hy
      obtain ⟨x, hx, hsymbol, -⟩ := hdeclaration hy
      exact hsymbol ▸ H.unites d x hx
    · intro d y hy
      obtain ⟨x, hx, hsymbol, hparent⟩ := hdeclaration hy
      rw [← hparent, ← hsymbol]
      exact H.founded d x hx
    · intro q hq path' m hm
      by_cases he : ρ q = ρ r
      · rcases hq with rfl | hq
        · rw [hat] at hm
          cases hm
          exact ⟨x, hx, by rw [hmention], howner⟩
        · -- an earlier node was mapped to something that was there
          obtain ⟨y, hy, -⟩ := H.kept q hq path' m hm
          rw [he, hnone] at hy
          cases hy
      · have hq : q ∈ R := hq.resolve_left fun heq => he (congrArg ρ heq)
        obtain ⟨y, hy, hkey, ho⟩ := H.kept q hq path' m hm
        have hkeep := reference?_addReference_of_ne (hρ ▸ he)
        rw [hy] at hkeep
        obtain ⟨z, hz, heq⟩ := Option.map_eq_some_iff.1 hkeep
        obtain ⟨hmentions, howns⟩ := Prod.mk.inj heq
        exact ⟨z, hz, by rw [hmentions, hkey], howns.trans ho⟩
    · intro q y hy
      by_cases he : q = ρ r
      · rw [he, hx] at hy
        cases hy
        exact ⟨r, Set.mem_insert r R, he.symm, path, n, hat, hmention⟩
      · have hkeep := reference?_addReference_of_ne (hρ ▸ he)
        rw [hy] at hkeep
        obtain ⟨z, hz, heq⟩ := Option.map_eq_some_iff.1 hkeep.symm
        obtain ⟨t, ht, hrest⟩ := H.mentioned q z hz
        rw [← (Prod.mk.inj heq).1]
        exact ⟨t, Set.mem_insert_of_mem r ht, hrest⟩

/-! ## All of it -/

/-- Files, exports and assets are no entries. -/
theorem Accounts.of_entries (H : doc.Accounts D R δ ρ g) (hd : h.declarations = g.declarations)
    (hr : h.references = g.references) : doc.Accounts D R δ ρ h := by
  have hdeclaration : ∀ d, h.declaration? d = g.declaration? d := by
    intro d
    rw [declaration?, declaration?, hd]
  have hreference : ∀ r, h.reference? r = g.reference? r := by
    intro r
    rw [reference?, reference?, hr]
  obtain ⟨live, unites, founded, kept, mentioned⟩ := H
  constructor
  · simpa only [hasDeclaration, hdeclaration] using live
  · simpa only [hdeclaration] using unites
  · simpa only [hdeclaration] using founded
  · simpa only [hreference] using kept
  · simpa only [hreference] using mentioned

theorem keeps_accounts (doc : Document) :
    doc.Keeps fun D R g => doc.Accounts D R doc.declarationOf doc.referenceOf g where
  file H _ := H.of_entries rfl rfl
  place H hat hsymbol hdue hplaced := by
    have hδ := congrArg Prod.snd hplaced
    rw [hplaced]
    exact H.place hat hsymbol hdue hδ
  refer H hat hdue hadded := by
    have hρ := congrArg Prod.snd hadded
    rw [hadded]
    exact H.refer hat hdue hρ

/-- **Ingesting a document loses nothing and invents nothing.**  The nodes that are prepared are mapped
to the live declarations and references, and each of these is what the nodes mapped to it say
together.  What stands in the list of a fragment becomes a root reference. -/
theorem exists_accounts_ofDocument (doc : Document) :
    ∃ (δ : DeclarationSite → DeclId) (ρ : ReferenceSite → RefId),
      doc.Accounts doc.declarationSites doc.referenceSites δ ρ (ofDocument doc).1 ∧
      ∀ f i, .outer f i ∈ doc.referenceSites →
        ρ (.outer f i) ∈ (ofDocument doc).1.rootReferences.toList := by
  have hrun := (keeps_accounts doc).run accounts_empty
  have haccounts : doc.Accounts doc.declarationSites doc.referenceSites doc.declarationOf
      doc.referenceOf (ofDocument doc).1 := by
    rw [ofDocument_eq, addMetadata_eq]
    exact hrun.of_entries rfl rfl
  refine ⟨doc.declarationOf, doc.referenceOf, haccounts, fun f i hr => ?_⟩
  obtain ⟨⟨path, n⟩, hat⟩ := Option.isSome_iff_exists.1 hr
  obtain ⟨x, hx, -, howner⟩ := haccounts.kept _ hr path n hat
  refine ((reachable_ofDocument doc).consistent.rootReference_iff _).2 ⟨hasReference_of_eq hx, ?_⟩
  rw [ownerOf?, hx]
  exact howner

end Document

end Deadwood

/-
  Adding to a consistent graph.

  A new entry gets a number that names nothing yet, so no link and no index can mention it before
  it is there.  Its parent or owner is asked for first and dropped when it is not live, so the one
  link that is made is made at both ends.
-/
import Deadwood.Ingest.Merge
import Deadwood.Proofs.Store.Consistent

namespace Deadwood

namespace Graph

variable {g : Graph} {c d p : DeclId} {r : RefId} {named : Prop}

/-! ## Declarations -/

section AddDeclaration

variable {s : Symbol} {parent : Option DeclId}

theorem declarations_size_linkDeclaration {nesting : Nesting} :
    (g.linkDeclaration d nesting parent).declarations.size = g.declarations.size := by
  cases parent <;> simp [linkDeclaration, modifyDeclaration]

theorem declaration?_addDeclaration : (g.addDeclaration s parent).1.declaration? c =
    if c = g.nextDeclaration then some { s with parent := parent.filter g.hasDeclaration }
    else (g.declaration? c).map fun x =>
      if parent.filter g.hasDeclaration = some c then x.addChild .member g.nextDeclaration
      else x := by
  have hc : c.index = g.declarations.size ↔ c = g.nextDeclaration :=
    DeclId.index_inj (b := g.nextDeclaration)
  rw [← declaration?_linkDeclaration]
  simp only [addDeclaration, declaration?, Arena.get?_push, declarations_size_linkDeclaration, hc]
  rfl

@[simp] theorem reference?_addDeclaration :
    (g.addDeclaration s parent).1.reference? r = g.reference? r := reference?_linkDeclaration

theorem roots_addDeclaration : (g.addDeclaration s parent).1.roots =
    if parent.filter g.hasDeclaration = none then g.roots.insert g.nextDeclaration
    else g.roots := by
  unfold addDeclaration
  cases parent.filter g.hasDeclaration <;> rfl

@[simp] theorem references_addDeclaration :
    (g.addDeclaration s parent).1.references = g.references := by
  unfold addDeclaration
  cases parent.filter g.hasDeclaration <;> rfl

@[simp] theorem referencesByUsr_addDeclaration :
    (g.addDeclaration s parent).1.referencesByUsr = g.referencesByUsr := by
  unfold addDeclaration
  cases parent.filter g.hasDeclaration <;> rfl

@[simp] theorem rootReferences_addDeclaration :
    (g.addDeclaration s parent).1.rootReferences = g.rootReferences := by
  unfold addDeclaration
  cases parent.filter g.hasDeclaration <;> rfl

@[simp] theorem notes_addDeclaration : (g.addDeclaration s parent).1.notes = g.notes := by
  unfold addDeclaration
  cases parent.filter g.hasDeclaration <;> rfl

theorem hasDeclaration_addDeclaration : (g.addDeclaration s parent).1.hasDeclaration c = true ↔
    c = g.nextDeclaration ∨ g.hasDeclaration c = true := by
  simp only [hasDeclaration, declaration?_addDeclaration]
  split <;> simp_all

theorem parentOf?_addDeclaration : (g.addDeclaration s parent).1.parentOf? c =
    if c = g.nextDeclaration then parent.filter g.hasDeclaration else g.parentOf? c := by
  simp only [parentOf?, declaration?_addDeclaration]
  split
  · rfl
  · cases g.declaration? c with
    | none => rfl
    | some x => simp only [Option.map_some, Option.bind_some]; split <;> simp

/-- The parent of a new declaration is live, if there is one. -/
theorem hasDeclaration_of_filter (h : parent.filter g.hasDeclaration = some p) :
    g.hasDeclaration p = true := (Option.filter_eq_some_iff.1 h).2

theorem mem_childrenOf_addDeclaration : c ∈ (g.addDeclaration s parent).1.childrenOf p ↔
    (c = g.nextDeclaration ∧ parent.filter g.hasDeclaration = some p) ∨ c ∈ g.childrenOf p := by
  have hlive := @hasDeclaration_of_filter g p parent
  simp only [childrenOf, declaration?_addDeclaration]
  generalize parent.filter g.hasDeclaration = q at hlive ⊢
  rcases eq_or_ne p g.nextDeclaration with rfl | hp
  · have hq : q ≠ some g.nextDeclaration := fun he => by simpa [hasDeclaration] using hlive he
    simp [hq, Declaration.children]
  · cases hx : g.declaration? p with
    | none =>
        have hq : q ≠ some p := fun he => by simpa [hasDeclaration, hx] using hlive he
        simp [hp, hq]
    | some x =>
        by_cases hq : q = some p
        · simp [hp, hq, Declaration.mem_children_addChild]
        · simp [hp, hq]

theorem mem_heldBy_addDeclaration {b : Bool} :
    r ∈ (g.addDeclaration s parent).1.heldBy d b ↔ r ∈ g.heldBy d b := by
  simp only [heldBy, declaration?_addDeclaration]
  split
  · rename_i hd
    subst hd
    cases b <;> simp [Declaration.held]
  · cases g.declaration? d with
    | none => simp
    | some x => simp only [Option.map_some, Option.getD_some]; split <;> simp

theorem indexed_addDeclaration (hg : g.Indexed) : (g.addDeclaration s parent).1.Indexed where
  byUsr usr d := by
    have hi : (g.addDeclaration s parent).1.declarationsByUsr = s.usrs.toList.foldl
      (fun index usr => Index.add index usr g.nextDeclaration) g.declarationsByUsr := rfl
    rw [hi, Index.mem_get_foldl_add, hg.byUsr, declaration?_addDeclaration]
    rcases eq_or_ne d g.nextDeclaration with rfl | hd
    · simp
    · cases g.declaration? d with
      | none => simp [hd]
      | some x => simp only [hd, false_and, false_or, if_false]; split <;> simp
  byKind kind d := by
    have hi : (g.addDeclaration s parent).1.declarationsByKind =
      Index.add g.declarationsByKind s.kind g.nextDeclaration := rfl
    rw [hi, Index.get_add, declaration?_addDeclaration]
    rcases eq_or_ne d g.nextDeclaration with rfl | hd
    · by_cases hk : kind = s.kind
      · simp [hk]
      · simp [hk, hg.byKind, eq_comm]
    · have : d ∈ (if kind = s.kind then (Index.get g.declarationsByKind s.kind).insert
          g.nextDeclaration else Index.get g.declarationsByKind kind).toList ↔
          d ∈ (Index.get g.declarationsByKind kind).toList := by
        split
        · simp [*]
        · rfl
      rw [this, hg.byKind]
      cases g.declaration? d with
      | none => simp [hd]
      | some x => simp only [hd, if_false]; split <;> simp [*]

theorem nested_addDeclaration (hg : g.Nested) : (g.addDeclaration s parent).1.Nested where
  child_iff p c := by
    rw [mem_childrenOf_addDeclaration, parentOf?_addDeclaration, hg.child_iff]
    rcases eq_or_ne c g.nextDeclaration with rfl | hc
    · simp [parentOf?]
    · simp [hc]
  apart p x c hx hm hq := by
    rw [declaration?_addDeclaration] at hx
    split at hx
    · cases hx; cases hm
    · obtain ⟨y, hy, rfl⟩ := Option.map_eq_some_iff.1 hx
      have hapart := hg.apart p y c hy
      split at hm
      · simp only [*, if_true, Declaration.addChild, SortedSet.mem_insert] at hm hq
        rcases hm with rfl | hm
        · -- the new handle names nothing yet, so it is nobody's parameter
          have := (hg.child_iff p _).1 (mem_childrenOf_iff.2 ⟨y, hy, .inr hq⟩)
          simp [parentOf?] at this
        · exact hapart hm hq
      · simp_all
  root_iff c := by
    rw [roots_addDeclaration, hasDeclaration_addDeclaration, parentOf?_addDeclaration]
    generalize parent.filter g.hasDeclaration = q
    have hc := hg.root_iff c
    rcases eq_or_ne c g.nextDeclaration with rfl | hne
    · simp only [hasDeclaration, declaration?_nextDeclaration] at hc
      cases q <;> simp_all
    · cases q <;> simp_all

theorem owned_addDeclaration (hg : g.Owned) : (g.addDeclaration s parent).1.Owned :=
  hg.congr (fun _ => reference?_addDeclaration) (fun _ _ _ => mem_heldBy_addDeclaration)
    rootReferences_addDeclaration referencesByUsr_addDeclaration

/-- **A new declaration leaves the graph consistent**, when it has an identifier. -/
theorem Coherent.addDeclaration (hg : g.Coherent named) (hs : named → s.usrs.toList ≠ []) :
    (g.addDeclaration s parent).1.Coherent named where
  toIndexed := indexed_addDeclaration hg.toIndexed
  toNested := nested_addDeclaration hg.toNested
  toOwned := owned_addDeclaration hg.toOwned
  toNoted := hg.toNoted.congr notes_addDeclaration
    (fun _ hd => hasDeclaration_addDeclaration.2 (.inr hd)) (by simp)
  identified hn d x hx := by
    rw [declaration?_addDeclaration] at hx
    split at hx
    · cases hx; exact hs hn
    · obtain ⟨y, hy, rfl⟩ := Option.map_eq_some_iff.1 hx
      have := hg.identified hn d y hy
      split <;> simpa

end AddDeclaration

/-! ## Changes to what is said of a declaration -/

section Modify

variable {f : Declaration → Declaration}

@[simp] theorem declarations_size_modifyDeclaration :
    (g.modifyDeclaration d f).declarations.size = g.declarations.size := by
  simp [modifyDeclaration]

@[simp] theorem hasDeclaration_modifyDeclaration :
    (g.modifyDeclaration d f).hasDeclaration c = g.hasDeclaration c := by
  simp [hasDeclaration, declaration?_modifyDeclaration]

theorem mem_heldBy_modifyDeclaration {b : Bool} (hf : ∀ x b, (f x).held b = x.held b) :
    r ∈ (g.modifyDeclaration d f).heldBy c b ↔ r ∈ g.heldBy c b := by
  simp only [heldBy, declaration?_modifyDeclaration]
  cases g.declaration? c with
  | none => rfl
  | some x => by_cases hd : d = c <;> simp [hd, hf]

theorem map_declaration?_modifyDeclaration {α : Type} {get : Declaration → α}
    (hf : ∀ x, get (f x) = get x) :
    ((g.modifyDeclaration d f).declaration? c).map get = (g.declaration? c).map get := by
  rw [declaration?_modifyDeclaration]
  cases g.declaration? c with
  | none => rfl
  | some x => by_cases hd : d = c <;> simp [hd, hf]

/-- A change that keeps what a declaration says of its parent keeps every parent. -/
theorem parentOf?_modifyDeclaration (hp : ∀ x, (f x).parent = x.parent) :
    (g.modifyDeclaration d f).parentOf? c = g.parentOf? c := by
  simp only [parentOf?, declaration?_modifyDeclaration]
  cases g.declaration? c with
  | none => rfl
  | some x => by_cases hd : d = c <;> simp [hd, hp]

/-- A change that keeps identifiers and kind leaves the indices right. -/
theorem Indexed.modifyDeclaration (hg : g.Indexed) (hu : ∀ x, (f x).usrs = x.usrs)
    (hk : ∀ x, (f x).kind = x.kind) : (g.modifyDeclaration d f).Indexed where
  byUsr usr c := by
    have he : (g.modifyDeclaration d f).declarationsByUsr = g.declarationsByUsr := rfl
    rw [he, hg.byUsr, declaration?_modifyDeclaration]
    cases g.declaration? c with
    | none => simp
    | some x => by_cases hd : d = c <;> simp [hd, hu]
  byKind kind c := by
    have he : (g.modifyDeclaration d f).declarationsByKind = g.declarationsByKind := rfl
    rw [he, hg.byKind, declaration?_modifyDeclaration]
    cases g.declaration? c with
    | none => simp
    | some x => by_cases hd : d = c <;> simp [hd, hk]

/-- A change that keeps what a declaration holds leaves every reference where it is. -/
theorem Owned.modifyDeclaration (hg : g.Owned) (hh : ∀ x b, (f x).held b = x.held b) :
    (g.modifyDeclaration d f).Owned :=
  hg.congr (fun _ => rfl) (fun _ _ _ => mem_heldBy_modifyDeclaration hh) rfl rfl

/-- A change that keeps identifiers, kind and links leaves the graph consistent. -/
theorem Coherent.modifyDeclaration (hg : g.Coherent named) (hu : ∀ x, (f x).usrs = x.usrs)
    (hk : ∀ x, (f x).kind = x.kind) (hl : ∀ x, (f x).links = x.links)
    (hh : ∀ x b, (f x).held b = x.held b) : (g.modifyDeclaration d f).Coherent named where
  toIndexed := hg.toIndexed.modifyDeclaration hu hk
  toNested := hg.toNested.congr (fun _ => map_declaration?_modifyDeclaration hl) rfl
  toOwned := hg.toOwned.modifyDeclaration hh
  toNoted := hg.toNoted.congr rfl (fun _ hd => by simpa using hd) (Nat.le_refl _)
  identified hn c x hx := by
    rw [declaration?_modifyDeclaration] at hx
    obtain ⟨y, hy, rfl⟩ := Option.map_eq_some_iff.1 hx
    have := hg.identified hn c y hy
    split <;> simpa [hu]

theorem Coherent.setAccess (hg : g.Coherent named) {access : Access} :
    (g.setAccess d access).Coherent named :=
  hg.modifyDeclaration (fun _ => rfl) (fun _ => rfl) (fun _ => rfl) fun _ _ => rfl

end Modify

theorem addUsr_of_dead {usr : String} (hd : g.hasDeclaration d ≠ true) : g.addUsr d usr = g := by
  simp [addUsr, hd]

theorem declaration?_addUsr {usr : String} : (g.addUsr d usr).declaration? c =
    (g.declaration? c).map fun x => if d = c then { x with usrs := x.usrs.insert usr } else x := by
  by_cases hd : g.hasDeclaration d = true
  · simp only [addUsr, hd, if_true]
    exact declaration?_modifyDeclaration
  · rw [addUsr_of_dead hd]
    cases hx : g.declaration? c with
    | none => rfl
    | some x =>
        have hne : d ≠ c := fun he => hd (he ▸ hasDeclaration_of_eq hx)
        simp [hne]

/-- One more identifier moves nothing in the tree. -/
theorem links_addUsr {usr : String} : ((g.addUsr d usr).declaration? c).map (·.links) =
    (g.declaration? c).map (·.links) := by
  rw [declaration?_addUsr]
  cases g.declaration? c with
  | none => rfl
  | some x => by_cases hd : d = c <;> simp [hd, Declaration.links]

@[simp] theorem roots_addUsr {usr : String} : (g.addUsr d usr).roots = g.roots := by
  unfold addUsr
  split <;> rfl

/-- One more identifier is filed where it is carried. -/
theorem Indexed.addUsr (hg : g.Indexed) {usr : String} : (g.addUsr d usr).Indexed := by
  by_cases hd : g.hasDeclaration d = true
  · obtain ⟨y, hy⟩ := hasDeclaration_iff.1 hd
    have hindex : (g.addUsr d usr).declarationsByUsr = Index.add g.declarationsByUsr usr d := by
      simp only [Graph.addUsr, hd, if_true]
    have hkinds : (g.addUsr d usr).declarationsByKind = g.declarationsByKind := by
      simp only [Graph.addUsr, hd, if_true]
      rfl
    refine ⟨fun u c => ?_, fun kind c => ?_⟩
    · rw [hindex, Index.get_add, declaration?_addUsr]
      by_cases hc : d = c
      · subst hc
        by_cases hu : u = usr
        · subst hu; simp [hy]
        · simp [hu, hy, hg.byUsr]
      · have hother : c ∈ (if u = usr then (Index.get g.declarationsByUsr usr).insert d else
            Index.get g.declarationsByUsr u).toList ↔
            c ∈ (Index.get g.declarationsByUsr u).toList := by
          split
          · simp [*, Ne.symm hc]
          · rfl
        rw [hother, hg.byUsr]
        simp [hc]
    · rw [hkinds, hg.byKind, declaration?_addUsr]
      cases g.declaration? c with
      | none => simp
      | some x => by_cases hd : d = c <;> simp [hd]
  · rw [addUsr_of_dead hd]
    exact hg

theorem Owned.addUsr (hg : g.Owned) {usr : String} : (g.addUsr d usr).Owned := by
  unfold Graph.addUsr
  split
  · exact hg.congr (fun _ => rfl) (fun _ _ _ => mem_heldBy_modifyDeclaration fun _ _ => rfl) rfl rfl
  · exact hg

/-- One more identifier leaves the graph consistent. -/
theorem Coherent.addUsr (hg : g.Coherent named) {usr : String} : (g.addUsr d usr).Coherent named where
  toIndexed := hg.toIndexed.addUsr
  toNested := hg.toNested.congr (fun _ => links_addUsr) roots_addUsr
  toOwned := hg.toOwned.addUsr
  toNoted := by
    unfold Graph.addUsr
    split
    · exact hg.toNoted.congr rfl
        (fun c hc => by rw [← hc]; exact hasDeclaration_modifyDeclaration) (Nat.le_refl _)
    · exact hg.toNoted
  identified hn c x hx := by
    rw [declaration?_addUsr] at hx
    obtain ⟨y, hy, rfl⟩ := Option.map_eq_some_iff.1 hx
    have := hg.identified hn c y hy
    split
    · exact List.ne_nil_of_mem (SortedSet.mem_insert.2 (.inl rfl))
    · exact this

theorem Coherent.unify (hg : g.Coherent named) {s : Symbol} : (g.unify d s).Coherent named := by
  have husrs : (s.usrs.toList.foldl (fun g usr => g.addUsr d usr) g).Coherent named :=
    List.foldlRecOn _ _ hg fun _ hk _ _ => hk.addUsr
  exact husrs.modifyDeclaration (fun _ => rfl) (fun _ => rfl) (fun _ => rfl) fun _ _ => rfl

/-- A declaration with the identifiers of one more symbol, and with what it says besides. -/
def joined (x : Declaration) (s : Symbol) : Declaration :=
  joinParts { x with usrs := x.usrs.union s.usrs } s

theorem declaration?_unify {s : Symbol} : (g.unify c s).declaration? d =
    (g.declaration? d).map fun x => if c = d then joined x s else x := by
  have hfold : ∀ (usrs : List String) (g : Graph),
      (usrs.foldl (fun g usr => g.addUsr c usr) g).declaration? d = (g.declaration? d).map fun x =>
        if c = d then { x with usrs := x.usrs.insertAll usrs } else x := by
    intro usrs
    induction usrs with
    | nil =>
        intro g
        have hsame : ∀ x : Declaration,
            (if c = d then { x with usrs := x.usrs.insertAll [] } else x) = x := by
          intro x
          split <;> rfl
        simp [hsame]
    | cons usr usrs ih =>
        intro g
        rw [List.foldl_cons, ih, declaration?_addUsr, Option.map_map]
        congr 1
        funext x
        simp only [Function.comp_apply]
        split <;> rfl
  rw [unify, declaration?_modifyDeclaration, hfold, Option.map_map]
  congr 1
  funext x
  simp only [Function.comp_apply]
  split <;> rfl

/-! ## Unused parameters -/

/-- A member listed as a parameter instead leaves the graph consistent. -/
theorem Coherent.relist (hg : g.Coherent named) (hp : g.parentOf? c = some p) :
    (g.modifyDeclaration p fun x =>
      (x.dropChild c).addChild .unusedParameter c).Coherent named where
  toIndexed := hg.toIndexed.congr (fun _ => map_declaration?_modifyDeclaration (fun _ => by simp))
    rfl rfl
  child_iff q a := by
    rw [parentOf?_modifyDeclaration fun _ => by simp, ← hg.child_iff]
    simp only [childrenOf, declaration?_modifyDeclaration]
    by_cases hq : p = q
    · subst hq
      have hc := (hg.child_iff p c).2 hp
      unfold childrenOf at hc
      cases hx : g.declaration? p with
      | none => simp
      | some x =>
          simp only [hx, Option.map_some, Option.getD_some] at hc
          simp only [Option.map_some, if_true, Option.getD_some,
            Declaration.mem_children_addChild, Declaration.mem_children_dropChild]
          by_cases ha : a = c <;> simp [ha, hc]
    · simp [hq]
  apart q x a hx := by
    rw [declaration?_modifyDeclaration] at hx
    obtain ⟨y, hy, rfl⟩ := Option.map_eq_some_iff.1 hx
    have := hg.apart q y a hy
    split
    · simp only [Declaration.addChild, Declaration.dropChild, SortedSet.mem_erase,
        SortedSet.mem_insert]
      tauto
    · exact this
  root_iff a := by
    refine (hg.root_iff a).trans ?_
    rw [hasDeclaration_modifyDeclaration, parentOf?_modifyDeclaration fun _ => by simp]
  toOwned := hg.toOwned.congr (fun _ => rfl)
    (fun _ _ _ => mem_heldBy_modifyDeclaration fun _ _ => by simp) rfl rfl
  toNoted := hg.toNoted.congr rfl (fun _ hd => by simpa using hd) (Nat.le_refl _)
  identified hn a x hx := by
    rw [declaration?_modifyDeclaration] at hx
    obtain ⟨y, hy, rfl⟩ := Option.map_eq_some_iff.1 hx
    have := hg.identified hn a y hy
    split <;> simpa

/-- Changing a declaration that is not there changes nothing in the view. -/
theorem modifyDeclaration_of_none {f : Declaration → Declaration}
    (h : g.declaration? d = none) : g.modifyDeclaration d f = g := by
  have hs : g.declarations.slots.modify d.index (·.map f) = g.declarations.slots := by
    apply Array.ext_getElem?
    intro i
    rw [Array.getElem?_modify]
    split
    · rename_i hi
      subst hi
      have h : g.declarations.slots[d.index]?.join = none := h
      cases hx : g.declarations.slots[d.index]? with
      | none => rfl
      | some o => cases o <;> simp_all
    · rfl
  unfold modifyDeclaration Arena.modify
  rw [hs]

theorem addUnusedParameter_fst {s : Symbol} : (g.addUnusedParameter s p).1 =
    (g.addDeclaration { s with kind := .parameter } (some p)).1.modifyDeclaration p fun x =>
      (x.dropChild g.nextDeclaration).addChild .unusedParameter g.nextDeclaration := rfl

theorem Coherent.addUnusedParameter (hg : g.Coherent named) {s : Symbol}
    (hs : named → s.usrs.toList ≠ []) (hp : p ≠ g.nextDeclaration) :
    (g.addUnusedParameter s p).1.Coherent named := by
  have hadd : (g.addDeclaration { s with kind := .parameter } (some p)).1.Coherent named :=
    hg.addDeclaration hs
  rw [addUnusedParameter_fst]
  by_cases hd : g.hasDeclaration p = true
  · refine hadd.relist ?_
    rw [parentOf?_addDeclaration, if_pos rfl]
    simp [Option.filter, hd]
  · rw [modifyDeclaration_of_none]
    · exact hadd
    · rw [declaration?_addDeclaration, if_neg hp]
      have : g.declaration? p = none := by simpa [hasDeclaration] using hd
      simp [this]

/-! ## References -/

section AddReference

variable {m : Mention} {owner : Option Owner}

/-- The graph with a new reference; `addReference` makes it where no equal one is there. -/
theorem addReference_eq_of_some {q : RefId} (h : g.equalReference? m.key owner = some q) :
    g.addReference m owner = (g, q) := by
  simp [addReference, h]

theorem references_size_linkReference {b : Bool} :
    (g.linkReference r b owner).references.size = g.references.size := by
  rcases owner with _ | ⟨o | o⟩ <;> simp [linkReference, modifyDeclaration, modifyReference]

variable (hnew : g.equalReference? m.key owner = none)

include hnew

theorem declaration?_addReference : (g.addReference m owner).1.declaration? d =
    (g.declaration? d).map fun x => if owner.filter g.hasOwner = some (.declaration d) then
      x.addReference m.isRelated g.nextReference else x := by
  rw [← declaration?_linkReference]
  simp only [addReference, hnew]
  rfl

theorem reference?_addReference : (g.addReference m owner).1.reference? r =
    if r = g.nextReference then some { m with owner := owner.filter g.hasOwner }
    else (g.reference? r).map fun x => if owner.filter g.hasOwner = some (.reference r) then
      { x with nested := x.nested.insert g.nextReference } else x := by
  have hr : r.index = g.references.size ↔ r = g.nextReference :=
    RefId.index_inj (b := g.nextReference)
  rw [← reference?_linkReference (b := m.isRelated)]
  simp only [addReference, hnew, reference?, Arena.get?_push, references_size_linkReference, hr]
  rfl

theorem referencesByUsr_addReference : (g.addReference m owner).1.referencesByUsr =
    Index.add g.referencesByUsr m.usr g.nextReference := by
  simp only [addReference, hnew]
  rfl

theorem rootReferences_addReference : (g.addReference m owner).1.rootReferences =
    if owner.filter g.hasOwner = none then g.rootReferences.insert g.nextReference
    else g.rootReferences := by
  simp only [addReference, hnew]
  rcases owner.filter g.hasOwner with _ | ⟨o | o⟩ <;> rfl

theorem references_size_addReference :
    (g.addReference m owner).1.references.size = g.references.size + 1 := by
  simp only [addReference, hnew, Arena.size_push, references_size_linkReference]

theorem notes_addReference : (g.addReference m owner).1.notes = g.notes := by
  simp only [addReference, hnew]
  rcases owner.filter g.hasOwner with _ | ⟨o | o⟩ <;> rfl

theorem roots_addReference : (g.addReference m owner).1.roots = g.roots := by
  simp only [addReference, hnew]
  rcases owner.filter g.hasOwner with _ | ⟨o | o⟩ <;> rfl

theorem declarationsByUsr_addReference :
    (g.addReference m owner).1.declarationsByUsr = g.declarationsByUsr := by
  simp only [addReference, hnew]
  rcases owner.filter g.hasOwner with _ | ⟨o | o⟩ <;> rfl

theorem declarationsByKind_addReference :
    (g.addReference m owner).1.declarationsByKind = g.declarationsByKind := by
  simp only [addReference, hnew]
  rcases owner.filter g.hasOwner with _ | ⟨o | o⟩ <;> rfl

theorem map_declaration?_addReference {α : Type} (get : Declaration → α)
    (hf : ∀ (x : Declaration) b q, get (x.addReference b q) = get x) :
    ((g.addReference m owner).1.declaration? d).map get = (g.declaration? d).map get := by
  rw [declaration?_addReference hnew]
  cases g.declaration? d with
  | none => rfl
  | some x => simp only [Option.map_some]; split <;> simp [hf]

theorem hasReference_addReference : (g.addReference m owner).1.hasReference r = true ↔
    r = g.nextReference ∨ g.hasReference r = true := by
  simp only [hasReference, reference?_addReference hnew]
  split <;> simp_all

theorem ownerOf?_addReference : (g.addReference m owner).1.ownerOf? r =
    if r = g.nextReference then owner.filter g.hasOwner else g.ownerOf? r := by
  simp only [ownerOf?, reference?_addReference hnew]
  split
  · rfl
  · cases g.reference? r with
    | none => rfl
    | some x => simp only [Option.map_some, Option.bind_some]; split <;> simp

theorem mem_heldBy_addReference {b : Bool} : r ∈ (g.addReference m owner).1.heldBy d b ↔
    (r = g.nextReference ∧ owner.filter g.hasOwner = some (.declaration d) ∧ m.isRelated = b) ∨
      r ∈ g.heldBy d b := by
  have hlive : owner.filter g.hasOwner = some (.declaration d) → g.hasDeclaration d = true :=
    fun h => (Option.filter_eq_some_iff.1 h).2
  simp only [heldBy, declaration?_addReference hnew]
  generalize owner.filter g.hasOwner = q at hlive ⊢
  cases hx : g.declaration? d with
  | none =>
      have hq : q ≠ some (.declaration d) := fun he => by simpa [hasDeclaration, hx] using hlive he
      simp [hq]
  | some x =>
      by_cases hq : q = some (.declaration d)
      · simp [hq, Declaration.mem_held_addReference]
      · simp [hq]

theorem mem_nestedReferences_addReference {o : RefId} :
    r ∈ (g.addReference m owner).1.nestedReferences o ↔
      (r = g.nextReference ∧ owner.filter g.hasOwner = some (.reference o)) ∨
        r ∈ g.nestedReferences o := by
  have hlive : owner.filter g.hasOwner = some (.reference o) → g.hasReference o = true :=
    fun h => (Option.filter_eq_some_iff.1 h).2
  simp only [nestedReferences, reference?_addReference hnew]
  generalize owner.filter g.hasOwner = q at hlive ⊢
  rcases eq_or_ne o g.nextReference with rfl | ho
  · have hq : q ≠ some (.reference g.nextReference) :=
      fun he => by simpa [hasReference] using hlive he
    simp [hq]
  · cases hx : g.reference? o with
    | none =>
        have hq : q ≠ some (.reference o) := fun he => by simpa [hasReference, hx] using hlive he
        simp [ho, hq]
    | some x =>
        by_cases hq : q = some (.reference o)
        · simp [ho, hq]
        · simp [ho, hq]

end AddReference

/-- The equal reference that is found has the key and the owner. -/
theorem reference?_of_equalReference? {key : Mention.Key} {w : Option Owner} {q : RefId}
    (hq : g.equalReference? key w = some q) :
    ∃ x, g.reference? q = some x ∧ x.owner = w ∧ x.toMention.key = key := by
  have hany := List.find?_some hq
  cases hx : g.reference? q with
  | none => simp [hx] at hany
  | some x =>
      simp only [hx, Option.any_some, Bool.and_eq_true, beq_iff_eq] at hany
      exact ⟨x, rfl, hany.1, hany.2⟩

theorem filter_hasOwner {w : Option Owner} (hw : ∀ o, w = some o → g.hasOwner o = true) :
    w.filter g.hasOwner = w := by
  cases w with
  | none => rfl
  | some o => simp [Option.filter, hw o rfl]

theorem filter_hasDeclaration {p : Option DeclId}
    (hp : ∀ q, p = some q → g.hasDeclaration q = true) : p.filter g.hasDeclaration = p := by
  cases p with
  | none => rfl
  | some q => simp [Option.filter, hp q rfl]

/-- An equal reference is found exactly when the owner has one. -/
theorem Owned.equalReference?_eq_none_iff (hg : g.Owned) {key : Mention.Key}
    {owner : Option Owner} : g.equalReference? key owner = none ↔
      ∀ r x, g.reference? r = some x → x.owner = owner → x.toMention.key ≠ key := by
  simp only [equalReference?, List.find?_eq_none]
  constructor
  · intro h r x hx ho hk
    have hr : r ∈ (Index.get g.referencesByUsr key.usr).toList :=
      (hg.uses _ _).2 ⟨x, hx, by rw [← hk]; rfl⟩
    have := h r hr
    simp [hx, ho, hk] at this
  · intro h r _ hr
    cases hx : g.reference? r with
    | none => simp [hx] at hr
    | some x =>
        simp only [hx, Option.any_some, Bool.and_eq_true, beq_iff_eq] at hr
        exact h r x hx hr.1 hr.2

section AddReference

variable {m : Mention} {owner : Option Owner}

theorem uses_addReference (hg : g.Owned) (hnew : g.equalReference? m.key owner = none)
    (usr : String) (r : RefId) :
    r ∈ (Index.get (g.addReference m owner).1.referencesByUsr usr).toList ↔
      ∃ x, (g.addReference m owner).1.reference? r = some x ∧ x.usr = usr := by
  rw [referencesByUsr_addReference hnew, Index.get_add, reference?_addReference hnew]
  rcases eq_or_ne r g.nextReference with rfl | hr
  · by_cases hu : usr = m.usr
    · simp [hu]
    · simp [hu, hg.uses, eq_comm]
  · have : r ∈ (if usr = m.usr then (Index.get g.referencesByUsr m.usr).insert
        g.nextReference else Index.get g.referencesByUsr usr).toList ↔
        r ∈ (Index.get g.referencesByUsr usr).toList := by
      split
      · simp [*]
      · rfl
    rw [this, hg.uses]
    cases g.reference? r with
    | none => simp [hr]
    | some x => simp only [hr, if_false, Option.map_some]; split <;> simp

/-- A reference from before says what it said, of the owner it had. -/
theorem exists_reference?_of_addReference (hnew : g.equalReference? m.key owner = none)
    {x : Reference} (hr : r ≠ g.nextReference)
    (hx : (g.addReference m owner).1.reference? r = some x) :
    ∃ y, g.reference? r = some y ∧ y.owner = x.owner ∧ y.toMention = x.toMention := by
  rw [reference?_addReference hnew, if_neg hr] at hx
  obtain ⟨y, hy, rfl⟩ := Option.map_eq_some_iff.1 hx
  refine ⟨y, hy, ?_⟩
  split <;> simp

/-- No reference from before has the owner and the key of a new one. -/
theorem key_ne_of_addReference (hg : g.Owned) (hnew : g.equalReference? m.key owner = none)
    {x : Reference} (hr : r ≠ g.nextReference)
    (hx : (g.addReference m owner).1.reference? r = some x)
    (ho : x.owner = owner.filter g.hasOwner) (hn : x.owner ≠ none) : x.toMention.key ≠ m.key := by
  obtain ⟨y, hy, hyo, hym⟩ := exists_reference?_of_addReference hnew hr hx
  obtain ⟨o, hxo⟩ := Option.ne_none_iff_exists'.1 hn
  -- an owner that is live is the owner that was asked for
  have howner : owner = some o := (Option.filter_eq_some_iff.1 (ho ▸ hxo)).1
  exact hym ▸ hg.equalReference?_eq_none_iff.1 hnew r y hy (by rw [hyo, hxo, howner])

theorem distinct_addReference (hg : g.Owned) (hnew : g.equalReference? m.key owner = none)
    {r s : RefId} {x y : Reference} (hx : (g.addReference m owner).1.reference? r = some x)
    (hy : (g.addReference m owner).1.reference? s = some y) (ho : x.owner = y.owner)
    (hn : x.owner ≠ none) (hk : x.toMention.key = y.toMention.key) : r = s := by
  have hfresh : ∀ z, (g.addReference m owner).1.reference? g.nextReference = some z →
      z = { m with owner := owner.filter g.hasOwner } := by
    intro z hz
    rw [reference?_addReference hnew, if_pos rfl] at hz
    exact (Option.some.inj hz).symm
  by_cases hr : r = g.nextReference
  · subst hr
    have hx := hfresh x hx
    subst hx
    by_contra hs
    exact key_ne_of_addReference hg hnew (Ne.symm hs) hy ho.symm (ho ▸ hn) hk.symm
  · by_cases hs : s = g.nextReference
    · subst hs
      have hy := hfresh y hy
      subst hy
      exact absurd hk (key_ne_of_addReference hg hnew hr hx ho hn)
    · obtain ⟨w, hw, hwo, hwm⟩ := exists_reference?_of_addReference hnew hr hx
      obtain ⟨v, hv, hvo, hvm⟩ := exists_reference?_of_addReference hnew hs hy
      exact hg.distinct r s w v hw hv (by rw [hwo, hvo, ho]) (by rw [hwo]; exact hn)
        (by rw [hwm, hvm]; exact hk)

theorem owned_addReference (hg : g.Owned) (hnew : g.equalReference? m.key owner = none) :
    (g.addReference m owner).1.Owned where
  uses := uses_addReference hg hnew
  held_iff d b r := by
    rw [mem_heldBy_addReference hnew, hg.held_iff, reference?_addReference hnew]
    rcases eq_or_ne r g.nextReference with rfl | hr
    · simp
    · cases g.reference? r with
      | none => simp [hr]
      | some x =>
          simp only [hr, false_and, false_or, if_false, Option.map_some]
          split <;> simp
  nested_iff o r := by
    rw [mem_nestedReferences_addReference hnew, hg.nested_iff, ownerOf?_addReference hnew]
    rcases eq_or_ne r g.nextReference with rfl | hr
    · simp [ownerOf?]
    · simp [hr]
  rootReference_iff r := by
    rw [rootReferences_addReference hnew, hasReference_addReference hnew,
      ownerOf?_addReference hnew]
    have hr := hg.rootReference_iff r
    generalize owner.filter g.hasOwner = q
    rcases eq_or_ne r g.nextReference with rfl | hne
    · simp only [hasReference, reference?_nextReference] at hr
      cases q <;> simp_all
    · cases q <;> simp_all
  owner_lt r o ho := by
    rw [ownerOf?_addReference hnew] at ho
    split at ho
    · rename_i hr
      subst hr
      exact index_lt_of_hasReference (Option.filter_eq_some_iff.1 ho).2
    · exact hg.owner_lt r o ho
  distinct r s x y := distinct_addReference hg hnew

theorem Indexed.addReference (hg : g.Indexed) : (g.addReference m owner).1.Indexed := by
  cases hnew : g.equalReference? m.key owner with
  | some q => rw [addReference_eq_of_some hnew]; exact hg
  | none =>
      exact hg.congr (fun _ => map_declaration?_addReference hnew _ fun _ _ _ => by simp)
        (declarationsByUsr_addReference hnew) (declarationsByKind_addReference hnew)

/-- **A new reference leaves the graph consistent.** -/
theorem Coherent.addReference (hg : g.Coherent named) : (g.addReference m owner).1.Coherent named := by
  cases hnew : g.equalReference? m.key owner with
  | some q => rw [addReference_eq_of_some hnew]; exact hg
  | none =>
      exact
        { toIndexed := hg.toIndexed.addReference
          toNested := hg.toNested.congr
            (fun _ => map_declaration?_addReference hnew _ fun x b q => by
              simp [Declaration.links]) (roots_addReference hnew)
          toOwned := owned_addReference hg.toOwned hnew
          toNoted := hg.toNoted.congr (notes_addReference hnew)
            (fun _ hd => by
              rw [hasDeclaration_congr (map_declaration?_addReference hnew (fun _ => ())
                fun _ _ _ => rfl)]
              exact hd)
            (by rw [references_size_addReference hnew]; omega)
          identified := fun hn d x hx => by
            rw [declaration?_addReference hnew] at hx
            obtain ⟨y, hy, rfl⟩ := Option.map_eq_some_iff.1 hx
            have := hg.identified hn d y hy
            split <;> simpa }

end AddReference

end Graph

end Deadwood

/-
  Moving declarations and references in a consistent graph.

  A move strikes an entry off where it was listed, lists it at its new place and changes the one
  link that points back.  Nothing else lists it, so both ends of every link agree again.
-/
import Deadwood.Proofs.Store.Addition
import Deadwood.Proofs.Store.Removal

namespace Deadwood

namespace Graph

variable {g : Graph} {a c d id target : DeclId} {r s q : RefId} {named : Prop}

/-! ## Declarations -/

/-- How a declaration is nested where it is now. -/
def nestingOf (g : Graph) (id : DeclId) : Nesting :=
  if (g.parentDeclaration? id).any fun p => p.parameters.contains id then .unusedParameter
  else .member

/-- The graph after a move; what `moveDeclaration` answers when both ends are there. -/
def relocated (g : Graph) (id target : DeclId) (x : Declaration) : Graph :=
  ((g.unlinkDeclaration id x.parent).linkDeclaration id (g.nestingOf id)
    (some target)).modifyDeclaration id fun x => { x with parent := some target }

theorem moveDeclaration_eq {x : Declaration} (hx : g.declaration? id = some x)
    (ht : g.hasDeclaration target = true) :
    g.moveDeclaration id target = g.relocated id target x := by
  simp only [moveDeclaration, hx, ht, if_true]
  rfl

theorem moveDeclaration_of_none (hx : g.declaration? id = none) :
    g.moveDeclaration id target = g := by
  simp [moveDeclaration, hx]

theorem moveDeclaration_of_dead (ht : g.hasDeclaration target ≠ true) :
    g.moveDeclaration id target = g := by
  unfold moveDeclaration
  split <;> simp [ht]

/-- **What moving a declaration does**: nothing, or both ends are there and it is moved. -/
theorem moveDeclaration_cases (g : Graph) (id target : DeclId) :
    g.moveDeclaration id target = g ∨ ∃ x, g.declaration? id = some x ∧
      g.hasDeclaration target = true ∧ g.moveDeclaration id target = g.relocated id target x := by
  cases hx : g.declaration? id with
  | none => exact .inl (moveDeclaration_of_none hx)
  | some x =>
      by_cases ht : g.hasDeclaration target = true
      · exact .inr ⟨x, rfl, ht, moveDeclaration_eq hx ht⟩
      · exact .inl (moveDeclaration_of_dead ht)

section Relocated

variable {x : Declaration}

theorem declaration?_relocated : (g.relocated id target x).declaration? c =
    (g.declaration? c).map fun y =>
      let y := if x.parent = some c then y.dropChild id else y
      let y := if target = c then y.addChild (g.nestingOf id) id else y
      if id = c then { y with parent := some target } else y := by
  simp only [relocated, declaration?_modifyDeclaration, declaration?_linkDeclaration,
    declaration?_unlinkDeclaration, Option.map_map, Function.comp_def, Option.some.injEq]

@[simp] theorem reference?_relocated : (g.relocated id target x).reference? r = g.reference? r := by
  simp [relocated]

theorem roots_relocated : (g.relocated id target x).roots =
    if x.parent = none then g.roots.erase id else g.roots := roots_unlinkDeclaration

@[simp] theorem references_relocated : (g.relocated id target x).references = g.references :=
  references_unlinkDeclaration

@[simp] theorem rootReferences_relocated :
    (g.relocated id target x).rootReferences = g.rootReferences := rootReferences_unlinkDeclaration

@[simp] theorem referencesByUsr_relocated :
    (g.relocated id target x).referencesByUsr = g.referencesByUsr :=
  referencesByUsr_unlinkDeclaration

@[simp] theorem notes_relocated : (g.relocated id target x).notes = g.notes :=
  notes_unlinkDeclaration

theorem declarationsByUsr_relocated :
    (g.relocated id target x).declarationsByUsr = g.declarationsByUsr := by
  unfold relocated
  cases x.parent <;> rfl

theorem declarationsByKind_relocated :
    (g.relocated id target x).declarationsByKind = g.declarationsByKind := by
  unfold relocated
  cases x.parent <;> rfl

theorem map_declaration?_relocated {α : Type} (get : Declaration → α)
    (hdrop : ∀ y c, get (Declaration.dropChild y c) = get y)
    (hadd : ∀ y n c, get (Declaration.addChild y n c) = get y)
    (hparent : ∀ (y : Declaration) p, get { y with parent := p } = get y) :
    ((g.relocated id target x).declaration? c).map get = (g.declaration? c).map get := by
  rw [declaration?_relocated]
  cases g.declaration? c with
  | none => rfl
  | some y =>
      simp only [Option.map_some]
      split <;> split <;> split <;> simp only [hdrop, hadd, hparent]

theorem hasDeclaration_relocated :
    (g.relocated id target x).hasDeclaration c = g.hasDeclaration c := by
  simp [hasDeclaration, declaration?_relocated]

theorem parentOf?_relocated (hx : g.declaration? id = some x) :
    (g.relocated id target x).parentOf? c = if c = id then some target else g.parentOf? c := by
  simp only [parentOf?, declaration?_relocated]
  rcases eq_or_ne id c with rfl | hc
  · simp [hx]
  · cases g.declaration? c with
    | none => simp [Ne.symm hc]
    | some y =>
        simp only [Option.map_some, Option.bind_some, hc, Ne.symm hc, if_false]
        split <;> split <;> simp

theorem mem_childrenOf_relocated (hg : g.Nested) (hx : g.declaration? id = some x)
    (ht : g.hasDeclaration target = true) :
    a ∈ (g.relocated id target x).childrenOf c ↔
      (a = id ∧ c = target) ∨ (a ∈ g.childrenOf c ∧ a ≠ id) := by
  have hold : id ∈ g.childrenOf c ↔ x.parent = some c := by
    rw [hg.child_iff, parentOf?, hx]; rfl
  simp only [childrenOf, declaration?_relocated]
  cases hy : g.declaration? c with
  | none =>
      have hne : c ≠ target := fun he => by simp [hasDeclaration, ← he, hy] at ht
      simp [hne]
  | some y =>
      simp only [childrenOf, hy, Option.map_some, Option.getD_some] at hold
      -- the parent link plays no part in the list of children
      have hparent : ∀ z : Declaration,
          a ∈ (if id = c then { z with parent := some target } else z : Declaration).children ↔
            a ∈ z.children := by
        intro z; split <;> rfl
      simp only [Option.map_some, Option.getD_some, hparent]
      by_cases hp : x.parent = some c <;> by_cases hc : target = c
      · simp [hp, hc, Declaration.mem_children_addChild, Declaration.mem_children_dropChild]
      · simp [hp, hc, Ne.symm hc, Declaration.mem_children_dropChild]
      · subst hc
        have hni : id ∉ y.children := fun h => hp (hold.1 h)
        simp only [hp, if_false, if_true, Declaration.mem_children_addChild, and_true]
        constructor
        · rintro (h | h)
          · exact .inl h
          · exact .inr ⟨h, fun he => hni (he ▸ h)⟩
        · rintro (h | h)
          · exact .inl h
          · exact .inr h.1
      · have hni : id ∉ y.children := fun h => hp (hold.1 h)
        simp only [hp, hc, if_false, Ne.symm hc, and_false, false_or]
        exact ⟨fun h => ⟨h, fun he => hni (he ▸ h)⟩, And.left⟩

theorem nested_relocated (hg : g.Nested) (hx : g.declaration? id = some x)
    (ht : g.hasDeclaration target = true) : (g.relocated id target x).Nested where
  child_iff p c := by
    rw [mem_childrenOf_relocated hg hx ht, parentOf?_relocated hx, hg.child_iff]
    rcases eq_or_ne c id with rfl | hc
    · simp [eq_comm]
    · simp [hc]
  apart p y c hy hm hq := by
    rw [declaration?_relocated] at hy
    obtain ⟨z, hz, rfl⟩ := Option.map_eq_some_iff.1 hy
    have hapart := hg.apart p z c hz
    have hold : id ∈ z.children → x.parent = some p := by
      intro h
      have := (hg.child_iff p id).1 (mem_childrenOf_iff.2 ⟨z, hz, Declaration.mem_children.1 h⟩)
      simpa [parentOf?, hx] using this
    -- a declaration is dropped from both lists before it is entered in one
    have hne : ∀ e ∈ z.children, (x.parent = some p → e ≠ id) → e ≠ id := fun e he hp hei =>
      hp (hold (hei ▸ he)) hei
    have hm : (c = id ∧ g.nestingOf id = .member) ∨ (c ∈ z.members.toList ∧ c ≠ id) := by
      have hz := hne c
      simp only [Declaration.mem_children] at hz
      revert hm
      split <;> split <;> split <;> cases g.nestingOf id <;>
        simp_all [Declaration.addChild, Declaration.dropChild] <;> tauto
    have hq : (c = id ∧ g.nestingOf id = .unusedParameter) ∨
        (c ∈ z.parameters.toList ∧ c ≠ id) := by
      have hz := hne c
      simp only [Declaration.mem_children] at hz
      revert hq
      split <;> split <;> split <;> cases g.nestingOf id <;>
        simp_all [Declaration.addChild, Declaration.dropChild] <;> tauto
    rcases hm with ⟨hm, hn⟩ | hm <;> rcases hq with ⟨hq, hn'⟩ | hq
    · rw [hn] at hn'; cases hn'
    · exact hq.2 hm
    · exact hm.2 hq
    · exact hapart hm.1 hq.1
  root_iff c := by
    rw [roots_relocated, hasDeclaration_relocated, parentOf?_relocated hx]
    have hroot := hg.root_iff c
    have hid : g.parentOf? id = x.parent := by simp [parentOf?, hx]
    rcases eq_or_ne c id with rfl | hc
    · split <;> simp_all
    · split <;> simp_all

theorem indexed_relocated (hg : g.Indexed) : (g.relocated id target x).Indexed :=
  hg.congr
    (fun _ => map_declaration?_relocated _ (fun _ _ => rfl) (fun _ _ _ => by simp) fun _ _ => rfl)
    declarationsByUsr_relocated declarationsByKind_relocated

theorem owned_relocated (hg : g.Owned) : (g.relocated id target x).Owned :=
  hg.congr (fun _ => reference?_relocated)
    (fun d b r => by
      have hd : ((g.relocated id target x).declaration? d).map (·.held b) =
          (g.declaration? d).map (·.held b) :=
        map_declaration?_relocated _ (fun _ _ => rfl) (fun _ _ _ => by simp) fun _ _ => rfl
      simp only [heldBy]
      cases hy : g.declaration? d <;> cases hz : (g.relocated id target x).declaration? d <;>
        simp_all)
    rootReferences_relocated referencesByUsr_relocated

theorem Coherent.relocated (hg : g.Coherent named) (hx : g.declaration? id = some x)
    (ht : g.hasDeclaration target = true) : (g.relocated id target x).Coherent named where
  toIndexed := indexed_relocated hg.toIndexed
  toNested := nested_relocated hg.toNested hx ht
  toOwned := owned_relocated hg.toOwned
  toNoted := hg.toNoted.congr notes_relocated (fun _ hd => by rwa [hasDeclaration_relocated])
    (by simp)
  identified hn c y hy := by
    rw [declaration?_relocated] at hy
    obtain ⟨z, hz, rfl⟩ := Option.map_eq_some_iff.1 hy
    have := hg.identified hn c z hz
    simp only
    split <;> split <;> split <;> simpa

end Relocated

/-- **A move leaves the graph consistent.** -/
theorem Coherent.moveDeclaration (hg : g.Coherent named) :
    (g.moveDeclaration id target).Coherent named := by
  obtain he | ⟨x, hx, ht, he⟩ := moveDeclaration_cases g id target <;> rw [he]
  · exact hg
  · exact hg.relocated hx ht

/-! ## References -/

/-- The graph after a reference moved; what `moveReference` answers when there is room for it. -/
def reowned (g : Graph) (q : RefId) (target : DeclId) (x : Reference) : Graph :=
  ((g.unlinkReference q x.owner).linkReference q x.isRelated
    (some (.declaration target))).modifyReference q fun x =>
      { x with owner := some (.declaration target) }

theorem moveReference_of_none (hx : g.reference? q = none) : g.moveReference q target = g := by
  simp [moveReference, hx]

section MoveReference

variable {x : Reference} (hx : g.reference? q = some x)

include hx

theorem moveReference_of_stay
    (hs : g.hasDeclaration target ≠ true ∨ x.owner = some (.declaration target)) :
    g.moveReference q target = g := by
  simp only [moveReference, hx]
  rcases hs with hs | hs <;> simp [hs]

theorem moveReference_of_equal (ht : g.hasDeclaration target = true)
    (ho : x.owner ≠ some (.declaration target))
    (he : g.equalReference? x.toMention.key (some (.declaration target)) ≠ none) :
    g.moveReference q target = g.removeReference q := by
  obtain ⟨e, he⟩ := Option.ne_none_iff_exists'.1 he
  simp [moveReference, hx, ht, ho, he]

theorem moveReference_of_new (ht : g.hasDeclaration target = true)
    (ho : x.owner ≠ some (.declaration target))
    (he : g.equalReference? x.toMention.key (some (.declaration target)) = none) :
    g.moveReference q target = g.reowned q target x := by
  simp [moveReference, hx, ht, ho, he, reowned]

end MoveReference

section Reowned

variable {x : Reference}

theorem declaration?_reowned : (g.reowned q target x).declaration? d =
    (g.declaration? d).map fun y =>
      let y := if x.owner = some (.declaration d) then y.dropReference q else y
      if target = d then y.addReference x.isRelated q else y := by
  simp only [reowned, declaration?_modifyReference, declaration?_linkReference,
    declaration?_unlinkReference, Option.map_map, Function.comp_def, Option.some.injEq,
    Owner.declaration.injEq]

theorem reference?_reowned : (g.reowned q target x).reference? r =
    (g.reference? r).map fun y =>
      let y := if x.owner = some (.reference r) then { y with nested := y.nested.erase q } else y
      if q = r then { y with owner := some (.declaration target) } else y := by
  simp only [reowned, reference?_modifyReference, reference?_linkReference,
    reference?_unlinkReference, Option.map_map, Function.comp_def, Option.some.injEq, reduceCtorEq,
    if_false]

theorem rootReferences_reowned : (g.reowned q target x).rootReferences =
    if x.owner = none then g.rootReferences.erase q else g.rootReferences :=
  rootReferences_unlinkReference

@[simp] theorem roots_reowned : (g.reowned q target x).roots = g.roots := roots_unlinkReference

@[simp] theorem notes_reowned : (g.reowned q target x).notes = g.notes := notes_unlinkReference

@[simp] theorem declarationsByUsr_reowned :
    (g.reowned q target x).declarationsByUsr = g.declarationsByUsr :=
  declarationsByUsr_unlinkReference

@[simp] theorem declarationsByKind_reowned :
    (g.reowned q target x).declarationsByKind = g.declarationsByKind :=
  declarationsByKind_unlinkReference

theorem referencesByUsr_reowned :
    (g.reowned q target x).referencesByUsr = g.referencesByUsr := by
  unfold reowned
  rcases x.owner with _ | ⟨o | o⟩ <;> rfl

theorem references_size_reowned :
    (g.reowned q target x).references.size = g.references.size := by
  unfold reowned
  rcases x.owner with _ | ⟨o | o⟩ <;>
    simp [unlinkReference, linkReference, modifyReference, modifyDeclaration]

theorem map_declaration?_reowned {α : Type} (get : Declaration → α)
    (hdrop : ∀ (y : Declaration) r, get (y.dropReference r) = get y)
    (hadd : ∀ (y : Declaration) b r, get (y.addReference b r) = get y) :
    ((g.reowned q target x).declaration? d).map get = (g.declaration? d).map get := by
  rw [declaration?_reowned]
  cases g.declaration? d with
  | none => rfl
  | some y =>
      simp only [Option.map_some]
      split <;> split <;> simp only [hdrop, hadd]

theorem hasDeclaration_reowned :
    (g.reowned q target x).hasDeclaration d = g.hasDeclaration d := by
  simp [hasDeclaration, declaration?_reowned]

theorem hasReference_reowned : (g.reowned q target x).hasReference r = g.hasReference r := by
  simp [hasReference, reference?_reowned]

theorem toMention_reowned : ((g.reowned q target x).reference? r).map (·.toMention) =
    (g.reference? r).map (·.toMention) := by
  rw [reference?_reowned]
  cases g.reference? r with
  | none => rfl
  | some y =>
      simp only [Option.map_some]
      split <;> split <;> rfl

/-- A reference says the same after a hand-over, and only what is handed over has another owner. -/
theorem exists_reference_reowned {y : Reference} (hy : g.reference? r = some y) :
    ∃ z, (g.reowned q target x).reference? r = some z ∧ z.toMention = y.toMention ∧
      z.owner = if r = q then some (.declaration target) else y.owner := by
  refine ⟨_, by rw [reference?_reowned, hy]; rfl, ?_, ?_⟩
  · split <;> split <;> rfl
  · rcases eq_or_ne q r with rfl | hne
    · simp
    · simp only [hne, Ne.symm hne, if_false]
      split <;> rfl

theorem exists_of_reference?_reowned {z : Reference}
    (hz : (g.reowned q target x).reference? r = some z) :
    ∃ y, g.reference? r = some y ∧ y.toMention = z.toMention ∧
      z.owner = if r = q then some (.declaration target) else y.owner := by
  obtain ⟨y, hy⟩ : ∃ y, g.reference? r = some y :=
    hasReference_iff.1 (by rw [← hasReference_reowned]; exact hasReference_of_eq hz)
  obtain ⟨w, hw, hm, ho⟩ : ∃ w, (g.reowned q target x).reference? r = some w ∧
      w.toMention = y.toMention ∧
      w.owner = if r = q then some (.declaration target) else y.owner := exists_reference_reowned hy
  rw [hz] at hw
  cases hw
  exact ⟨y, hy, hm.symm, ho⟩

theorem ownerOf?_reowned (hx : g.reference? q = some x) :
    (g.reowned q target x).ownerOf? r =
      if r = q then some (.declaration target) else g.ownerOf? r := by
  simp only [ownerOf?, reference?_reowned]
  rcases eq_or_ne q r with rfl | hr
  · simp [hx]
  · cases g.reference? r with
    | none => simp [Ne.symm hr]
    | some y =>
        simp only [Option.map_some, Option.bind_some, hr, Ne.symm hr, if_false]
        split <;> rfl

theorem mem_heldBy_reowned (hg : g.Owned) (hx : g.reference? q = some x) {b : Bool}
    (ht : g.hasDeclaration target = true) : r ∈ (g.reowned q target x).heldBy d b ↔
      (r = q ∧ d = target ∧ x.isRelated = b) ∨ (r ∈ g.heldBy d b ∧ r ≠ q) := by
  have hold : q ∈ g.heldBy d b → x.owner = some (.declaration d) := by
    intro hq
    obtain ⟨y, hy, ho, -⟩ := (hg.held_iff d b q).1 hq
    rw [hx] at hy
    exact Option.some.inj hy ▸ ho
  simp only [heldBy, declaration?_reowned]
  cases hy : g.declaration? d with
  | none =>
      have hne : d ≠ target := fun he => by simp [hasDeclaration, ← he, hy] at ht
      simp [hne]
  | some y =>
      simp only [heldBy, hy, Option.map_some, Option.getD_some] at hold ⊢
      have hkeep : x.owner ≠ some (.declaration d) → r ∈ (y.held b).toList → r ≠ q :=
        fun ho hr he => ho (hold (he ▸ hr))
      by_cases ho : x.owner = some (.declaration d) <;> by_cases hd : target = d
      · simp [ho, hd, Declaration.mem_held_addReference, Declaration.mem_held_dropReference]
      · simp [ho, hd, Ne.symm hd, Declaration.mem_held_dropReference]
      · subst hd
        simp only [ho, if_false, if_true, Declaration.mem_held_addReference, true_and]
        have := hkeep ho
        tauto
      · simp only [ho, hd, if_false, Ne.symm hd, false_and, and_false, false_or]
        have := hkeep ho
        tauto

theorem mem_nestedReferences_reowned (hg : g.Owned) (hx : g.reference? q = some x) :
    r ∈ (g.reowned q target x).nestedReferences s ↔ r ∈ g.nestedReferences s ∧ r ≠ q := by
  have hold : q ∈ g.nestedReferences s ↔ x.owner = some (.reference s) := by
    rw [hg.nested_iff, ownerOf?, hx]; rfl
  simp only [nestedReferences, reference?_reowned]
  cases hy : g.reference? s with
  | none => simp
  | some y =>
      simp only [nestedReferences, hy, Option.map_some, Option.getD_some] at hold ⊢
      have howner : ∀ z : Reference, (if q = s then { z with owner := some (.declaration target) }
          else z : Reference).nested = z.nested := by
        intro z; split <;> rfl
      simp only [howner]
      by_cases ho : x.owner = some (.reference s)
      · simp [ho]
      · simp only [ho, if_false]
        exact ⟨fun h => ⟨h, fun he => ho (hold.1 (he ▸ h))⟩, And.left⟩

/-- What is handed over is held by the target, and everything else by those who held it. -/
theorem held_iff_reowned (hg : g.Owned) (hx : g.reference? q = some x) {b : Bool}
    (ht : g.hasDeclaration target = true) : r ∈ (g.reowned q target x).heldBy d b ↔
      ∃ z, (g.reowned q target x).reference? r = some z ∧ z.owner = some (.declaration d) ∧
        z.isRelated = b := by
  rw [mem_heldBy_reowned hg hx ht, hg.held_iff]
  constructor
  · rintro (⟨rfl, rfl, rfl⟩ | ⟨⟨y, hy, ho, hb⟩, hr⟩)
    · obtain ⟨z, hz, hm, hzo⟩ := exists_reference_reowned hx
      exact ⟨z, hz, by simpa using hzo, by rw [hm]⟩
    · obtain ⟨z, hz, hm, hzo⟩ := exists_reference_reowned hy
      exact ⟨z, hz, by rw [hzo, if_neg hr, ho], by rw [hm]; exact hb⟩
  · rintro ⟨z, hz, ho, hb⟩
    obtain ⟨y, hy, hm, hzo⟩ := exists_of_reference?_reowned hz
    rcases eq_or_ne r q with rfl | hr
    · rw [hx] at hy
      cases hy
      rw [if_pos rfl, ho] at hzo
      simp only [Option.some.injEq, Owner.declaration.injEq] at hzo
      exact .inl ⟨rfl, hzo, by rw [← hb, ← hm]⟩
    · rw [if_neg hr] at hzo
      exact .inr ⟨⟨y, hy, by rw [← hzo, ho], by rw [← hb, ← hm]⟩, hr⟩

/-- Where no reference of the target has the key of what is handed over, keys stay distinct. -/
theorem distinct_reowned {y z : Reference} (hg : g.Owned) (hx : g.reference? q = some x)
    (hnew : g.equalReference? x.toMention.key (some (.declaration target)) = none)
    (hy : (g.reowned q target x).reference? r = some y)
    (hz : (g.reowned q target x).reference? s = some z) (ho : y.owner = z.owner)
    (hn : y.owner ≠ none) (hk : y.toMention.key = z.toMention.key) : r = s := by
  have hnone := hg.equalReference?_eq_none_iff.1 hnew
  obtain ⟨v, hv, hvm, hvo⟩ := exists_of_reference?_reowned hy
  obtain ⟨w, hw, hwm, hwo⟩ := exists_of_reference?_reowned hz
  have hkey : v.toMention.key = w.toMention.key := by rw [hvm, hwm, hk]
  by_cases hr : r = q
  · by_cases hs : s = q
    · rw [hr, hs]
    · rw [if_pos hr] at hvo
      rw [if_neg hs] at hwo
      have hvx : v = x := by rw [hr, hx] at hv; exact (Option.some.inj hv).symm
      exact absurd (hvx ▸ hkey.symm) (hnone s w hw (by rw [← hwo, ← ho, hvo]))
  · by_cases hs : s = q
    · rw [if_neg hr] at hvo
      rw [if_pos hs] at hwo
      have hwx : w = x := by rw [hs, hx] at hw; exact (Option.some.inj hw).symm
      exact absurd (hwx ▸ hkey) (hnone r v hv (by rw [← hvo, ho, hwo]))
    · rw [if_neg hr] at hvo
      rw [if_neg hs] at hwo
      exact hg.distinct r s v w hv hw (by rw [← hvo, ← hwo, ho]) (by rw [← hvo]; exact hn) hkey

theorem owned_reowned (hg : g.Owned) (hx : g.reference? q = some x)
    (ht : g.hasDeclaration target = true)
    (hnew : g.equalReference? x.toMention.key (some (.declaration target)) = none) :
    (g.reowned q target x).Owned where
  uses usr r := by
    rw [referencesByUsr_reowned, hg.uses]
    have : ((g.reowned q target x).reference? r).map (·.toMention) =
        (g.reference? r).map (·.toMention) := toMention_reowned
    cases hy : g.reference? r <;> cases hz : (g.reowned q target x).reference? r <;> simp_all
  held_iff _ _ _ := held_iff_reowned hg hx ht
  nested_iff o r := by
    rw [mem_nestedReferences_reowned hg hx, hg.nested_iff, ownerOf?_reowned hx]
    by_cases hr : r = q <;> simp [hr]
  rootReference_iff r := by
    rw [rootReferences_reowned, hasReference_reowned, ownerOf?_reowned hx]
    have hroot := hg.rootReference_iff r
    have hq : g.ownerOf? q = x.owner := by simp [ownerOf?, hx]
    rcases eq_or_ne r q with rfl | hr
    · split <;> simp_all
    · split <;> simp_all
  owner_lt r o ho := by
    rw [ownerOf?_reowned hx] at ho
    split at ho
    · cases ho
    · exact hg.owner_lt r o ho
  distinct _ _ _ _ hy hz ho hn hk := distinct_reowned hg hx hnew hy hz ho hn hk

theorem indexed_reowned (hg : g.Indexed) : (g.reowned q target x).Indexed :=
  hg.congr (fun _ => map_declaration?_reowned _ (fun _ _ => rfl) fun _ _ _ => by simp)
    declarationsByUsr_reowned declarationsByKind_reowned

theorem Coherent.reowned (hg : g.Coherent named) (hx : g.reference? q = some x)
    (ht : g.hasDeclaration target = true)
    (hnew : g.equalReference? x.toMention.key (some (.declaration target)) = none) :
    (g.reowned q target x).Coherent named where
  toIndexed := indexed_reowned hg.toIndexed
  toNested := hg.toNested.congr
    (fun _ => map_declaration?_reowned _ (fun _ _ => rfl) fun _ _ _ => by
      simp [Declaration.links]) roots_reowned
  toOwned := owned_reowned hg.toOwned hx ht hnew
  toNoted := hg.toNoted.congr notes_reowned
    (fun _ hd => by rw [hasDeclaration_reowned]; exact hd)
    (Nat.le_of_eq references_size_reowned.symm)
  identified hn d y hy := by
    rw [declaration?_reowned] at hy
    obtain ⟨z, hz, rfl⟩ := Option.map_eq_some_iff.1 hy
    have := hg.identified hn d z hz
    simp only
    split <;> split <;> simpa

end Reowned

/-- **What moving a reference does**: nothing, or the reference goes because its equal is there, or it
is moved. -/
theorem moveReference_cases (g : Graph) (q : RefId) (target : DeclId) :
    g.moveReference q target = g ∨ g.moveReference q target = g.removeReference q ∨
      ∃ x, g.reference? q = some x ∧ g.hasDeclaration target = true ∧
        g.equalReference? x.toMention.key (some (.declaration target)) = none ∧
        g.moveReference q target = g.reowned q target x := by
  cases hx : g.reference? q with
  | none => exact .inl (moveReference_of_none hx)
  | some x =>
      by_cases hs : g.hasDeclaration target ≠ true ∨ x.owner = some (.declaration target)
      · exact .inl (moveReference_of_stay hx hs)
      · obtain ⟨ht, ho⟩ := not_or.1 hs
        rw [ne_eq, not_not] at ht
        by_cases he : g.equalReference? x.toMention.key (some (.declaration target)) = none
        · exact .inr (.inr ⟨x, rfl, ht, he, moveReference_of_new hx ht ho he⟩)
        · exact .inr (.inl (moveReference_of_equal hx ht ho he))

/-- **A moved reference leaves the graph consistent.** -/
theorem Coherent.moveReference (hg : g.Coherent named) : (g.moveReference q target).Coherent named := by
  obtain he | he | ⟨x, hx, ht, hnew, he⟩ := moveReference_cases g q target <;> rw [he]
  · exact hg
  · exact hg.removeReference
  · exact hg.reowned hx ht hnew

/-! ## Notes -/

theorem notes_moveDeclaration : (g.moveDeclaration id target).notes = g.notes := by
  obtain he | ⟨x, -, -, he⟩ := moveDeclaration_cases g id target <;> rw [he]
  exact notes_relocated

theorem notes_moveReference (hg : g.Owned) : (g.moveReference q target).notes = g.notes := by
  obtain he | he | ⟨x, -, -, -, he⟩ := moveReference_cases g q target <;> rw [he]
  · exact (pruned_removeReference hg q).notes
  · exact notes_reowned

end Graph

end Deadwood

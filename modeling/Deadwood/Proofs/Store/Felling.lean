/-
  Removing declarations from a consistent graph.

  1. **`Felled ids gone g h`** — `h` is `g` without the declarations of the list `ids` and the
     references of the list `gone`.  Taking out one declaration after the other fells the list and
     prunes what the declarations refer to.

  2. **Half of the tree** — while a subtree is being felled, parents are gone before their children,
     so only half of `Nested` holds in between: `Rooted`, that whoever lists another declaration is
     its parent.  The other half comes back at the end, because a subtree is closed under children.
-/
import Deadwood.Proofs.Store.Removal

namespace Deadwood

/-- The declaration without some of those nested in it. -/
def Declaration.withoutChildren (x : Declaration) (ids : List DeclId) : Declaration :=
  { x with members := x.members.without ids, parameters := x.parameters.without ids }

theorem Declaration.withoutChildren_withoutChildren {x : Declaration} {ids more : List DeclId} :
    (x.withoutChildren ids).withoutChildren more = x.withoutChildren (ids ++ more) := by
  simp only [Declaration.withoutChildren, SortedSet.without_without]

theorem Declaration.without_withoutChildren {x : Declaration} {ids : List DeclId}
    {gone : List RefId} :
    (x.without gone).withoutChildren ids = (x.withoutChildren ids).without gone := rfl

@[simp] theorem Declaration.withoutChildren_nil {x : Declaration} : x.withoutChildren [] = x := by
  simp [Declaration.withoutChildren]

theorem Declaration.mem_children_withoutChildren {x : Declaration} {ids : List DeclId}
    {c : DeclId} : c ∈ (x.withoutChildren ids).children ↔ c ∈ x.children ∧ c ∉ ids := by
  simp only [Declaration.withoutChildren, Declaration.mem_children, SortedSet.mem_without]
  tauto

/-- Striking off a child that is not listed changes nothing. -/
theorem Declaration.withoutChildren_eq_self {x : Declaration} {ids : List DeclId}
    (h : ∀ c ∈ x.children, c ∉ ids) : x.withoutChildren ids = x := by
  have hm : x.members.without ids = x.members :=
    SortedSet.without_eq_self fun c hc => h c (Declaration.mem_children.2 (.inl hc))
  have hp : x.parameters.without ids = x.parameters :=
    SortedSet.without_eq_self fun c hc => h c (Declaration.mem_children.2 (.inr hc))
  simp only [Declaration.withoutChildren, hm, hp]

theorem Declaration.dropChild_eq_withoutChildren {x : Declaration} {c : DeclId} :
    x.dropChild c = x.withoutChildren [c] := by
  simp only [Declaration.dropChild, Declaration.withoutChildren, SortedSet.erase_eq_without]

namespace Graph

variable {g h k : Graph} {c d p id : DeclId} {r s : RefId} {ids more : List DeclId}
  {gone away : List RefId} {named : Prop}

/-- `h` is `g` without some declarations and some references. -/
structure Felled (ids : List DeclId) (gone : List RefId) (g h : Graph) : Prop
    extends Trimmed gone g h where
  declaration : ∀ c, h.declaration? c = if c ∈ ids then none else
    (g.declaration? c).map fun x => (x.withoutChildren ids).without gone
  roots : h.roots = g.roots.without ids
  byUsr : ∀ usr,
    Index.get h.declarationsByUsr usr = (Index.get g.declarationsByUsr usr).without ids
  byKind : ∀ kind,
    Index.get h.declarationsByKind kind = (Index.get g.declarationsByKind kind).without ids
  marks : ∀ mark, h.marks.of mark = (g.marks.of mark).without ids
  results : { h.notes with marks := g.marks } = g.notes

/-- Whoever lists another declaration is its parent, and what is listed is there. -/
structure Rooted (g : Graph) : Prop where
  child : ∀ p x c, g.declaration? p = some x → c ∈ x.children → c ≠ p → g.parentOf? c = some p
  root : ∀ c ∈ g.roots.toList, g.hasDeclaration c = true ∧ g.parentOf? c = none
  byUsr : ∀ usr, ∀ d ∈ (Index.get g.declarationsByUsr usr).toList,
    ∃ x, g.declaration? d = some x ∧ usr ∈ x.usrs.toList
  byKind : ∀ kind, ∀ d ∈ (Index.get g.declarationsByKind kind).toList,
    ∃ x, g.declaration? d = some x ∧ x.kind = kind
  marked : ∀ mark, ∀ d ∈ (g.marks.of mark).toList, g.hasDeclaration d = true

theorem Coherent.rooted (hg : g.Coherent named) : g.Rooted where
  child p x c hx hc _ := (hg.child_iff p c).1 (mem_childrenOf_iff.2
    ⟨x, hx, Declaration.mem_children.1 hc⟩)
  root c hc := (hg.root_iff c).1 hc
  byUsr usr d hd := (hg.byUsr usr d).1 hd
  byKind kind d hd := (hg.byKind kind d).1 hd
  marked := hg.marked_live

theorem Pruned.felled (hp : Pruned gone g h) : Felled [] gone g h where
  toTrimmed := hp.toTrimmed
  declaration c := by simp [hp.declaration]
  roots := by simp [hp.roots]
  byUsr usr := by simp [hp.byUsr]
  byKind kind := by simp [hp.byKind]
  marks mark := by
    have hm : h.marks = g.marks := congrArg Notes.marks hp.notes
    simp [hm]
  results := by rw [hp.notes]; rfl

namespace Felled

theorem trans (hgh : Felled ids gone g h) (hhk : Felled more away h k) :
    Felled (ids ++ more) (gone ++ away) g k where
  declaration c := by
    rw [hhk.declaration, hgh.declaration]
    by_cases hc : c ∈ ids <;> by_cases hm : c ∈ more <;>
      simp [hc, hm, Function.comp_def, Declaration.without_withoutChildren,
        Declaration.without_without, Declaration.withoutChildren_withoutChildren]
  toTrimmed := hgh.toTrimmed.trans hhk.toTrimmed
  roots := by rw [hhk.roots, hgh.roots, SortedSet.without_without]
  byUsr usr := by rw [hhk.byUsr, hgh.byUsr, SortedSet.without_without]
  byKind kind := by rw [hhk.byKind, hgh.byKind, SortedSet.without_without]
  marks mark := by rw [hhk.marks, hgh.marks, SortedSet.without_without]
  results := by
    rw [← hgh.results, ← hhk.results]

/-- The children that are left. -/
theorem mem_childrenOf_iff (h : Felled ids gone g k) :
    c ∈ k.childrenOf p ↔ c ∈ g.childrenOf p ∧ p ∉ ids ∧ c ∉ ids := by
  simp only [childrenOf, h.declaration]
  by_cases hp : p ∈ ids
  · simp [hp]
  · cases g.declaration? p with
    | none => simp
    | some x =>
        simp only [hp, if_false, Option.map_some, Option.getD_some, not_false_eq_true, true_and]
        exact Declaration.mem_children_withoutChildren

/-- Only the live references of the list count. -/
theorem congr (hg : g.Listed) (h : Felled ids gone g k)
    (hm : ∀ r, g.hasReference r = true → (r ∈ gone ↔ r ∈ away)) : Felled ids away g k where
  toTrimmed := h.toTrimmed.congr hg hm
  declaration c := by
    rw [h.declaration]
    cases hx : g.declaration? c with
    | none => rfl
    | some x =>
        have hw := congrArg (·.withoutChildren ids) (hg.without_congr hx hm)
        simp only [Declaration.without_withoutChildren] at hw
        simp only [Option.map_some, hw]
  roots := h.roots
  byUsr := h.byUsr
  byKind := h.byKind
  marks := h.marks
  results := h.results

theorem hasDeclaration_iff (h : Felled ids gone g k) :
    k.hasDeclaration d = true ↔ g.hasDeclaration d = true ∧ d ∉ ids := by
  simp only [hasDeclaration, h.declaration]
  by_cases hd : d ∈ ids <;> simp [hd]

theorem parentOf? (h : Felled ids gone g k) (hc : c ∉ ids) : k.parentOf? c = g.parentOf? c := by
  simp only [Graph.parentOf?, h.declaration, if_neg hc]
  cases g.declaration? c <;> rfl

theorem mem_heldBy_iff {b : Bool} (h : Felled ids gone g k) :
    r ∈ k.heldBy d b ↔ r ∈ g.heldBy d b ∧ d ∉ ids ∧ r ∉ gone := by
  simp only [heldBy, h.declaration]
  by_cases hd : d ∈ ids
  · simp [hd]
  · cases g.declaration? d with
    | none => simp
    | some x => cases b <;> simp [hd, Declaration.held, Declaration.withoutChildren, Declaration.without]

theorem rooted (h : Felled ids gone g k) (hg : g.Rooted) : k.Rooted where
  child p x c hx hc hne := by
    rw [h.declaration] at hx
    split at hx
    · cases hx
    · obtain ⟨y, hy, rfl⟩ := Option.map_eq_some_iff.1 hx
      have hc := Declaration.mem_children_withoutChildren.1 hc
      rw [h.parentOf? hc.2]
      exact hg.child p y c hy hc.1 hne
  root c hc := by
    rw [h.roots, SortedSet.mem_without] at hc
    have := hg.root c hc.1
    rw [h.hasDeclaration_iff, h.parentOf? hc.2]
    exact ⟨⟨this.1, hc.2⟩, this.2⟩
  byUsr usr d hd := by
    rw [h.byUsr, SortedSet.mem_without] at hd
    obtain ⟨x, hx, hu⟩ := hg.byUsr usr d hd.1
    exact ⟨(x.withoutChildren ids).without gone, by rw [h.declaration, if_neg hd.2, hx]; rfl, hu⟩
  byKind kind d hd := by
    rw [h.byKind, SortedSet.mem_without] at hd
    obtain ⟨x, hx, hk⟩ := hg.byKind kind d hd.1
    exact ⟨(x.withoutChildren ids).without gone, by rw [h.declaration, if_neg hd.2, hx]; rfl, hk⟩
  marked mark d hd := by
    rw [h.marks, SortedSet.mem_without] at hd
    exact h.hasDeclaration_iff.2 ⟨hg.marked mark d hd.1, hd.2⟩

/-- References stay owned, when the references of the felled declarations go with them. -/
theorem owned (h : Felled ids gone g k) (hg : g.Owned) (hc : g.ClosedUnderNesting gone)
    (hids : ∀ d ∈ ids, ∀ b, ∀ r ∈ g.heldBy d b, r ∈ gone) : k.Owned :=
  h.toTrimmed.owned hg hc fun d b r => by
    rw [h.mem_heldBy_iff]
    exact and_congr_right fun hr => ⟨And.right, fun hn => ⟨fun hd => hn (hids d hd b r hr), hn⟩⟩

end Felled

/-! ## Taking out one declaration -/

/-- Unlink a declaration and empty its slot. -/
def uproot (g : Graph) (id : DeclId) (x : Declaration) : Graph :=
  { g.unlinkDeclaration id x.parent with
    declarations := (g.unlinkDeclaration id x.parent).declarations.erase id.index
    declarationsByUsr :=
      x.usrs.toList.foldl (fun index usr => Index.drop index usr id) g.declarationsByUsr
    declarationsByKind := Index.drop g.declarationsByKind x.kind id
    marks := g.marks.forget id }

theorem takeDeclaration_eq {x : Declaration} (hx : g.declaration? id = some x) :
    g.takeDeclaration id = (x.ownReferences.foldl removeReference g).uproot id x := by
  simp only [takeDeclaration, hx, uproot]

theorem declaration?_uproot {x : Declaration} : (g.uproot id x).declaration? c =
    if c = id then none else
      (g.declaration? c).map fun y => if x.parent = some c then y.dropChild id else y := by
  rw [← declaration?_unlinkDeclaration]
  simp only [uproot, Graph.declaration?, Arena.get?_erase, DeclId.index_inj, @eq_comm _ id c]

/-- Uprooting a declaration takes it off the indices, whoever lists it. -/
theorem Indexed.uproot {x : Declaration} (hg : g.Indexed) (hx : g.declaration? id = some x) :
    (g.uproot id x).Indexed where
  byUsr usr c := by
    show c ∈ (Index.get (x.usrs.toList.foldl (fun index usr => Index.drop index usr id)
      g.declarationsByUsr) usr).toList ↔ _
    rw [Index.mem_get_foldl_drop, hg.byUsr, declaration?_uproot]
    rcases eq_or_ne c id with rfl | hc
    · simp [hx]
    · cases g.declaration? c with
      | none => simp [hc]
      | some y => simp only [hc, if_false, Option.map_some]; split <;> simp
  byKind kind c := by
    show c ∈ (Index.get (Index.drop g.declarationsByKind x.kind id) kind).toList ↔ _
    rw [Index.get_drop, declaration?_uproot]
    rcases eq_or_ne c id with rfl | hc
    · split
      · simp
      · rename_i hk
        simp [hg.byKind, hx, Ne.symm hk]
    · have hother : c ∈ (if kind = x.kind then (Index.get g.declarationsByKind x.kind).erase id else
          Index.get g.declarationsByKind kind).toList ↔
          c ∈ (Index.get g.declarationsByKind kind).toList := by
        split
        · simp [*]
        · rfl
      rw [hother, hg.byKind]
      cases g.declaration? c with
      | none => simp [hc]
      | some y => simp only [hc, if_false, Option.map_some]; split <;> simp

/-- Uprooting a declaration that holds no reference leaves every reference where it is. -/
theorem Owned.uproot {x : Declaration} (hg : g.Owned) (hfree : ∀ b r, r ∉ g.heldBy id b) :
    (g.uproot id x).Owned := by
  refine hg.congr (fun _ => reference?_unlinkDeclaration) (fun d b r => ?_)
    rootReferences_unlinkDeclaration referencesByUsr_unlinkDeclaration
  rcases eq_or_ne d id with rfl | hd
  · have hgone : (g.uproot d x).declaration? d = none := by rw [declaration?_uproot, if_pos rfl]
    have hnone : r ∉ (g.uproot d x).heldBy d b := by simp [heldBy, hgone]
    exact ⟨fun hr => absurd hr hnone, fun hr => absurd hr (hfree b r)⟩
  · simp only [heldBy, declaration?_uproot, if_neg hd]
    cases g.declaration? d with
    | none => rfl
    | some y => simp only [Option.map_some, Option.getD_some]; split <;> simp

/-- A declaration that is not the parent of another one does not list it. -/
theorem Rooted.withoutChildren_of_not_parent (hg : g.Rooted) {x : Declaration}
    (hx : g.declaration? p = some x) (hne : id ≠ p) (hp : g.parentOf? id ≠ some p) :
    x.withoutChildren [id] = x := by
  refine Declaration.withoutChildren_eq_self fun c hc hmem => ?_
  obtain rfl := List.mem_singleton.1 hmem
  exact hp (hg.child p x c hx hc hne)

/-- **Uprooting a declaration fells it**: only its parent lists it. -/
theorem felled_uproot {x : Declaration} (hg : g.Rooted) (hx : g.declaration? id = some x) :
    Felled [id] [] g (g.uproot id x) where
  declaration c := by
    rw [declaration?_uproot]
    by_cases hc : c = id
    · simp [hc]
    · rw [if_neg hc, if_neg (by simpa using hc)]
      cases hy : g.declaration? c with
      | none => rfl
      | some y =>
          simp only [Option.map_some, Declaration.without_nil]
          split
          · rw [Declaration.dropChild_eq_withoutChildren]
          · rename_i hp
            rw [hg.withoutChildren_of_not_parent hy (Ne.symm hc) (by simpa [parentOf?, hx] using hp)]
  reference r := by
    have he : (g.uproot id x).reference? r = g.reference? r := reference?_unlinkDeclaration
    simp [he]
  rootReferences := by
    have he : (g.uproot id x).rootReferences = g.rootReferences := rootReferences_unlinkDeclaration
    simp [he]
  uses usr := by
    have he : (g.uproot id x).referencesByUsr = g.referencesByUsr :=
      referencesByUsr_unlinkDeclaration
    simp [he]
  references_size := by
    show (g.unlinkDeclaration id x.parent).references.size = _
    rw [references_unlinkDeclaration]
  declarations_size := by
    show (Arena.erase _ _).size = _
    rw [Arena.size_erase, declarations_size_unlinkDeclaration]
  roots := by
    refine roots_unlinkDeclaration.trans ?_
    split
    · exact SortedSet.erase_eq_without
    · rename_i hp
      refine (SortedSet.without_singleton fun hroot => hp ?_).symm
      simpa [parentOf?, hx] using (hg.root id hroot).2
  byUsr usr := Index.get_foldl_drop_eq_without fun hid => by
    obtain ⟨y, hy, hu⟩ := hg.byUsr usr id hid
    rw [hx] at hy
    cases hy
    exact hu
  byKind kind := Index.get_drop_eq_without fun hid => by
    obtain ⟨y, hy, hk⟩ := hg.byKind kind id hid
    rw [hx] at hy
    cases hy
    exact hk.symm
  marks mark := by
    show (g.marks.forget id).of mark = _
    cases mark <;> exact SortedSet.erase_eq_without
  results := by
    have he : (g.unlinkDeclaration id x.parent).notes = g.notes := notes_unlinkDeclaration
    have hn : (g.uproot id x).notes =
        { (g.unlinkDeclaration id x.parent).notes with marks := g.marks.forget id } := rfl
    rw [hn, he]
    rfl

theorem mem_referencesFrom_iff :
    r ∈ g.referencesFrom d ↔ ∃ b, ∃ q ∈ g.heldBy d b, g.Nests q r := by
  simp only [referencesFrom, heldBy]
  cases g.declaration? d with
  | none => simp
  | some x =>
      simp only [List.mem_flatMap, mem_referenceTree, Declaration.mem_ownReferences,
        Option.map_some, Option.getD_some]
      constructor
      · rintro ⟨q, ⟨b, hb⟩, hq⟩
        exact ⟨b, q, hb, hq⟩
      · rintro ⟨b, q, hb, hq⟩
        exact ⟨q, ⟨b, hb⟩, hq⟩

theorem closedUnderNesting_referencesFrom (hg : g.Owned) (ids : List DeclId) :
    g.ClosedUnderNesting (ids.flatMap g.referencesFrom) := by
  intro r s hs hr
  obtain ⟨d, hd, hr⟩ := List.mem_flatMap.1 hr
  obtain ⟨b, q, hq, hn⟩ := mem_referencesFrom_iff.1 hr
  refine List.mem_flatMap.2 ⟨d, hd, mem_referencesFrom_iff.2 ⟨b, q, hq, ?_⟩⟩
  exact .step hn ((hg.nested_iff r s).2 hs) (mem_refIds.2 (live_of_ownerOf? hs))

/-- What a declaration holds is among what it refers to. -/
theorem Owned.mem_referencesFrom_of_held (hg : g.Owned) {b : Bool} (hr : r ∈ g.heldBy d b) :
    r ∈ g.referencesFrom d := by
  obtain ⟨x, hx, -⟩ := (hg.held_iff d b r).1 hr
  exact mem_referencesFrom_iff.2 ⟨b, r, hr, .here (mem_refIds.2 (hasReference_of_eq hx))⟩

/-- A declaration that is not there is listed nowhere, so nothing is left to fell. -/
theorem felled_of_none (hg : g.Rooted) (hx : g.declaration? id = none) : Felled [id] [] g g where
  toTrimmed := Pruned.refl.toTrimmed
  declaration c := by
    by_cases hc : c = id
    · simp [hc, hx]
    · rw [if_neg (by simpa using hc)]
      cases hy : g.declaration? c with
      | none => rfl
      | some y =>
          refine congrArg some ?_
          show y = (y.withoutChildren [id]).without []
          rw [Declaration.without_nil, hg.withoutChildren_of_not_parent hy (Ne.symm hc)
            (by simp [parentOf?, hx])]
  roots := (SortedSet.without_singleton fun hid => by
    simpa [hasDeclaration, hx] using (hg.root id hid).1).symm
  byUsr usr := (SortedSet.without_singleton fun hid => by
    obtain ⟨y, hy, -⟩ := hg.byUsr usr id hid
    rw [hx] at hy
    cases hy).symm
  byKind kind := (SortedSet.without_singleton fun hid => by
    obtain ⟨y, hy, -⟩ := hg.byKind kind id hid
    rw [hx] at hy
    cases hy).symm
  marks mark := (SortedSet.without_singleton fun hid => by
    simpa [hasDeclaration, hx] using hg.marked mark id hid).symm
  results := rfl

/-- **Taking out a declaration fells it and prunes what it refers to.** -/
theorem felled_takeDeclaration (hg : g.Rooted) (ho : g.Owned) (id : DeclId) :
    Felled [id] (g.referencesFrom id) g (g.takeDeclaration id) := by
  cases hx : g.declaration? id with
  | none =>
      have ht : g.takeDeclaration id = g := by simp [takeDeclaration, hx]
      have hr : g.referencesFrom id = [] := by simp [referencesFrom, hx]
      rw [ht, hr]
      exact felled_of_none hg hx
  | some x =>
      have hr : g.referencesFrom id = x.ownReferences.flatMap g.referenceTree := by
        simp [referencesFrom, hx]
      have hp := pruned_foldl_removeReference ho x.ownReferences
      rw [takeDeclaration_eq hx, hr]
      have hx' : (x.ownReferences.foldl removeReference g).declaration? id =
          some (x.without (x.ownReferences.flatMap g.referenceTree)) := by
        rw [hp.declaration, hx]; rfl
      have hf := hp.felled.trans (felled_uproot (hp.felled.rooted hg) hx')
      rw [List.nil_append, List.append_nil] at hf
      exact hf

/-- Taking out a declaration takes it off the indices, and takes its references with it, whoever
lists it. -/
theorem filed_takeDeclaration (hi : g.Indexed) (ho : g.Owned) :
    (g.takeDeclaration id).Indexed ∧ (g.takeDeclaration id).Owned := by
  cases hx : g.declaration? id with
  | none =>
      have ht : g.takeDeclaration id = g := by simp [takeDeclaration, hx]
      rw [ht]
      exact ⟨hi, ho⟩
  | some x =>
      have hp := pruned_foldl_removeReference ho x.ownReferences
      have hx' : (x.ownReferences.foldl removeReference g).declaration? id =
          some (x.without (x.ownReferences.flatMap g.referenceTree)) := by
        rw [hp.declaration, hx]; rfl
      have hindexed := (hp.indexed hi).uproot hx'
      rw [takeDeclaration_eq hx]
      refine ⟨hindexed, (hp.owned ho (closedUnderNesting_flatMap ho _)).uproot fun b r hr => ?_⟩
      -- what the declaration held is among what was removed
      obtain ⟨hheld, hkept⟩ := hp.mem_heldBy_iff.1 hr
      obtain ⟨y, hy, hry⟩ := mem_heldBy_iff.1 hheld
      rw [hx] at hy
      cases hy
      refine hkept (List.mem_flatMap.2 ⟨r, Declaration.mem_ownReferences.2 ⟨b, hry⟩, ?_⟩)
      obtain ⟨z, hz, -⟩ := (ho.held_iff id b r).1 hheld
      exact mem_referenceTree.2 (.here (mem_refIds.2 (hasReference_of_eq hz)))

/-- **Taking out several declarations fells them all.** -/
theorem felled_foldl_takeDeclaration (hg : g.Rooted) (ho : g.Owned) (ids : List DeclId) :
    Felled ids (ids.flatMap g.referencesFrom) g (ids.foldl takeDeclaration g) := by
  induction ids generalizing g with
  | nil => exact Pruned.refl.felled
  | cons id ids ih =>
      have hf := felled_takeDeclaration hg ho id
      have hc : g.ClosedUnderNesting (g.referencesFrom id) := by
        simpa using closedUnderNesting_referencesFrom ho [id]
      have ho' : (g.takeDeclaration id).Owned := by
        refine hf.owned ho hc fun d hd b r hr => ?_
        rw [List.mem_singleton] at hd
        exact hd ▸ ho.mem_referencesFrom_of_held hr
      refine (hf.trans (ih (hf.rooted hg) ho')).congr ho.listed fun r _ => ?_
      -- what is left of the later references is what the first removal did not take
      have hfrom : ∀ d, d ≠ id → (r ∈ (g.takeDeclaration id).referencesFrom d ↔
          r ∈ g.referencesFrom d ∧ r ∉ g.referencesFrom id) := by
        intro d hd
        simp only [mem_referencesFrom_iff (d := d), hf.mem_heldBy_iff, hf.nests_iff ho hc]
        constructor
        · rintro ⟨b, q, hq, hn⟩
          exact ⟨⟨b, q, hq.1, hn.1⟩, hn.2⟩
        · rintro ⟨⟨b, q, hq, hn⟩, hr⟩
          exact ⟨b, q, ⟨hq, by simpa using hd, fun hqi => hr (hc.mem_of_nests ho hn hqi)⟩, hn, hr⟩
      have hself : ∀ d, d = id → (r ∈ (g.takeDeclaration id).referencesFrom d ↔ False) := by
        rintro d rfl
        simp only [referencesFrom, hf.declaration, List.mem_singleton, if_true, List.not_mem_nil]
      simp only [List.mem_append, List.mem_flatMap, List.flatMap_cons]
      by_cases hr : r ∈ g.referencesFrom id
      · simp [hr]
      · simp only [hr, false_or]
        refine exists_congr fun d => and_congr_right fun _ => ?_
        by_cases hd : d = id
        · rw [hself d hd, hd]; simp [hr]
        · rw [hfrom d hd]; simp [hr]

/-! ## Subtrees -/

/-- A declaration is another one, or nested in it at some depth. -/
def Encloses (g : Graph) : DeclId → DeclId → Prop := Reaches g.childrenOf g.declIds

theorem mem_subtree : c ∈ g.subtree id ↔ g.Encloses id c := by
  simp [subtree, mem_explore_iff, Encloses]

/-- **Removing a declaration fells its subtree.** -/
theorem felled_removeDeclaration (hg : g.Coherent named) :
    Felled (g.subtree id) ((g.subtree id).flatMap g.referencesFrom) g (g.removeDeclaration id) :=
  felled_foldl_takeDeclaration hg.rooted hg.toOwned _

/-- Felling a closed list of declarations, with what they refer to, leaves the graph consistent. -/
theorem Felled.coherent (h : Felled ids gone g k) (hg : g.Coherent named)
    (hc : g.ClosedUnderNesting gone) (hids : ∀ d ∈ ids, ∀ b, ∀ r ∈ g.heldBy d b, r ∈ gone)
    (hchild : ∀ p c, g.parentOf? c = some p → p ∈ ids → c ∈ ids) : k.Coherent named where
  byUsr usr d := by
    rw [h.byUsr, SortedSet.mem_without, hg.byUsr, h.declaration]
    by_cases hd : d ∈ ids
    · simp [hd]
    · cases g.declaration? d <;> simp [hd, Declaration.without, Declaration.withoutChildren]
  byKind kind d := by
    rw [h.byKind, SortedSet.mem_without, hg.byKind, h.declaration]
    by_cases hd : d ∈ ids
    · simp [hd]
    · cases g.declaration? d <;> simp [hd, Declaration.without, Declaration.withoutChildren]
  child_iff p c := by
    rw [h.mem_childrenOf_iff, hg.child_iff]
    by_cases hc : c ∈ ids
    · simp [hc, Graph.parentOf?, h.declaration]
    · rw [h.parentOf? hc]
      exact ⟨And.left, fun hp => ⟨hp, fun hpi => hc (hchild p c hp hpi), hc⟩⟩
  apart p x c hx hm := by
    rw [h.declaration] at hx
    split at hx
    · cases hx
    · obtain ⟨y, hy, rfl⟩ := Option.map_eq_some_iff.1 hx
      have hm := SortedSet.mem_without.1 hm
      exact fun hq => hg.apart p y c hy hm.1 (SortedSet.mem_without.1 hq).1
  root_iff c := by
    rw [h.roots, SortedSet.mem_without, hg.root_iff, h.hasDeclaration_iff]
    by_cases hc : c ∈ ids
    · simp [hc]
    · rw [h.parentOf? hc]; tauto
  toOwned := h.owned hg.toOwned hc hids
  marked_live mark d hd := (h.rooted hg.rooted).marked mark d hd
  recorded d p r hp hr := by
    have he : k.redundantProtocols = g.redundantProtocols :=
      congrArg Notes.redundantProtocols h.results
    rw [he] at hp
    rw [h.references_size]
    exact hg.recorded d p r hp hr
  identified hn d x hx := by
    rw [h.declaration] at hx
    split at hx
    · cases hx
    · obtain ⟨y, hy, rfl⟩ := Option.map_eq_some_iff.1 hx
      exact hg.identified hn d y hy

theorem Coherent.removeDeclaration (hg : g.Coherent named) :
    (g.removeDeclaration id).Coherent named := by
  refine (felled_removeDeclaration hg).coherent hg
    (closedUnderNesting_referencesFrom hg.toOwned _) (fun d hd b r hr => ?_) fun p c hp hpi => ?_
  · exact List.mem_flatMap.2 ⟨d, hd, hg.toOwned.mem_referencesFrom_of_held hr⟩
  · rw [mem_subtree] at hpi ⊢
    obtain ⟨x, hx, -⟩ := parentOf?_eq_some_iff.1 hp
    exact .step hpi ((hg.child_iff p c).2 hp) (mem_declIds.2 (hasDeclaration_of_eq hx))

end Graph

end Deadwood

/-
  What the removal of a declaration takes, and what it leaves.

  1. **`RemovesSubtree`** — the declaration and its descendants go, and the references that one of them
     makes.  Every other entry is as it was, except that the parent no longer lists the declaration;
     the roots, the indices and the marks lose what went and nothing else.

  2. **Any history (`removesSubtree_of_stored`)** — parents may be nested in their own children, and a
     handle may name nothing.  What is listed by what stays and goes itself is the declaration that
     was to be removed (`Rooted.eq_of_listed`): whatever else goes is listed by what goes with it.
-/
import Deadwood.Proofs.Subtrees.Unwinding

namespace Deadwood

theorem Declaration.withoutChildren_congr {x : Declaration} {ids more : List DeclId}
    (h : ∀ c ∈ x.children, (c ∈ ids ↔ c ∈ more)) : x.withoutChildren ids = x.withoutChildren more := by
  have hset : ∀ s : SortedSet DeclId, s.toList ⊆ x.children → s.without ids = s.without more :=
    fun s hs => SortedSet.eq_of_mem_iff fun c => by
      simp only [SortedSet.mem_without]
      exact and_congr_right fun hc => not_congr (h c (hs hc))
  simp only [Declaration.withoutChildren, hset x.members (List.subset_append_left _ _),
    hset x.parameters (List.subset_append_right _ _)]

namespace Graph

variable {g h : Graph} {c p id : DeclId} {r : RefId}

/-- A declaration is another one, or among its descendants. -/
def InSubtree (g : Graph) (id c : DeclId) : Prop := c = id ∨ c ∈ g.descendants id

/-- `h` is `g` after the removal of a declaration. -/
structure RemovesSubtree (g : Graph) (id : DeclId) (h : Graph) : Prop where
  /-- The declaration is struck, and after every entry that is struck what it owned: this ends, and
  only in `h`. -/
  ends : ∀ k, Unwinds g [.declaration id] k ↔ k = h
  /-- Nothing is done to a declaration that is not there. -/
  absent : g.hasDeclaration id = false → h = g
  /-- The declaration goes and its descendants, and no other declaration. -/
  declarations : ∀ c, h.hasDeclaration c = true ↔ g.hasDeclaration c = true ∧ ¬ g.InSubtree id c
  /-- The references that one of them makes go, and no other reference. -/
  references : ∀ r, h.hasReference r = true ↔ g.hasReference r = true ∧
    ∀ c, g.referencingDeclaration? r = some c → ¬ g.InSubtree id c
  /-- A declaration that stays is as it was; only the parent does not list the removed one. -/
  declaration_kept : ∀ c x, g.declaration? c = some x → h.hasDeclaration c = true →
    h.declaration? c = some (if g.parentOf? id = some c then x.dropChild id else x)
  /-- A reference that stays is as it was. -/
  reference_kept : ∀ r x, g.reference? r = some x → h.hasReference r = true →
    h.reference? r = some x
  roots : ∀ c, c ∈ h.roots.toList ↔ c ∈ g.roots.toList ∧ ¬ g.InSubtree id c
  rootReferences : h.rootReferences = g.rootReferences
  byUsr : ∀ usr c, c ∈ (Index.get h.declarationsByUsr usr).toList ↔
    c ∈ (Index.get g.declarationsByUsr usr).toList ∧ ¬ g.InSubtree id c
  byKind : ∀ kind c, c ∈ (Index.get h.declarationsByKind kind).toList ↔
    c ∈ (Index.get g.declarationsByKind kind).toList ∧ ¬ g.InSubtree id c
  uses : ∀ usr r, r ∈ (Index.get h.referencesByUsr usr).toList ↔
    r ∈ (Index.get g.referencesByUsr usr).toList ∧ h.hasReference r = true
  marks : ∀ mark c, h.isMarked mark c = true ↔ g.isMarked mark c = true ∧ ¬ g.InSubtree id c
  /-- The results of the analyses, the files, exports and assets are as they were. -/
  results : { h.notes with marks := g.marks } = g.notes
  /-- No handle is given out again. -/
  sizes : h.declarations.size = g.declarations.size ∧ h.references.size = g.references.size

/-! ## What goes -/

theorem inSubtree_iff (hid : g.hasDeclaration id = true) : g.InSubtree id c ↔ g.Encloses id c := by
  rw [InSubtree, mem_descendants]
  constructor
  · rintro (rfl | ⟨hc, -⟩)
    · exact .here (mem_declIds.2 hid)
    · exact hc
  · intro hc
    by_cases hne : c = id
    · exact .inl hne
    · exact .inr ⟨hc, hne⟩

/-- Among live declarations, those of the subtree are those that the declaration encloses. -/
theorem inSubtree_iff_of_live (hc : g.hasDeclaration c = true) :
    g.InSubtree id c ↔ g.Encloses id c := by
  constructor
  · rintro (rfl | hd)
    · exact .here (mem_declIds.2 hc)
    · exact (mem_descendants.1 hd).1
  · exact fun he => (inSubtree_iff (mem_declIds.1 he.mem_left)).2 he

/-- What is enclosed at some depth is the declaration itself, or listed by another one that is. -/
theorem Encloses.eq_or_listed (he : g.Encloses id c) :
    c = id ∨ ∃ q, g.Encloses id q ∧ c ∈ g.childrenOf q ∧ c ≠ q := by
  induction he with
  | here _ => exact .inl rfl
  | @step q c hq hc _ ih =>
      by_cases hne : c = q
      · exact hne ▸ ih
      · exact .inr ⟨q, hq, hc, hne⟩

/-- **What stays lists nothing that goes**, except for the declaration that was to be removed. -/
theorem Rooted.eq_of_listed (hg : g.Rooted) (he : g.Encloses id c) (hp : ¬ g.Encloses id p)
    (hc : c ∈ g.childrenOf p) : c = id ∧ g.parentOf? id = some p := by
  have hparent : ∀ {q}, c ∈ g.childrenOf q → c ≠ q → g.parentOf? c = some q := fun hq hne => by
    obtain ⟨x, hx, hcx⟩ := mem_childrenOf_iff.1 hq
    exact hg.child _ x c hx (Declaration.mem_children.2 hcx) hne
  have hcp := hparent hc fun hcp => hp (hcp ▸ he)
  rcases he.eq_or_listed with rfl | ⟨q, hq, hcq, hne⟩
  · exact ⟨rfl, hcp⟩
  · have hsame : some q = some p := (hparent hcq hne).symm.trans hcp
    cases hsame
    exact absurd hq hp

theorem mem_referencesFrom_subtree (ho : g.Owned) :
    r ∈ (g.subtree id).flatMap g.referencesFrom ↔
      ∃ c, g.referencingDeclaration? r = some c ∧ g.InSubtree id c := by
  simp only [List.mem_flatMap, ho.referencingDeclaration?_eq_some_iff, mem_subtree]
  refine exists_congr fun c => ?_
  rw [and_comm]
  refine and_congr_right fun hr => ?_
  obtain ⟨b, q, hq, -⟩ := mem_referencesFrom_iff.1 hr
  obtain ⟨x, hx, -⟩ := mem_heldBy_iff.1 hq
  exact (inSubtree_iff_of_live (hasDeclaration_of_eq hx)).symm

theorem subtree_eq_nil (hid : g.hasDeclaration id = false) : g.subtree id = [] := by
  refine List.eq_nil_iff_forall_not_mem.2 fun c hc => ?_
  have hlive := mem_declIds.1 (mem_subtree.1 hc).mem_left
  rw [hid] at hlive
  cases hlive

/-! ## What stays -/

/-- A declaration that stays makes its references itself, and keeps them. -/
theorem Owned.without_subtree (ho : g.Owned) {x : Declaration} (hx : g.declaration? c = some x)
    (hc : c ∉ g.subtree id) : x.without ((g.subtree id).flatMap g.referencesFrom) = x := by
  refine Eq.trans (b := x.without []) (Declaration.without_congr fun b r hr => ?_)
    Declaration.without_nil
  have hkept : r ∉ (g.subtree id).flatMap g.referencesFrom := fun hin => by
    obtain ⟨d, hd, hfrom⟩ := List.mem_flatMap.1 hin
    have hown := ho.mem_referencesFrom_of_held (mem_heldBy_iff.2 ⟨x, hx, hr⟩)
    rw [← ho.referencingDeclaration?_eq_some_iff] at hfrom hown
    have hcd : c = d := Option.some.inj (hown.symm.trans hfrom)
    exact hc (hcd ▸ hd)
  simp [hkept]

/-- What is nested in a reference is made by the declaration that makes the reference. -/
theorem Owned.reference_without_subtree (ho : g.Owned) {x : Reference} (hx : g.reference? r = some x)
    (hr : r ∉ (g.subtree id).flatMap g.referencesFrom) :
    x.without ((g.subtree id).flatMap g.referencesFrom) = x := by
  refine Eq.trans (b := x.without []) (Reference.without_congr fun s hs => ?_) Reference.without_nil
  have hkept : s ∉ (g.subtree id).flatMap g.referencesFrom := fun hin => by
    obtain ⟨d, hd, hfrom⟩ := List.mem_flatMap.1 hin
    have howner := (ho.nested_iff r s).1 (mem_nestedReferences_iff.2 ⟨x, hx, hs⟩)
    rw [← ho.referencingDeclaration?_eq_some_iff, ho.referencingDeclaration?_step s, howner] at hfrom
    exact hr (List.mem_flatMap.2 ⟨d, hd, ho.referencingDeclaration?_eq_some_iff.1 hfrom⟩)
  simp [hkept]

/-- Of the declarations that stay, only the parent of the removed one loses a child. -/
theorem Rooted.withoutChildren_subtree (hg : g.Rooted) {x : Declaration}
    (hx : g.declaration? c = some x) (hc : c ∉ g.subtree id) :
    x.withoutChildren (g.subtree id) =
      if g.parentOf? id = some c then x.dropChild id else x := by
  have hlisted : ∀ d ∈ x.children, d ∈ g.subtree id → d = id ∧ g.parentOf? id = some c :=
    fun d hd hds => hg.eq_of_listed (mem_subtree.1 hds) (fun he => hc (mem_subtree.2 he))
      (mem_childrenOf_iff.2 ⟨x, hx, Declaration.mem_children.1 hd⟩)
  split
  · rename_i hparent
    obtain ⟨y, hy, -⟩ := parentOf?_eq_some_iff.1 hparent
    have hself : id ∈ g.subtree id :=
      mem_subtree.2 (.here (mem_declIds.2 (hasDeclaration_of_eq hy)))
    rw [Declaration.dropChild_eq_withoutChildren]
    refine Declaration.withoutChildren_congr fun d hd => ?_
    rw [List.mem_singleton]
    exact ⟨fun hds => (hlisted d hd hds).1, fun hdi => hdi ▸ hself⟩
  · rename_i hparent
    exact Declaration.withoutChildren_eq_self fun d hd hds => hparent (hlisted d hd hds).2

/-- **Removing a declaration takes its subtree and nothing else**, after every history. -/
theorem removesSubtree_of_stored (hg : g.Stored) (id : DeclId) :
    RemovesSubtree g id (g.removeDeclaration id) := by
  have hr : g.Rooted := hg.rooted
  have ho : g.Owned := hg.filed.toOwned
  have hf : Felled (g.subtree id) ((g.subtree id).flatMap g.referencesFrom) g
      (g.removeDeclaration id) := felled_foldl_takeDeclaration hr ho _
  -- only what is there can be lost, and there the two descriptions of the subtree agree
  have hmem : ∀ c, g.hasDeclaration c = true → (c ∉ g.subtree id ↔ ¬ g.InSubtree id c) :=
    fun c hc => by rw [mem_subtree, inSubtree_iff_of_live hc]
  have hgone : ∀ r, r ∉ (g.subtree id).flatMap g.referencesFrom ↔
      ∀ c, g.referencingDeclaration? r = some c → ¬ g.InSubtree id c := fun r => by
    rw [mem_referencesFrom_subtree ho]
    simp only [not_exists, not_and]
  exact
    { ends := fun k => unwinds_iff hr ho hg.compact
      absent := fun hid => by rw [removeDeclaration, subtree_eq_nil hid]; rfl
      declarations := fun c => by
        rw [hf.hasDeclaration_iff]
        exact and_congr_right (hmem c)
      references := fun r => by rw [hf.hasReference_iff, hgone]
      declaration_kept := fun c x hx hc => by
        have hstay := (hf.hasDeclaration_iff.1 hc).2
        rw [hf.declaration, if_neg hstay, hx, ← hr.withoutChildren_subtree hx hstay,
          Option.map_some, ← Declaration.without_withoutChildren, ho.without_subtree hx hstay]
      reference_kept := fun r x hx hlive => by
        have hstay := (hf.hasReference_iff.1 hlive).2
        rw [hf.reference, if_neg hstay, hx, Option.map_some, ho.reference_without_subtree hx hstay]
      roots := fun c => by
        rw [hf.roots, SortedSet.mem_without]
        exact and_congr_right fun hc => hmem c (hr.root c hc).1
      rootReferences := by
        rw [hf.rootReferences]
        refine SortedSet.without_eq_self fun r hroot hin => ?_
        obtain ⟨c, hc, -⟩ := (mem_referencesFrom_subtree ho).1 hin
        rw [ho.referencingDeclaration?_of_root hroot] at hc
        cases hc
      byUsr := fun usr c => by
        rw [hf.byUsr, SortedSet.mem_without]
        refine and_congr_right fun hc => hmem c ?_
        obtain ⟨x, hx, -⟩ := hr.byUsr usr c hc
        exact hasDeclaration_of_eq hx
      byKind := fun kind c => by
        rw [hf.byKind, SortedSet.mem_without]
        refine and_congr_right fun hc => hmem c ?_
        obtain ⟨x, hx, -⟩ := hr.byKind kind c hc
        exact hasDeclaration_of_eq hx
      uses := fun usr r => by
        rw [hf.uses, SortedSet.mem_without, hf.hasReference_iff]
        refine and_congr_right fun hu => (and_iff_right ?_).symm
        obtain ⟨x, hx, -⟩ := (ho.uses usr r).1 hu
        exact hasReference_of_eq hx
      marks := fun mark c => by
        rw [isMarked_iff, isMarked_iff, hf.marks, SortedSet.mem_without]
        exact and_congr_right fun hc => hmem c (hr.marked mark c hc)
      results := hf.results
      sizes := ⟨hf.declarations_size, hf.references_size⟩ }

/-- A class is moved under its own method, next to a parameter that was added to the handle it got.
Another class uses the method and, in the same expression, itself. -/
def ringOperations : List Operation :=
  let spot (line : Nat) : Location := ⟨⟨"a.swift"⟩, line, 1⟩
  let symbol (kind : Kind) (usr : String) (line : Nat) : Symbol :=
    { kind, usrs := .singleton usr, location := spot line }
  [ .addDeclaration (symbol .classType "Ring" 1) none,
    .addDeclaration (symbol .instanceMethod "Ring.turn" 2) (some ⟨0⟩),
    .addUnusedParameter (symbol .parameter "Ring.turn.by" 2) ⟨2⟩,
    .moveDeclaration ⟨2⟩ ⟨1⟩, .moveDeclaration ⟨0⟩ ⟨1⟩,
    .addDeclaration (symbol .classType "Owner" 10) none,
    .addReference { kind := .classType, usr := "Owner", location := spot 3 }
      (some (.declaration ⟨1⟩)),
    .addReference { kind := .classType, usr := "Ring", location := spot 4 } (some (.reference ⟨0⟩)),
    .addReference { kind := .instanceMethod, usr := "Ring.turn", location := spot 11 }
      (some (.declaration ⟨3⟩)),
    .addReference { kind := .classType, usr := "Owner", location := spot 12 }
      (some (.reference ⟨2⟩)),
    .mark .retained ⟨0⟩, .mark .used ⟨3⟩ ]

/-- The ring goes from whichever end it is taken, and what the other class uses stays. -/
theorem removesSubtree_of_stored_ring :
    let g := ringOperations.foldl Operation.apply ∅
    let h := g.removeDeclaration ⟨1⟩
    RemovesSubtree g ⟨1⟩ h ∧
      g.parentOf? ⟨0⟩ = some ⟨1⟩ ∧ g.parentOf? ⟨1⟩ = some ⟨0⟩ ∧ ⟨2⟩ ∈ g.childrenOf ⟨2⟩ ∧
      g.declIds.length = 4 ∧ h.declIds = [⟨3⟩] ∧
      g.refIds.length = 4 ∧ h.refIds = [⟨2⟩, ⟨3⟩] := by
  have hstored : (ringOperations.foldl Operation.apply ∅).Stored := Stored.empty.foldl_apply _
  exact ⟨removesSubtree_of_stored hstored ⟨1⟩, by decide +kernel⟩

end Graph

end Deadwood

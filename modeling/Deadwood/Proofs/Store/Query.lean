/-
  What the questions to a consistent graph answer.

  Each question has one lemma that says which handles are in its answer, through the entries of the
  graph and not through its indices.  Proofs about passes cite these and do not open the questions.
-/
import Deadwood.Graph.Hierarchy
import Deadwood.Proofs.Store.Reachable

namespace Deadwood

/-- The nodes after the first one that a search from a single node visits. -/
theorem mem_tail_explore {α : Type} [DecidableEq α] {strategy : Strategy} {next : α → List α}
    {nodes : List α} {x y : α} (hn : nodes.Nodup) :
    y ∈ (explore strategy next nodes [x]).tail ↔
      y ∈ explore strategy next nodes [x] ∧ y ≠ x := by
  by_cases hx : x ∈ nodes
  · have hnodup : (explore strategy next nodes [x]).Nodup := nodup_explore hn
    rw [explore_cons_of_mem hx] at hnodup ⊢
    have hlater := (List.nodup_cons.1 hnodup).1
    rw [List.tail_cons, List.mem_cons]
    exact ⟨fun h => ⟨.inr h, fun hy => hlater (hy ▸ h)⟩, fun h => h.1.resolve_left h.2⟩
  · rw [explore_cons_of_not_mem hx, explore_nil]
    simp

namespace Graph

variable {g : Graph} {c d : DeclId} {r : RefId}

/-! ## What is not there -/

theorem declaration?_of_absent (hd : g.hasDeclaration d = false) : g.declaration? d = none := by
  simpa [hasDeclaration] using hd

theorem not_mem_declIds (hd : g.hasDeclaration d = false) : d ∉ g.declIds := by
  rw [mem_declIds, hd]
  exact Bool.false_ne_true

/-! ## Order -/

@[simp] theorem mem_sortedDeclarations {ids : List DeclId} :
    d ∈ g.sortedDeclarations ids ↔ d ∈ ids ∧ g.hasDeclaration d = true := by
  rw [sortedDeclarations, mem_sortByKey, Option.isSome_map, hasDeclaration]

@[simp] theorem mem_sortedReferences {ids : List RefId} :
    r ∈ g.sortedReferences ids ↔ r ∈ ids ∧ g.hasReference r = true := by
  rw [sortedReferences, mem_sortByKey, Option.isSome_map, hasReference]

theorem mem_declarationsWhere {p : Declaration → Bool} :
    d ∈ g.declarationsWhere p ↔ ∃ x, g.declaration? d = some x ∧ p x = true := by
  rw [declarationsWhere, mem_sortedDeclarations, mem_declIdsWhere]
  exact and_iff_left_of_imp fun ⟨x, hx, _⟩ => hasDeclaration_of_eq hx

theorem mem_membersWhere {p : Declaration → Bool} :
    c ∈ g.membersWhere d p ↔ ∃ x y, g.declaration? d = some x ∧ c ∈ x.members.toList ∧
      g.declaration? c = some y ∧ p y = true := by
  unfold membersWhere
  cases g.declaration? d with
  | none => simp
  | some x =>
      simp only [mem_sortedDeclarations, List.mem_filter, hasDeclaration]
      cases g.declaration? c <;> simp

/-! ## By identifier and kind -/

/-- `Names g r d`: the reference names an identifier that the declaration carries. -/
def Names (g : Graph) (r : RefId) (d : DeclId) : Prop :=
  ∃ x y, g.reference? r = some x ∧ g.declaration? d = some y ∧ x.usr ∈ y.usrs.toList

theorem Indexed.mem_declarationsWithUsr (hg : g.Indexed) {usr : String} :
    d ∈ g.declarationsWithUsr usr ↔ ∃ x, g.declaration? d = some x ∧ usr ∈ x.usrs.toList := by
  rw [declarationsWithUsr, mem_sortedDeclarations, hg.byUsr]
  exact and_iff_left_of_imp fun ⟨x, hx, _⟩ => hasDeclaration_of_eq hx

/-- An identifier leads to a declaration that carries it. -/
theorem Indexed.carries_of_declarationWithUsr? (hg : g.Indexed) {usr : String}
    (hd : g.declarationWithUsr? usr = some d) :
    ∃ x, g.declaration? d = some x ∧ usr ∈ x.usrs.toList := by
  unfold declarationWithUsr? at hd
  rcases Option.or_eq_some_iff.1 hd with hd | ⟨-, hd⟩
  · have hmem := (mem_sortedDeclarations.1 (List.mem_of_head? hd)).1
    exact (hg.byUsr usr d).1 (List.mem_filter.1 hmem).1
  · exact hg.mem_declarationsWithUsr.1 (List.mem_of_head? hd)

/-- An identifier that is carried leads somewhere. -/
theorem Indexed.exists_declarationWithUsr? (hg : g.Indexed) {usr : String} {x : Declaration}
    (hx : g.declaration? d = some x) (hu : usr ∈ x.usrs.toList) :
    ∃ c, g.declarationWithUsr? usr = some c := by
  have hmem : d ∈ g.declarationsWithUsr usr := hg.mem_declarationsWithUsr.2 ⟨x, hx, hu⟩
  obtain ⟨c, hc⟩ := Option.isSome_iff_exists.1 (List.isSome_head?.2 (List.ne_nil_of_mem hmem))
  unfold declarationWithUsr?
  cases g.explicitDeclarationWithUsr? usr with
  | none => exact ⟨c, hc⟩
  | some e => exact ⟨e, rfl⟩

theorem Indexed.mem_declarationsOfKinds (hg : g.Indexed) {kinds : List Kind} :
    d ∈ g.declarationsOfKinds kinds ↔ ∃ x, g.declaration? d = some x ∧ x.kind ∈ kinds := by
  simp only [declarationsOfKinds, mem_sortedDeclarations, List.mem_flatMap, hg.byKind]
  constructor
  · rintro ⟨⟨k, hk, x, hx, rfl⟩, -⟩
    exact ⟨x, hx, hk⟩
  · rintro ⟨x, hx, hk⟩
    exact ⟨⟨x.kind, hk, x, hx, rfl⟩, hasDeclaration_of_eq hx⟩

theorem Owned.mem_referencesTo (hg : g.Owned) : r ∈ g.referencesTo d ↔ g.Names r d := by
  simp only [referencesTo, Names]
  cases hy : g.declaration? d with
  | none => simp
  | some y =>
      simp only [mem_sortedReferences, List.mem_flatMap, hg.uses]
      constructor
      · rintro ⟨⟨usr, hu, x, hx, rfl⟩, -⟩
        exact ⟨x, y, hx, rfl, hu⟩
      · rintro ⟨x, z, hx, hz, hu⟩
        cases hz
        exact ⟨⟨x.usr, hu, x, hx, rfl⟩, hasReference_of_eq hx⟩

theorem Owned.isReferenced_iff (hg : g.Owned) :
    g.isReferenced d = true ↔ ∃ r, g.Names r d := by
  simp only [isReferenced, Names]
  cases hy : g.declaration? d with
  | none => simp
  | some y =>
      simp only [Option.any_some, List.any_eq_true, Bool.not_eq_true', ← Bool.not_eq_true,
        SortedSet.isEmpty_iff, not_forall, not_not, hg.uses]
      constructor
      · rintro ⟨usr, hu, r, x, hx, rfl⟩
        exact ⟨r, x, y, hx, rfl, hu⟩
      · rintro ⟨r, x, z, hx, hz, hu⟩
        cases hz
        exact ⟨x.usr, hu, r, x, hx, rfl⟩

/-! ## The tree of declarations -/

theorem mem_descendants :
    c ∈ g.descendants d ↔ g.Encloses d c ∧ c ≠ d := by
  rw [descendants, mem_sortedDeclarations, subtree, mem_tail_explore nodup_declIds, ← subtree,
    mem_subtree]
  exact and_iff_left_of_imp fun h => mem_declIds.1 h.1.mem_right

theorem live_of_isProtocolMember (hd : g.isProtocolMember d = true) : g.hasDeclaration d = true := by
  unfold isProtocolMember parentDeclaration? parentOf? at hd
  cases hx : g.declaration? d with
  | none => rw [hx] at hd; cases hd
  | some _ => exact hasDeclaration_of_eq hx

/-- `EnclosedBy g d a`: the chain of parents of `d` leads to `a`. -/
def EnclosedBy (g : Graph) : DeclId → DeclId → Prop :=
  Reaches (fun d => (g.parentOf? d).toList) g.declIds

theorem mem_ancestors : c ∈ g.ancestors d ↔ g.EnclosedBy d c ∧ c ≠ d := by
  rw [ancestors, lineage, mem_tail_explore nodup_declIds, mem_explore_iff]
  simp [EnclosedBy]

/-! ## Inheritance and extension -/

/-- The inheritance clause of a type is the references in such a clause that it owns directly. -/
theorem mem_inheritedTypeReferences (hg : g.Owned) {r : RefId} {y : Reference}
    (hy : g.reference? r = some y) : r ∈ g.inheritedTypeReferences d ↔
      y.owner = some (.declaration d) ∧ isInheritance y = true := by
  have hheld : ∀ b, r ∈ g.heldBy d b ↔ y.owner = some (.declaration d) ∧ y.isRelated = b := fun b => by
    rw [hg.held_iff, hy]
    simp
  have hown : y.owner = some (.declaration d) ↔
      ∃ x, g.declaration? d = some x ∧ r ∈ x.related.toList ++ x.references.toList := by
    constructor
    · intro ho
      obtain ⟨x, hx, hr⟩ := mem_heldBy_iff.1 ((hheld y.isRelated).2 ⟨ho, rfl⟩)
      refine ⟨x, hx, List.mem_append.2 ?_⟩
      cases hb : y.isRelated <;> rw [hb] at hr
      · exact .inr hr
      · exact .inl hr
    · rintro ⟨x, hx, hr⟩
      rcases List.mem_append.1 hr with hr | hr
      · exact ((hheld true).1 (mem_heldBy_iff.2 ⟨x, hx, hr⟩)).1
      · exact ((hheld false).1 (mem_heldBy_iff.2 ⟨x, hx, hr⟩)).1
  rw [hown, inheritedTypeReferences]
  cases hx : g.declaration? d with
  | none => simp
  | some x =>
      simp only [mem_sortedReferences, referencesAmong, List.mem_filter, hy, Option.any_some,
        hasReference_of_eq hy, and_true, Option.some.injEq, exists_eq_left']

theorem isExtensionOf_iff {e : DeclId} :
    g.isExtensionOf e d = true ↔ g.extendedDeclaration e = .ok (some d) := by
  unfold isExtensionOf
  split
  · rename_i q hq
    rw [hq, beq_iff_eq, Except.ok.injEq, Option.some.injEq]
  · rename_i hno
    exact ⟨fun hfalse => absurd hfalse Bool.false_ne_true, fun hd => absurd hd (hno d)⟩

/-- `ExtendsProtocol g e d`: the protocol extension `e` extends `d`. -/
def ExtendsProtocol (g : Graph) (e d : DeclId) : Prop :=
  (∃ x, g.declaration? e = some x ∧ x.kind = .protocolExtension) ∧
    g.extendedDeclaration e = .ok (some d)

theorem Indexed.mem_protocolExtensions (hg : g.Indexed) {e : DeclId} :
    e ∈ g.protocolExtensions d ↔ g.ExtendsProtocol e d := by
  rw [protocolExtensions, mem_sortedDeclarations, List.mem_filter, isExtensionOf_iff,
    declarationsOfKind, hg.mem_declarationsOfKinds]
  simp only [List.mem_singleton]
  exact and_iff_left_of_imp fun hmem => by
    obtain ⟨⟨x, hx, -⟩, -⟩ := hmem
    exact hasDeclaration_of_eq hx

/-- `InExtensionOf g c d`: a protocol extension of `d` has `c` nested in it. -/
def InExtensionOf (g : Graph) (c d : DeclId) : Prop :=
  ∃ e, g.ExtendsProtocol e d ∧ g.Encloses e c ∧ c ≠ e

/-! ## Marks -/

theorem markAll_eq {mark : Mark} {ids : List DeclId} :
    g.markAll mark ids = { g with marks := (g.markAll mark ids).marks } := by
  unfold markAll
  induction ids generalizing g with
  | nil => rfl
  | cons d ds ih =>
      rw [List.foldl_cons, ih]
      unfold Graph.mark
      split <;> rfl

@[simp] theorem declaration?_markAll {mark : Mark} {ids : List DeclId} :
    (g.markAll mark ids).declaration? d = g.declaration? d := by rw [markAll_eq]; rfl

@[simp] theorem reference?_markAll {mark : Mark} {ids : List DeclId} :
    (g.markAll mark ids).reference? r = g.reference? r := by rw [markAll_eq]; rfl

/-- What has a mark after a mark was put on several declarations. -/
theorem mem_marks_markAll {mark other : Mark} {ids : List DeclId} :
    c ∈ ((g.markAll mark ids).marks.of other).toList ↔
      (mark = other ∧ c ∈ ids ∧ g.hasDeclaration c = true) ∨ c ∈ (g.marks.of other).toList := by
  unfold markAll
  induction ids generalizing g with
  | nil => simp
  | cons d ds ih =>
      have hlive : (g.mark mark d).hasDeclaration c = g.hasDeclaration c := by
        unfold Graph.mark; split <;> rfl
      have hmark : c ∈ ((g.mark mark d).marks.of other).toList ↔
          (mark = other ∧ c = d ∧ g.hasDeclaration c = true) ∨
            c ∈ (g.marks.of other).toList := by
        unfold Graph.mark
        split
        · rename_i hd
          rw [Marks.mem_add]
          constructor
          · rintro (⟨rfl, rfl⟩ | h)
            · exact .inl ⟨rfl, rfl, hd⟩
            · exact .inr h
          · rintro (⟨rfl, rfl, -⟩ | h)
            · exact .inl ⟨rfl, rfl⟩
            · exact .inr h
        · rename_i hd
          refine (or_iff_right fun ⟨_, he, hc⟩ => hd (he ▸ hc)).symm
      rw [List.foldl_cons, ih, hmark, hlive, List.mem_cons]
      tauto

theorem Coherent.markAll {named : Prop} (hg : g.Coherent named) {mark : Mark} (ids : List DeclId) :
    (g.markAll mark ids).Coherent named := by
  unfold Graph.markAll
  induction ids generalizing g with
  | nil => exact hg
  | cons d ds ih => exact ih hg.mark

theorem isMarked_iff {mark : Mark} : g.isMarked mark d = true ↔ d ∈ (g.marks.of mark).toList :=
  SortedSet.contains_iff

/-- What is retained after a list of declarations was. -/
theorem isRetained_retainAll {ids : List DeclId} : (g.retainAll ids).isRetained d = true ↔
    g.isRetained d = true ∨ d ∈ ids ∧ g.hasDeclaration d = true := by
  rw [isRetained, isMarked_iff, isRetained, isMarked_iff, or_comm]
  exact mem_marks_markAll.trans (or_congr_left (and_iff_right rfl))

end Graph

end Deadwood

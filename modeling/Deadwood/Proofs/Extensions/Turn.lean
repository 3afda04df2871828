/-
  Folding, one extension at a time.

  1. **Faults** — asking what an extension extends has an answer, unless the extension is gone or its
     kind does not say what it extends.

  2. **Turns (`Turn`)** — at its turn an extension is gone, is of a kind that does not say, extends a
     foreign type, extends a protocol, or is folded.  `turn_foldOne` says so once, and proofs about
     folding go by these cases.

  3. **Folding (`HandsOver`)** — the members of the extension get a new parent, nobody else does, and
     nobody but this parent makes references that it did not make before.  Then what is left of the
     extension goes.

  4. **The course of an analysis** — nothing gives up before folding, and neither what comes before it
     nor what comes after it changes the tree.
-/
import Deadwood.Proofs.Dispatch.Course
import Deadwood.Proofs.Persistence

namespace Deadwood

open Deadwood.Graph

variable {g h k : Graph} {c d e t : DeclId} {r : RefId} {named : Prop} {x : Declaration}

namespace Graph

/-- The members of a declaration, as it lists them. -/
def membersOf (g : Graph) (d : DeclId) : List DeclId :=
  ((g.declaration? d).map (·.members.toList)).getD []

theorem membersOf_eq (hx : g.declaration? d = some x) : g.membersOf d = x.members.toList := by
  rw [membersOf, hx]
  rfl

theorem Nested.parentOf?_member (hg : g.Nested) (hc : c ∈ g.membersOf d) : g.parentOf? c = some d := by
  refine (hg.child_iff d c).1 (mem_childrenOf_iff.2 ?_)
  unfold membersOf at hc
  cases hx : g.declaration? d with
  | none => rw [hx] at hc; cases hc
  | some x => rw [hx] at hc; exact ⟨x, rfl, .inl hc⟩

/-! ## Faults -/

theorem extendedTypeReference_of_extended {kind : Kind} (hx : g.declaration? e = some x)
    (hk : x.kind.extended? = some kind) : ∃ q, g.extendedTypeReference e = .ok q := by
  have hkind : x.kind.extended = .ok kind := by rw [Kind.extended, hk]
  simp only [extendedTypeReference, hx, hkind]
  exact ⟨_, rfl⟩

/-- An extension whose kind says what it extends has an answer. -/
theorem extendedDeclaration_of_extended {kind : Kind} (hx : g.declaration? e = some x)
    (hk : x.kind.extended? = some kind) : ∃ t, g.extendedDeclaration e = .ok t := by
  obtain ⟨q, hq⟩ := extendedTypeReference_of_extended hx hk
  unfold extendedDeclaration
  rw [hq]
  cases q with
  | none => exact ⟨none, rfl⟩
  | some r =>
      obtain ⟨y, hy⟩ := hasReference_iff.1 (live_of_extendedTypeReference hq)
      simp only [bind, Except.bind, hy]
      exact ⟨_, rfl⟩

/-- What an extension extends is there. -/
theorem live_of_extendedDeclaration (ht : g.extendedDeclaration e = .ok (some t)) :
    g.hasDeclaration t = true := by
  obtain ⟨_, _, -, -, hfirst⟩ := exists_of_extendedDeclaration ht
  exact (mem_sortedDeclarations.1 (List.mem_of_head? hfirst)).2

end Graph

theorem Kind.isExtension_iff {kind : Kind} : kind.isExtension = true ↔ kind ∈ Kind.extensions := by
  cases kind <;> decide

theorem Kind.isExtension_of_extended {kind extended : Kind} (hk : kind.extended? = some extended) :
    kind.isExtension = true := by
  cases kind <;> first | rfl | cases hk

/-- The kind of extension that does not say what it extends. -/
theorem Kind.eq_plainExtension {kind : Kind} (hk : kind ∈ Kind.extensions)
    (hnone : kind.extended? = none) : kind = .plainExtension := by
  revert kind
  decide

namespace Extensions

/-! ## Handing over -/

theorem parentOf?_foldl_moveDeclaration (ht : g.hasDeclaration t = true) {ids : List DeclId}
    (hids : ∀ m ∈ ids, g.hasDeclaration m = true) :
    (ids.foldl (fun g m => g.moveDeclaration m t) g).parentOf? c =
      if c ∈ ids then some t else g.parentOf? c := by
  induction ids generalizing g with
  | nil => rfl
  | cons m ids ih =>
      obtain ⟨x, hx⟩ := hasDeclaration_iff.1 (hids m List.mem_cons_self)
      have hlive : ∀ d, (g.moveDeclaration m t).hasDeclaration d = g.hasDeclaration d := fun d =>
        hasDeclaration_congr signature_moveDeclaration
      rw [List.foldl_cons, ih (by rw [hlive]; exact ht) fun a ha => by
        rw [hlive]; exact hids a (List.mem_cons_of_mem m ha)]
      rw [moveDeclaration_eq hx ht, parentOf?_relocated hx]
      by_cases hc : c ∈ ids <;> by_cases hcm : c = m <;> simp [hc, hcm]

theorem signature_foldl_moveDeclaration {ids : List DeclId} :
    ((ids.foldl (fun g m => g.moveDeclaration m t) g).declaration? c).map (·.signature) =
      (g.declaration? c).map (·.signature) := by
  induction ids generalizing g with
  | nil => rfl
  | cons m ids ih => rw [List.foldl_cons, ih, signature_moveDeclaration]

theorem coherent_foldl_moveDeclaration (hg : g.Coherent named) (ids : List DeclId) :
    (ids.foldl (fun g m => g.moveDeclaration m t) g).Coherent named :=
  List.foldlRecOn _ _ hg fun _ hk _ _ => hk.moveDeclaration

theorem notes_foldl_moveDeclaration {ids : List DeclId} :
    (ids.foldl (fun g m => g.moveDeclaration m t) g).notes = g.notes :=
  List.foldlRecOn (motive := fun k : Graph => k.notes = g.notes) _ _ rfl
    fun _ hk _ _ => notes_moveDeclaration.trans hk

theorem notes_foldl_moveReference (hg : g.Coherent named) (ids : List RefId) :
    (ids.foldl (fun g r => g.moveReference r t) g).notes = g.notes := by
  induction ids generalizing g with
  | nil => rfl
  | cons r ids ih =>
      have hone : (g.moveReference r t).Coherent named := hg.moveReference
      exact (ih hone).trans (notes_moveReference hg.toOwned)

/-- Moving references leaves the tree alone. -/
theorem sameTree_foldl_moveReference (hg : g.Coherent named) (ids : List RefId) :
    (ids.foldl (fun g r => g.moveReference r t) g).Coherent named ∧
      SameTree g (ids.foldl (fun g r => g.moveReference r t) g) := by
  induction ids generalizing g with
  | nil => exact ⟨hg, .refl⟩
  | cons r ids ih =>
      have hmay : Pass.foldExtensions.MayDo (.moveReference r t) := rfl
      have hone : (g.moveReference r t).Coherent named := hg.moveReference
      obtain ⟨hc, H⟩ := ih hone
      exact ⟨hc, (sameTree_apply hg hmay rfl).trans H⟩

/-- Nobody but `t` makes references in `k` that it did not make in `g`. -/
def GivesOnlyTo (t : DeclId) (g k : Graph) : Prop :=
  ∀ a ≠ t, ∀ r y, k.reference? r = some y → y.owner = some (.declaration a) →
    (g.reference? r).map Reference.bare = some y.bare

namespace GivesOnlyTo

theorem of_bare (hb : ∀ r, k.hasReference r = true →
    (k.reference? r).map Reference.bare = (g.reference? r).map Reference.bare) :
    GivesOnlyTo t g k := fun a _ r y hy _ => by
  rw [← hb r (hasReference_of_eq hy), hy]
  rfl

theorem refl : GivesOnlyTo t g g := of_bare fun _ _ => rfl

theorem trans (H : GivesOnlyTo t g h) (H' : GivesOnlyTo t h k) : GivesOnlyTo t g k :=
  fun a ha r y hy ho => by
    obtain ⟨z, hz, he⟩ := Option.map_eq_some_iff.1 (H' a ha r y hy ho)
    rw [H a ha r z hz ((congrArg Prod.snd he).trans ho), he]

theorem foldl {α : Type} {f : Graph → α → Graph} {named : Prop} (xs : List α) (hg : g.Coherent named)
    (hstep : ∀ k a, k.Coherent named → (f k a).Coherent named ∧ GivesOnlyTo t k (f k a)) :
    GivesOnlyTo t g (xs.foldl f g) := by
  induction xs generalizing g with
  | nil => exact refl
  | cons a xs ih => exact (hstep g a hg).2.trans (ih (hstep g a hg).1)

theorem trimmed {gone : List RefId} (P : Trimmed gone g h) : GivesOnlyTo t g h :=
  of_bare fun r hr => P.bare fun hgone => by
    rw [hasReference, P.reference, if_pos hgone] at hr
    cases hr

theorem moveDeclaration {m : DeclId} : GivesOnlyTo t g (g.moveDeclaration m t) := by
  obtain he | ⟨x, -, -, he⟩ := moveDeclaration_cases g m t <;> rw [he]
  · exact refl
  · exact of_bare fun r _ => by rw [reference?_relocated]

theorem moveReference (hg : g.Owned) : GivesOnlyTo t g (g.moveReference r t) := by
  obtain he | he | ⟨x, -, -, -, he⟩ := moveReference_cases g r t <;> rw [he]
  · exact refl
  · exact trimmed (pruned_removeReference hg r).toTrimmed
  · intro a ha q y hy ho
    rw [reference?_reowned] at hy
    obtain ⟨z, hz, rfl⟩ := Option.map_eq_some_iff.1 hy
    rw [hz]
    -- the reference that is moved is made by `t` now
    by_cases hq : r = q
    · simp only [hq, if_true, Option.some.injEq, Owner.declaration.injEq] at ho
      exact absurd ho.symm ha
    · simp only [hq, if_false, Option.map_some]
      split <;> rfl

end GivesOnlyTo

/-- `HandsOver g e t k`: in `k` the members that `e` has in `g` are those of `t`, and so it is
recorded. -/
structure HandsOver (named : Prop) (g : Graph) (e t : DeclId) (k : Graph) : Prop where
  coherent : k.Coherent named
  signature : ∀ c, (k.declaration? c).map (·.signature) = (g.declaration? c).map (·.signature)
  parent : ∀ c, k.parentOf? c = if c ∈ g.membersOf e then some t else g.parentOf? c
  references : GivesOnlyTo t g k
  marks : k.marks = g.marks
  folded : k.folded = g.folded.insert e t

theorem HandsOver.hasDeclaration (H : HandsOver named g e t k) :
    k.hasDeclaration c = g.hasDeclaration c := hasDeclaration_congr (H.signature c)

/-- Folding hands over, and then takes out what is left of the extension. -/
theorem handsOver_foldInto (hg : g.Coherent named) (hx : g.declaration? e = some x)
    (ht : g.hasDeclaration t = true) (extended : Option RefId) :
    ∃ k, HandsOver named g e t k ∧ foldInto g e t extended = .done (k.removeDeclaration e) := by
  -- without the reference to the extended type the tree is the same
  have hpruned : ∃ l, extended.elim g g.removeReference = l ∧ l.Coherent named ∧ SameTree g l ∧
      GivesOnlyTo t g l ∧ l.notes = g.notes := by
    cases extended with
    | none => exact ⟨g, rfl, hg, .refl, .refl, rfl⟩
    | some q =>
        have P := pruned_removeReference hg.toOwned q
        exact ⟨_, rfl, hg.removeReference, .of_sameOutline P.sameOutline, .trimmed P.toTrimmed,
          P.notes⟩
  obtain ⟨l, hl, hlc, H, hgives, hnotes⟩ := hpruned
  have hlinks := H.links (d := e)
  rw [hx] at hlinks
  obtain ⟨y, hy, hylinks⟩ := Option.map_eq_some_iff.1 hlinks
  have hmembers : y.members = x.members := congrArg (·.2.1) hylinks
  have hids : ∀ m ∈ y.members.toList, l.hasDeclaration m = true := by
    intro m hm
    rw [H.hasDeclaration]
    have hp := hg.toNested.parentOf?_member (by rw [membersOf_eq hx, ← hmembers]; exact hm)
    obtain ⟨z, hz, -⟩ := parentOf?_eq_some_iff.1 hp
    exact hasDeclaration_of_eq hz
  have ht' : l.hasDeclaration t = true := by rw [H.hasDeclaration]; exact ht
  obtain ⟨hkc, H'⟩ := sameTree_foldl_moveReference
    (coherent_foldl_moveDeclaration hlc y.members.toList (t := t)) y.ownReferences (t := t)
  have hmoved : (y.members.toList.foldl (fun g m => g.moveDeclaration m t) l).Coherent named :=
    coherent_foldl_moveDeclaration hlc _
  have hsame := (notes_foldl_moveReference hmoved y.ownReferences (t := t)).trans
    (notes_foldl_moveDeclaration.trans hnotes)
  refine ⟨(y.ownReferences.foldl (fun g r => g.moveReference r t)
    (y.members.toList.foldl (fun g m => g.moveDeclaration m t) l)).recordFolded e t,
    ⟨?_, fun c => ?_, fun c => ?_, ?_, ?_, ?_⟩, ?_⟩
  · exact hkc.apply (.recordFolded e t) trivial fun _ => trivial
  · exact (H'.signature.trans signature_foldl_moveDeclaration).trans H.signature
  · refine H'.parentOf?.trans ?_
    rw [parentOf?_foldl_moveDeclaration ht' hids, H.parentOf?, membersOf_eq hx, hmembers]
  · have hall := (hgives.trans (.foldl y.members.toList hlc fun k m hk =>
      ⟨hk.moveDeclaration, .moveDeclaration (m := m)⟩)).trans
        (.foldl y.ownReferences hmoved fun k r hk =>
          ⟨hk.moveReference, .moveReference (r := r) hk.toOwned⟩)
    exact hall.trans (.of_bare fun _ _ => rfl)
  · exact congrArg Notes.marks hsame
  · exact congrArg (fun m : SortedMap DeclId DeclId => m.insert e t) (congrArg Notes.folded hsame)
  · unfold foldInto
    dsimp only
    rw [hl, hy]

/-! ## Turns -/

/-- `Folds g e t`: at its turn the extension `e` is folded into `t`. -/
def Folds (g : Graph) (e t : DeclId) : Prop :=
  ∃ x kind, g.declaration? e = some x ∧ x.kind.extended? = some kind ∧ kind ≠ .protocolType ∧
    g.extendedDeclaration e = .ok (some t)

/-- What can come of the turn of an extension. -/
inductive Turn (named : Prop) (g : Graph) (e : DeclId) : Outcome → Prop where
  /-- It is gone. -/
  | gone (hx : g.declaration? e = none) : Turn named g e (.done g)
  /-- Its kind does not say what it extends. -/
  | unmapped {x : Declaration} (hx : g.declaration? e = some x) (hk : x.kind.extended? = none) :
      Turn named g e (.failed g (.unmappedExtension x.kind))
  /-- What it extends is not declared in the program. -/
  | foreign {x : Declaration} (hx : g.declaration? e = some x) (hk : x.kind.extended? ≠ none)
      (ht : g.extendedDeclaration e = .ok none) : Turn named g e (.done (g.mark .retained e))
  /-- It extends a protocol. -/
  | proto {x : Declaration} {t : DeclId} (hx : g.declaration? e = some x)
      (hk : x.kind.extended? = some .protocolType) (ht : g.extendedDeclaration e = .ok (some t)) :
      Turn named g e (.done g)
  /-- It is folded. -/
  | folded {t : DeclId} {k : Graph} (hf : Folds g e t) (hk : HandsOver named g e t k) :
      Turn named g e (.done (k.removeDeclaration e))

/-- **What comes of the turn of an extension.** -/
theorem turn_foldOne (hg : g.Coherent named) : Turn named g e (foldOne g e) := by
  unfold foldOne
  cases hx : g.declaration? e with
  | none => exact .gone hx
  | some x =>
      cases hk : x.kind.extended? with
      | none =>
          have hkind : x.kind.extended = .error (.unmappedExtension x.kind) := by
            rw [Kind.extended, hk]
          simp only [hkind]
          exact .unmapped hx hk
      | some kind =>
          have hkind : x.kind.extended = .ok kind := by rw [Kind.extended, hk]
          obtain ⟨target, ht⟩ := extendedDeclaration_of_extended hx hk
          obtain ⟨q, hq⟩ := extendedTypeReference_of_extended hx hk
          simp only [hkind, Outcome.andThen, ht, hq]
          cases target with
          | none => exact .foreign hx (by rw [hk]; exact Option.some_ne_none _) ht
          | some t =>
              by_cases hproto : kind = .protocolType
              · subst hproto
                simp only [if_true]
                exact .proto hx hk ht
              · obtain ⟨k, H, he⟩ := handsOver_foldInto hg hx
                  (live_of_extendedDeclaration ht) q
                simp only [hproto, if_false, he]
                exact .folded ⟨x, kind, hx, hk, hproto, ht⟩ H

/-- The turn of an extension leaves a coherent graph that outlives the one before. -/
theorem outlives_foldOne (hg : g.Coherent named) :
    (foldOne g e).graph.Coherent named ∧ Outlives g (foldOne g e).graph :=
  ⟨evolves_foldOne.coherent hg, evolves_foldOne.outlives hg⟩

theorem outlives_foldEach (hg : g.Coherent named) {ids : List DeclId} :
    (foldEach g ids).graph.Coherent named ∧ Outlives g (foldEach g ids).graph :=
  ⟨evolves_foldEach.coherent hg, evolves_foldEach.outlives hg⟩

end Extensions

/-! ## Folding in the course of an analysis -/

variable {s : Settings}

/-- The passes before folding. -/
def Pass.beforeFolding : List Pass := [unusedImports, directives, cascadeAccess]

/-- The passes after folding. -/
def Pass.afterFolding : List Pass :=
  [protocolExtensions, conformances, overrides] ++ completing ++ reachability :: judging

theorem Pass.all_cut_foldExtensions :
    Pass.all = beforeFolding ++ foldExtensions :: afterFolding := rfl

/-- Nothing gives up before folding. -/
theorem failure_beforeFolding : (runPasses s g (enabled s Pass.beforeFolding)).failure = none := by
  have hrun : ∀ xs : List Pass, xs ⊆ Pass.beforeFolding → ∀ g, (runPasses s g xs).failure = none := by
    intro xs
    induction xs with
    | nil => exact fun _ _ => rfl
    | cons pass xs ih =>
        intro hxs g
        refine failure_runPasses_cons.2 ⟨?_, ih (fun p hp => hxs (List.mem_cons_of_mem pass hp)) _⟩
        have hp := hxs List.mem_cons_self
        simp only [Pass.beforeFolding, List.mem_cons, List.not_mem_nil, or_false] at hp
        rcases hp with rfl | rfl | rfl <;> rfl
  exact hrun _ (List.filter_subset_self _) g

/-- No references come or go before folding. -/
theorem references_beforeFolding : (whenStarts s g .foldExtensions).references = g.references := by
  rw [whenStarts_eq Pass.all_cut_foldExtensions rfl (by decide)]
  refine runPasses_keeps (P := fun k => k.references = g.references) (fun k pass hp hk => ?_) rfl
  have hmarks : ∀ (mark : Mark) (ids : List DeclId) (k : Graph),
      (k.markAll mark ids).references = k.references := fun mark ids k => by
    rw [markAll_eq]
  have hp := (List.mem_filter.1 hp).1
  simp only [Pass.beforeFolding, List.mem_cons, List.not_mem_nil, or_false] at hp
  refine Eq.trans ?_ hk
  rcases hp with rfl | rfl | rfl
  · exact List.foldlRecOn (motive := fun l : Graph => l.references = k.references) _ _ rfl
      fun _ hl _ _ => hl
  · exact (hmarks _ _ _).trans ((hmarks _ _ _).trans (hmarks _ _ _))
  · exact List.foldlRecOn (motive := fun l : Graph => l.references = k.references) _ _ rfl
      fun _ hl _ _ => hl

/-- An analysis fails as folding does, and what comes after it. -/
theorem failure_analyse : (analyse s g).failure =
    (runPasses s (whenStarts s g .foldExtensions)
      (.foldExtensions :: enabled s Pass.afterFolding)).failure := by
  rw [analyse, standardPasses_eq Pass.all_cut_foldExtensions rfl,
    failure_runPasses_append_of_done failure_beforeFolding,
    whenStarts_eq Pass.all_cut_foldExtensions rfl (by decide)]

/-- What comes before folding leaves the tree alone. -/
theorem sameTree_beforeFolding (hg : g.Coherent named) :
    SameTree g (whenStarts s g .foldExtensions) := by
  rw [whenStarts_eq Pass.all_cut_foldExtensions rfl (by decide)]
  exact sameTree_runPasses hg fun hmem => absurd (List.mem_filter.1 hmem).1 (by decide)

/-- So does what comes after it, also where the analysis fails. -/
theorem sameTree_afterFolding (hg : g.Coherent named) :
    SameTree (Extensions.foldAll (whenStarts s g .foldExtensions)).graph (analyse s g).graph := by
  have hk : (whenStarts s g .foldExtensions).Coherent named := coherent_runPasses hg
  have hcut : (analyse s g).graph = (runPasses s (whenStarts s g .foldExtensions)
      (.foldExtensions :: enabled s Pass.afterFolding)).graph := by
    rw [analyse, standardPasses_eq Pass.all_cut_foldExtensions rfl,
      graph_runPasses_append failure_beforeFolding,
      whenStarts_eq Pass.all_cut_foldExtensions rfl (by decide)]
  rw [hcut]
  generalize whenStarts s g .foldExtensions = k at hk
  show SameTree (Pass.foldExtensions.run s k).graph _
  cases hf : (Pass.foldExtensions.run s k).fault with
  | some fault =>
      rw [graph_runPasses_of_fault hf]
      exact .refl
  | none =>
      rw [graph_runPasses_cons hf]
      exact sameTree_runPasses (Pass.coherent_run hk) fun hmem =>
        absurd (List.mem_filter.1 hmem).1 (by decide)

end Deadwood

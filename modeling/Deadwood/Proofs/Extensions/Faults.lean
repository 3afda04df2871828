/-
  When an analysis fails.

  1. **Plain extensions** — an extension of any other kind says what it extends.  So a pass that asks
     has no fault where there is no plain extension (`Pass.fault_run`), and no pass makes one.

  2. **Folding** — its only fault is a plain extension that is there at its turn.  After folding went
     through, no plain extension is left (`noPlainExtension_foldAll`).

  3. **Roots** — folding moves the members of extensions and removes what is inside a folded one.  A
     plain extension at the outermost level is neither, so its turn comes (`fault_foldEach_of_root`).

  4. **The analysis (`failsOnPlainExtensions_of_built`)** — so plain extensions are all that an analysis
     can fail on, and folding is where it does.
-/
import Deadwood.Proofs.DeadTrees
import Deadwood.Proofs.Extensions.Turn

namespace Deadwood

open Deadwood.Graph

variable {g h : Graph} {d e r t : DeclId} {x : Declaration} {named : Prop} {s : Settings} {pass : Pass}

/-- There is no extension of the kind that does not say what it extends. -/
def Graph.NoPlainExtension (g : Graph) : Prop :=
  ∀ d x, g.declaration? d = some x → x.kind ≠ .plainExtension

theorem Graph.NoPlainExtension.outlives (hno : g.NoPlainExtension) (H : Outlives g h) :
    h.NoPlainExtension := fun d y hy => by
  obtain ⟨x, hx, hk⟩ := H.kind hy
  rw [← hk]
  exact hno d x hx

/-- Then every extension has an answer to what it extends. -/
theorem Graph.NoPlainExtension.exists_extendedDeclaration (hno : g.NoPlainExtension)
    (hx : g.declaration? e = some x) (hk : x.kind ∈ Kind.extensions) :
    ∃ t, g.extendedDeclaration e = .ok t := by
  obtain ⟨kind, hkind⟩ := Option.ne_none_iff_exists'.1 fun hnone =>
    hno e x hx (Kind.eq_plainExtension hk hnone)
  exact extendedDeclaration_of_extended hx hkind

/-! ## Passes that ask what an extension extends -/

theorem Protocols.fault_connectEach (hno : g.NoPlainExtension) {ids : List DeclId}
    (hids : ∀ e ∈ ids, ∃ x, g.declaration? e = some x ∧ x.kind ∈ Kind.extensions) :
    (connectEach g ids).fault = none := by
  induction ids generalizing g with
  | nil => rfl
  | cons e ids ih =>
      obtain ⟨x, hx, hk⟩ := hids e List.mem_cons_self
      obtain ⟨target, ht⟩ := hno.exists_extendedDeclaration hx hk
      have hone : (connectOne g e).fault = none := by
        unfold connectOne
        rw [ht]
        cases target <;> rfl
      have H : SameOutline g (connectOne g e).graph := sameOutline_connectOne
      rw [connectEach, hone]
      refine ih (fun d y hy => ?_) fun a ha => ?_
      · obtain ⟨z, hz, hs, -⟩ := H.symm.exists_declaration hy
        rw [← hs]
        exact hno d z hz
      · obtain ⟨y, hy, hky⟩ := hids a (List.mem_cons_of_mem e ha)
        obtain ⟨z, hz, hs, -⟩ := H.exists_declaration hy
        exact ⟨z, hz, by rw [hs]; exact hky⟩

/-- Going through a list gives up only where one of its members does. -/
theorem exists_mapM_eq_ok {α β ε : Type} {f : α → Except ε β} {xs : List α}
    (hxs : ∀ a ∈ xs, ∃ b, f a = .ok b) : ∃ ys, xs.mapM f = .ok ys := by
  induction xs with
  | nil => exact ⟨[], rfl⟩
  | cons a xs ih =>
      obtain ⟨b, hb⟩ := hxs a List.mem_cons_self
      obtain ⟨ys, hys⟩ := ih fun c hc => hxs c (List.mem_cons_of_mem a hc)
      exact ⟨b :: ys, by rw [List.mapM_cons, hb, hys]; rfl⟩

theorem RedundantAccess.fault_judge (hno : g.NoPlainExtension) {declared : Tier}
    {suggest : Graph → DeclId → Option Tier} {sameScope : Graph → DeclId → DeclId → Bool} :
    (judge g declared suggest sameScope).fault = none := by
  unfold judge
  rw [List.partition_eq_filter_filter]
  dsimp only
  generalize hk : (List.foldl _ g _) = k
  have hsame : ∀ d, k.declaration? d = g.declaration? d := fun d => by
    rw [← hk, declaration?_foldl_record]
  have hall : ∀ e ∈ (candidates g declared).filter (isExtension g),
      ∃ b, inherited k declared sameScope e = .ok b := by
    intro e he
    obtain ⟨x, hx, hext⟩ := (Option.any_eq_true _ _).1 (List.mem_filter.1 he).2
    have hno' : k.NoPlainExtension := fun d y hy => hno d y (by rw [← hsame]; exact hy)
    obtain ⟨target, ht⟩ := hno'.exists_extendedDeclaration ((hsame e).trans hx)
      (Kind.isExtension_iff.1 hext)
    exact ⟨_, by unfold inherited; rw [ht]; rfl⟩
  obtain ⟨followers, hf⟩ := exists_mapM_eq_ok hall
  rw [hf]
  rfl

theorem Synthesis.fault_memberwiseInitializers : (memberwiseInitializers g).fault = none := by
  unfold memberwiseInitializers
  generalize ho : Outcome.done g = o
  have hnone : o.fault = none := by rw [← ho]; rfl
  clear ho
  generalize g.declarationsOfKind .structType = ids
  induction ids generalizing o with
  | nil => exact hnone
  | cons d ids ih => exact ih _ (fault_connectInitializers.trans hnone)

/-! ## Folding -/

namespace Extensions

/-- A fault of a turn is a plain extension that is there. -/
theorem fault_foldOne (hg : g.Coherent named) {fault : Fault} (hf : (foldOne g e).fault = some fault) :
    ∃ x, g.declaration? e = some x ∧ x.kind.extended? = none ∧
      fault = .unmappedExtension x.kind := by
  have T : Turn named g e (foldOne g e) := turn_foldOne hg
  generalize foldOne g e = o at T hf
  cases T with
  | unmapped hx hk => cases hf; exact ⟨_, hx, hk, rfl⟩
  | gone | foreign | proto | folded => cases hf

/-- A plain extension that is there at its turn is a fault. -/
theorem fault_foldOne_of_unmapped (hx : g.declaration? e = some x) (hk : x.kind.extended? = none) :
    (foldOne g e).fault ≠ none := by
  have hkind : x.kind.extended = .error (.unmappedExtension x.kind) := by rw [Kind.extended, hk]
  simp [foldOne, hx, hkind, Outcome.andThen, Outcome.failed]

/-- **The only fault of folding is a plain extension.** -/
theorem fault_foldEach (hg : g.Coherent named) {ids : List DeclId} {fault : Fault}
    (hids : ∀ e ∈ ids, ∀ x, g.declaration? e = some x → x.kind ∈ Kind.extensions)
    (hf : (foldEach g ids).fault = some fault) :
    fault = .unmappedExtension .plainExtension ∧
      ∃ d x, g.declaration? d = some x ∧ x.kind = .plainExtension := by
  induction ids generalizing g with
  | nil => cases hf
  | cons e ids ih =>
      obtain ⟨hc, H⟩ := outlives_foldOne hg (e := e)
      rw [foldEach] at hf
      cases hone : (foldOne g e).fault with
      | some cause =>
          simp only [hone] at hf
          cases hf
          obtain ⟨x, hx, hk, rfl⟩ := fault_foldOne hg hone
          have hplain := Kind.eq_plainExtension (hids e List.mem_cons_self x hx) hk
          exact ⟨by rw [hplain], e, x, hx, hplain⟩
      | none =>
          simp only [hone] at hf
          obtain ⟨hcause, d, y, hy, hk⟩ := ih hc (fun a ha y hy => by
            obtain ⟨x, hx, hkx⟩ := H.kind hy
            rw [← hkx]
            exact hids a (List.mem_cons_of_mem e ha) x hx) hf
          obtain ⟨x, hx, hkx⟩ := H.kind hy
          exact ⟨hcause, d, x, hx, hkx.trans hk⟩

/-- What is left when folding went through says what it extends: its turn came. -/
theorem extended?_of_foldEach (hg : g.Coherent named) {ids : List DeclId}
    (hf : (foldEach g ids).fault = none) (he : e ∈ ids)
    (hx : (foldEach g ids).graph.declaration? e = some x) : x.kind.extended? ≠ none := by
  induction ids generalizing g with
  | nil => cases he
  | cons a ids ih =>
      obtain ⟨hc, H⟩ := outlives_foldOne hg (e := a)
      rw [foldEach] at hf hx
      cases hone : (foldOne g a).fault with
      | some cause => simp only [hone] at hf; cases hf
      | none =>
          simp only [hone] at hf hx
          rcases List.mem_cons.1 he with rfl | he
          · obtain ⟨y, hy, hky⟩ := (H.trans (outlives_foldEach hc).2).kind hx
            intro hk
            exact fault_foldOne_of_unmapped hy (by rw [hky]; exact hk) hone
          · exact ih hc hf he hx

/-- An outermost declaration that is not folded itself stays outermost. -/
theorem parentOf?_foldOne_of_root (hg : g.Coherent named) (hne : r ≠ e)
    (hr : g.hasDeclaration r = true) (hroot : g.parentOf? r = none) :
    (foldOne g e).graph.hasDeclaration r = true ∧ (foldOne g e).graph.parentOf? r = none := by
  have T : Turn named g e (foldOne g e) := turn_foldOne hg
  generalize foldOne g e = o at T
  cases T with
  | gone | unmapped | proto => exact ⟨hr, hroot⟩
  | foreign =>
      have H : SameOutline g (g.markAll .retained [e]) := sameOutline_markAll
      exact ⟨H.hasDeclaration.trans hr, H.parentOf?.trans hroot⟩
  | @folded t k _ H =>
      have hnot : r ∉ g.membersOf e := fun hmem => by
        rw [hg.toNested.parentOf?_member hmem] at hroot
        cases hroot
      have hparent : k.parentOf? r = none := by rw [H.parent, if_neg hnot]; exact hroot
      have F : Felled (k.subtree e) ((k.subtree e).flatMap k.referencesFrom) k
        (k.removeDeclaration e) := felled_removeDeclaration H.coherent
      -- nothing encloses it, so it is not inside the extension either
      have hout : r ∉ k.subtree e := by
        intro hmem
        have hup := H.coherent.toNested.enclosedBy_iff.2 (mem_subtree.1 hmem)
        rcases hup.eq_or_transGen with rfl | hpath
        · exact hne rfl
        · obtain ⟨p, hp, -⟩ := Relation.TransGen.head'_iff.1 hpath
          rw [hparent] at hp
          cases hp
      refine ⟨F.hasDeclaration_iff.2 ⟨?_, hout⟩, (F.parentOf? hout).trans hparent⟩
      rw [H.hasDeclaration]
      exact hr

/-- **A plain extension at the outermost level is a fault of folding.** -/
theorem fault_foldEach_of_root (hg : g.Coherent named) {ids : List DeclId} (hr : r ∈ ids)
    (hx : g.declaration? r = some x) (hk : x.kind.extended? = none) (hroot : g.parentOf? r = none) :
    (foldEach g ids).fault ≠ none := by
  induction ids generalizing g x with
  | nil => cases hr
  | cons e ids ih =>
      rw [foldEach]
      cases hone : (foldOne g e).fault with
      | some cause =>
          show (foldOne g e).fault ≠ none
          rw [hone]
          exact Option.some_ne_none _
      | none =>
          show (foldEach (foldOne g e).graph ids).fault ≠ none
          by_cases hne : r = e
          · rw [hne] at hx
            exact absurd hone (fault_foldOne_of_unmapped hx hk)
          · obtain ⟨hc, H⟩ := outlives_foldOne hg (e := e)
            obtain ⟨hlive, hroot'⟩ :=
              parentOf?_foldOne_of_root hg hne (hasDeclaration_of_eq hx) hroot
            obtain ⟨y, hy⟩ := hasDeclaration_iff.1 hlive
            obtain ⟨z, hz, hkz⟩ := H.kind hy
            rw [hx] at hz
            cases hz
            exact ih hc ((List.mem_cons.1 hr).resolve_left hne) hy (by rw [← hkz]; exact hk) hroot'

/-- What is folded in turn are extensions. -/
theorem isExtension_of_mem (hg : g.Coherent named) (he : e ∈ g.declarationsOfKinds Kind.extensions)
    (hx : g.declaration? e = some x) : x.kind ∈ Kind.extensions := by
  obtain ⟨y, hy, hk⟩ := hg.mem_declarationsOfKinds.1 he
  rw [hx] at hy
  cases hy
  exact hk

/-- Folding that went through leaves no plain extension. -/
theorem noPlainExtension_foldAll (hg : g.Coherent named) (hf : (foldAll g).fault = none) :
    (foldAll g).graph.NoPlainExtension := by
  intro d x hx hk
  obtain ⟨y, hy, hky⟩ := (outlives_foldEach hg).2.kind hx
  have hmem : d ∈ g.declarationsOfKinds Kind.extensions :=
    hg.mem_declarationsOfKinds.2 ⟨y, hy, by rw [hky, hk]; decide⟩
  exact extended?_of_foldEach hg hf hmem hx (by rw [hk]; rfl)

end Extensions

/-! ## Runs -/

/-- **Without plain extensions no pass gives up.** -/
theorem Pass.fault_run (hg : g.Coherent named) (hno : g.NoPlainExtension) :
    (pass.run s g).fault = none := by
  cases pass with
  | foldExtensions =>
      cases hf : (Extensions.foldAll g).fault with
      | none => exact hf
      | some fault =>
          obtain ⟨-, d, x, hx, hk⟩ := Extensions.fault_foldEach hg
            (fun e he x hx => Extensions.isExtension_of_mem hg he hx) hf
          exact absurd hk (hno d x hx)
  | protocolExtensions =>
      refine Protocols.fault_connectEach hno fun e he => ?_
      obtain ⟨x, hx, hk⟩ := hg.mem_declarationsOfKinds.1 he
      exact ⟨x, hx, by rw [List.mem_singleton.1 hk]; decide⟩
  | memberwiseInitializers => exact Synthesis.fault_memberwiseInitializers
  | redundantPublic =>
      simp only [Pass.run, RedundantAccess.markPublic]
      split
      · rfl
      · exact RedundantAccess.fault_judge hno
  | redundantInternal | redundantFileprivate => exact RedundantAccess.fault_judge hno
  | unusedImports | directives | cascadeAccess | conformances | overrides | foreignOverrides
  | enumCases | defaultConstructors | genericConstructors | accessors | dynamicMembers
  | propertyWrappers | resultBuilders | stringInterpolation | entryPoints | previews | testCases
  | markedTests | assets | publicApi | objcAccessible | patterns | unusedParameters
  | assignOnlyProperties | reachability | redundantProtocols => rfl

theorem failure_runPasses (hg : g.Coherent named) (hno : g.NoPlainExtension) {xs : List Pass} :
    (runPasses s g xs).failure = none := by
  induction xs generalizing g with
  | nil => rfl
  | cons pass xs ih =>
      refine failure_runPasses_cons.2 ⟨Pass.fault_run hg hno, ?_⟩
      exact ih (Pass.coherent_run hg) (hno.outlives (Pass.evolves_run.outlives hg))

/-- **An analysis goes through exactly where folding does.** -/
theorem failure_analyse_eq_none_iff (hg : g.Coherent named) : (analyse s g).failure = none ↔
    (Pass.foldExtensions.run s (whenStarts s g .foldExtensions)).fault = none := by
  have hk : (whenStarts s g .foldExtensions).Coherent named := coherent_runPasses hg
  rw [failure_analyse, failure_runPasses_cons]
  generalize whenStarts s g .foldExtensions = k at hk
  refine and_iff_left_of_imp fun hfold => ?_
  have hno : (Pass.foldExtensions.run s k).graph.NoPlainExtension :=
    Extensions.noPlainExtension_foldAll hk hfold
  exact failure_runPasses (Pass.coherent_run hk) hno

/-- `FailsOnPlainExtensions s g`: which faults an analysis of `g` has. -/
structure FailsOnPlainExtensions (s : Settings) (g : Graph) : Prop where
  /-- Without plain extensions it goes through. -/
  succeeds : (∀ d x, g.declaration? d = some x → x.kind ≠ .plainExtension) →
    (analyse s g).failure = none
  /-- Where it fails, folding did, on a plain extension. -/
  cause : ∀ f, (analyse s g).failure = some f →
    f = ⟨.foldExtensions, .unmappedExtension .plainExtension⟩
  /-- It fails where a plain extension is outermost. -/
  fails : ∀ r ∈ g.roots.toList, ∀ x, g.declaration? r = some x → x.kind = .plainExtension →
    (analyse s g).failure ≠ none

/-- **Plain extensions are all that an analysis can fail on.** -/
theorem failsOnPlainExtensions_of_built (hg : g.Built) (s : Settings) :
    FailsOnPlainExtensions s g where
  succeeds hno := failure_runPasses hg.coherent hno
  cause f hf := by
    rw [failure_analyse] at hf
    have hk : (whenStarts s g .foldExtensions).Coherent False := coherent_runPasses hg.coherent
    generalize whenStarts s g .foldExtensions = k at hk hf
    cases hfold : (Pass.foldExtensions.run s k).fault with
    | some fault =>
        rw [failure_runPasses_of_fault hfold] at hf
        cases hf
        obtain ⟨rfl, -⟩ := Extensions.fault_foldEach hk
          (fun e he x hx => Extensions.isExtension_of_mem hk he hx) hfold
        rfl
    | none =>
        have hno : (Pass.foldExtensions.run s k).graph.NoPlainExtension :=
          Extensions.noPlainExtension_foldAll hk hfold
        rw [failure_runPasses_of_done hfold, failure_runPasses (Pass.coherent_run hk) hno] at hf
        cases hf
  fails r hr x hx hplain := by
    have hk : (whenStarts s g .foldExtensions).Coherent False := coherent_runPasses hg.coherent
    have H : SameTree g (whenStarts s g .foldExtensions) := sameTree_beforeFolding hg.coherent
    obtain ⟨hlive, hroot⟩ := (hg.coherent.root_iff r).1 hr
    obtain ⟨y, hy⟩ := hasDeclaration_iff.1 (H.hasDeclaration.trans hlive)
    have hky : y.kind = .plainExtension := by
      have hs := H.signature (d := r)
      rw [hx, hy] at hs
      exact (congrArg Symbol.kind (Option.some.inj hs)).trans hplain
    have hfault : (Pass.foldExtensions.run s (whenStarts s g .foldExtensions)).fault ≠ none := by
      refine Extensions.fault_foldEach_of_root hk ?_ hy (by rw [hky]; rfl)
        (H.parentOf?.trans hroot)
      exact hk.mem_declarationsOfKinds.2 ⟨y, hy, by rw [hky]; decide⟩
    obtain ⟨fault, hf⟩ := Option.ne_none_iff_exists'.1 hfault
    rw [failure_analyse, failure_runPasses_of_fault hf]
    exact Option.some_ne_none _

/-- A struct and an extension of it, which the front end reports as of this kind. -/
def extendedAs (kind : Kind) : Document :=
  { fragments := [
      { file := { path := ⟨"a.swift"⟩, modules := .singleton "App" }
        declarations := [
          { kind := .structType, usrs := ["S"], name := some "S", line := 1 },
          { kind, usrs := ["S+"], name := some "S", line := 3
            declarations := [{ kind := .instanceMethod, usrs := ["S.f"], line := 4 }]
            references := [{ kind := .structType, usr := "S", line := 3, role := .extendedType }] }] }] }

/-- The analysis fails on the plain extension, and folds the other one. -/
theorem failsOnPlainExtensions_of_built_extendedAs :
    (analyse {} (Graph.ofDocument (extendedAs .plainExtension)).1).failure =
        some ⟨.foldExtensions, .unmappedExtension .plainExtension⟩ ∧
      (analyse {} (Graph.ofDocument (extendedAs .structExtension)).1).failure = none := by
  have hbuilt : ∀ kind, (Graph.ofDocument (extendedAs kind)).1.Built := fun kind =>
    (Graph.reachable_ofDocument (extendedAs kind)).built
  refine ⟨?_, ?_⟩
  · have H := failsOnPlainExtensions_of_built (hbuilt .plainExtension) {}
    have hroot : (⟨1⟩ : DeclId) ∈ (Graph.ofDocument (extendedAs .plainExtension)).1.roots.toList ∧
        ((Graph.ofDocument (extendedAs .plainExtension)).1.declaration? ⟨1⟩).any
          (·.kind == .plainExtension) = true := by decide +kernel
    obtain ⟨x, hx, hk⟩ := (Option.any_eq_true _ _).1 hroot.2
    obtain ⟨f, hf⟩ := Option.ne_none_iff_exists'.1 (H.fails ⟨1⟩ hroot.1 x hx (eq_of_beq hk))
    rw [hf, H.cause f hf]
  · have hno : ∀ d ∈ (Graph.ofDocument (extendedAs .structExtension)).1.declIds,
        ((Graph.ofDocument (extendedAs .structExtension)).1.declaration? d).any
          (·.kind == .plainExtension) = false := by decide +kernel
    refine (failsOnPlainExtensions_of_built (hbuilt .structExtension) {}).succeeds fun d x hx hk => ?_
    have hd := hno d (mem_declIds.2 (hasDeclaration_of_eq hx))
    rw [hx, Option.any_some, hk] at hd
    cases hd

end Deadwood

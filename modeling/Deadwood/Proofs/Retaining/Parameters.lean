/-
  Whether unused parameters are looked for.

  1. **The toggle** — it switches one pass, which retains parameters.  Before that pass two analyses are
     the same, and they fail alike (`failure_analyse_withParameters`).

  2. **The end (`settled_analyse`)** — the passes after the search change neither the program nor what is
     retained or used.  So in the end stands what the search found.

  3. **What is used (`keptParameters_of_settled`)** — a retained parameter is a root of the search, so
     what its references name is used.  Where all that is used through such parameters is used anyway,
     the toggle matters to parameters only, and nowhere else.
-/
import Deadwood.Proofs.Access.Course
import Deadwood.Proofs.Extensions.Faults
import Deadwood.Proofs.Parameters
import Deadwood.Proofs.Retaining.Roots
import Deadwood.Proofs.Retaining.Settings

namespace Deadwood

open Deadwood.Graph Reachability

variable {s : Settings} {g h off on : Graph} {b : Bool} {a d p : DeclId} {xs : List Pass}

/-! ## The toggle -/

/-- The settings, with unused parameters looked for or not. -/
def Settings.withParameters (s : Settings) (b : Bool) : Settings :=
  { s with detection := { s.detection with unusedParameters := b } }

theorem enabled_withParameters (hxs : .unusedParameters ∉ xs) :
    enabled (s.withParameters b) xs = enabled s xs := by
  refine List.filter_congr fun pass hpass => ?_
  cases pass with
  | unusedParameters => exact absurd hpass hxs
  | _ => rfl

theorem runPasses_withParameters : runPasses (s.withParameters b) g xs = runPasses s g xs :=
  runPasses_detection

/-- Whether an analysis fails does not depend on the toggle. -/
theorem failure_analyse_withParameters (hg : g.Consistent) (hnone : (analyse s g).failure = none) :
    (analyse (s.withParameters b) g).failure = none := by
  have hsame : whenStarts (s.withParameters b) g .foldExtensions = whenStarts s g .foldExtensions := by
    rw [whenStarts_eq Pass.all_cut_foldExtensions rfl (by decide),
      whenStarts_eq Pass.all_cut_foldExtensions rfl (by decide), enabled_withParameters (by decide),
      runPasses_withParameters]
  have hrun : Pass.foldExtensions.run (s.withParameters b) (whenStarts s g .foldExtensions) =
      Pass.foldExtensions.run s (whenStarts s g .foldExtensions) := Pass.run_detection
  rw [failure_analyse_eq_none_iff hg, hsame, hrun]
  exact (failure_analyse_eq_none_iff hg).1 hnone

/-- The passes before the one that retains parameters. -/
def Pass.beforeParameters : List Pass :=
  unconfigured ++ [previews, testCases, markedTests, assets, publicApi, objcAccessible, patterns]

theorem Pass.all_cut_parameters : Pass.all =
    (beforeParameters ++ ([.unusedParameters] ++ [.assignOnlyProperties])) ++
      .reachability :: judging := rfl

/-- The graph in which parameters are retained. -/
def whenParametersAreKept (s : Settings) (g : Graph) : Graph :=
  (runPasses s g (enabled s Pass.beforeParameters)).graph

/-- What the search finds. -/
theorem whenStarts_withParameters (hnone : (analyse (s.withParameters b) g).failure = none) :
    whenStarts (s.withParameters b) g .reachability =
      (runPasses s (if b then (whenParametersAreKept s g).retainAll
          (Parameters.kept s (whenParametersAreKept s g)) else whenParametersAreKept s g)
        (enabled s [.assignOnlyProperties])).graph := by
  have hrun := (analyse_cut Pass.all_cut_parameters rfl (by decide) hnone).1
  rw [whenStarts_eq Pass.all_cut_parameters rfl (by decide)]
  simp only [enabled_append, runPasses_withParameters] at hrun ⊢
  have hfirst : enabled (s.withParameters b) Pass.beforeParameters = enabled s Pass.beforeParameters :=
    enabled_withParameters (by decide)
  have hlast : enabled (s.withParameters b) [.assignOnlyProperties] = enabled s [.assignOnlyProperties] :=
    enabled_withParameters (by decide)
  rw [hfirst, hlast] at hrun ⊢
  obtain ⟨hfirst, hrest⟩ := failure_runPasses_append.1 hrun
  rw [graph_runPasses_append hfirst, graph_runPasses_append (failure_runPasses_append.1 hrest).1]
  cases b <;> rfl

theorem graph_runPasses_assignOnlyProperties :
    (runPasses s g (enabled s [.assignOnlyProperties])).graph =
      if s.detection.assignOnlyProperties then AssignOnly.eliminate s g else g := by
  cases hon : s.detection.assignOnlyProperties with
  | false =>
      have hnone : enabled s [.assignOnlyProperties] = [] :=
        List.filter_cons_of_neg (by rw [Pass.isEnabled, hon]; decide)
      rw [hnone]
      rfl
  | true =>
      have hone : enabled s [.assignOnlyProperties] = [.assignOnlyProperties] :=
        List.filter_cons_of_pos hon
      rw [hone]
      rfl

/-- Parameters are retained only where a function lists them. -/
theorem Parameters.exists_listed (hp : p ∈ kept s g) :
    ∃ d x, g.declaration? d = some x ∧ p ∈ x.parameters.toList := by
  have hnamed : ∀ function, p ∈ (namedParameters g function).map (·.1) →
      ∃ d x, g.declaration? d = some x ∧ p ∈ x.parameters.toList := by
    intro function hp
    obtain ⟨e, he, rfl⟩ := List.mem_map.1 hp
    unfold namedParameters at he
    cases hx : g.declaration? function with
    | none =>
        rw [hx] at he
        cases he
    | some x =>
        rw [hx] at he
        obtain ⟨q, hq, he⟩ := List.mem_filterMap.1 he
        obtain ⟨y, -, rfl⟩ := Option.map_eq_some_iff.1 he
        exact ⟨function, x, hx, hq⟩
  obtain ⟨function, -, hp⟩ := List.mem_flatMap.1 hp
  refine hnamed function ?_
  unfold keptOf at hp
  dsimp only at hp
  split at hp
  · exact hp
  · obtain ⟨e, he, rfl⟩ := List.mem_map.1 hp
    exact List.mem_map.2 ⟨e, List.mem_of_mem_filter he, rfl⟩

/-- **When the search starts, the toggle has added parameters to the roots.** -/
theorem moreRoots_whenStarts (hg : g.Ingested) (hnone : (analyse s g).failure = none) :
    MoreRoots {p | (whenStarts (s.withParameters true) g .reachability).IsParameter p}
      (whenStarts (s.withParameters false) g .reachability)
      (whenStarts (s.withParameters true) g .reachability) := by
  have hc := hg.reachable.consistent
  rw [whenStarts_withParameters (failure_analyse_withParameters hc hnone),
    whenStarts_withParameters (failure_analyse_withParameters hc hnone)]
  have hk : (whenParametersAreKept s g).Reachable := reachable_runPasses hg.reachable
  simp only [Bool.false_eq_true, if_false, if_true]
  generalize whenParametersAreKept s g = k at hk ⊢
  have hkept : ∀ p ∈ Parameters.kept s k, k.IsParameter p := by
    intro p hp
    obtain ⟨d, x, hx, hlisted⟩ := Parameters.exists_listed hp
    exact hk.listsParameters d x p hx hlisted
  have H : MoreRoots {p | k.IsParameter p} k (k.retainAll (Parameters.kept s k)) :=
    .retainAll hk.consistent hkept
  have hsame : SameTree k (runPasses s (k.retainAll (Parameters.kept s k))
      (enabled s [.assignOnlyProperties])).graph := by
    refine (SameTree.of_sameOutline sameOutline_markAll).trans
      (sameTree_runPasses (hk.consistent.markAll _) fun hmem => ?_)
    have hne := List.mem_singleton.1 (List.mem_filter.1 hmem).1
    cases hne
  refine MoreRoots.mono (fun p (hp : k.IsParameter p) => hp.of_sameTree hsame) ?_
  rw [graph_runPasses_assignOnlyProperties, graph_runPasses_assignOnlyProperties]
  split
  · -- no property is a parameter
    refine H.eliminate fun d hd (hparameter : k.IsParameter d) => ?_
    obtain ⟨x, hx, hproperty⟩ := mem_declarationsWhere.1 hd
    rw [hparameter.kind hx] at hproperty
    cases hproperty
  · exact H

/-! ## The end -/

/-- The program alone: its declarations and its references. -/
def Graph.program (g : Graph) : Graph := { declarations := g.declarations, references := g.references }

/-- `Settled g h`: in `h` stands what a search of `g` found, in the program that it left. -/
structure Settled (g h : Graph) : Prop where
  program : h.program = (removeErroneous g).program
  retained : ∀ d, h.isRetained d = g.isRetained d
  used : ∀ d, h.isUsed d = true ↔ d ∈ reachable (removeErroneous g)

namespace Settled

/-- Whatever is asked of the program has the answer that it had. -/
theorem ask {α : Sort*} (H : Settled g h) (f : Graph → α) (hf : ∀ k, f k.program = f k) :
    f h = f (removeErroneous g) := by
  rw [← hf h, H.program, hf]

theorem congr {k : Graph} (H : Settled g h) (hprogram : k.program = h.program)
    (hmarks : ∀ mark, mark ≠ .ignored → k.marks.of mark = h.marks.of mark) : Settled g k where
  program := hprogram.trans H.program
  retained d := by
    rw [← H.retained, isRetained, isMarked, hmarks .retained (by decide)]
    rfl
  used d := by
    rw [← H.used, isUsed, isMarked, hmarks .used (by decide)]
    rfl

theorem markUsed (hg : g.Consistent) (hnone : g.marks.used = ∅) : Settled g (markUsed g) where
  program := by
    rw [markUsed_eq_marks]
    rfl
  retained _ := isRetained_markUsed hg
  used d := isUsed_markUsed_of_unmarked hg hnone

/-- Judging protocols changes neither the program nor what is retained or used. -/
theorem markRedundant (H : Settled g h) : Settled g (RedundantProtocols.markRedundant h) := by
  unfold RedundantProtocols.markRedundant
  refine List.foldlRecOn (motive := Settled g) _ _ H fun k hk f _ => hk.congr ?_ fun mark hne => ?_
  · rw [markAll_eq]
    rfl
  · refine SortedSet.eq_of_mem_iff fun d => mem_marks_markAll.trans ?_
    exact or_iff_right fun hput => hne hput.1.symm

end Settled

/-- Tiers are judged after the search and after protocols. -/
theorem whenJudged_eq (hnone : (analyse s g).failure = none) :
    whenJudged s g = (runPasses s (markUsed (whenStarts s g .reachability))
      (enabled s [.redundantProtocols])).graph := by
  have hcut : Pass.beforeTiers = (Pass.preparing ++ [.protocolExtensions, .conformances, .overrides] ++
      Pass.completing) ++ [.reachability, .redundantProtocols] := rfl
  have hone : enabled s [.reachability, .redundantProtocols] =
      .reachability :: enabled s [.redundantProtocols] := List.filter_cons_of_pos rfl
  obtain ⟨hfirst, -⟩ := analyse_cut Pass.all_cut_reachability rfl (by decide) hnone
  rw [whenJudged, hcut, enabled_append, graph_runPasses_append hfirst, hone, graph_runPasses_cons rfl,
    whenStarts_eq Pass.all_cut_reachability rfl (by decide)]
  rfl

/-- **In the end stands what the search found.** -/
theorem settled_analyse (hg : g.Ingested) (hnone : (analyse s g).failure = none) :
    Settled (whenStarts s g .reachability) (analyse s g).graph := by
  have hc := hg.reachable.consistent
  have hk : (whenStarts s g .reachability).Consistent := coherent_runPasses hc
  have hmarks := used_whenStarts_reachability hc (congrArg Marks.used hg.marks) hnone
  obtain ⟨m, hend, -⟩ := (analyse_tiers hg).2 hnone
  rw [hend, whenJudged_eq hnone]
  generalize whenStarts s g .reachability = k at hk hmarks ⊢
  have hprotocols : Settled k (runPasses s (markUsed k) (enabled s [.redundantProtocols])).graph := by
    refine runPasses_keeps (fun l p hp hl => ?_) (Settled.markUsed hk hmarks)
    obtain rfl := List.mem_singleton.1 (List.mem_filter.1 hp).1
    exact hl.markRedundant
  exact hprotocols.congr rfl fun _ _ => rfl

/-! ## What is used -/

/-- What is used outside of parameters, through what only `h` reaches in them or through a reference
that only `g` lost, is reached in `g`. -/
def LeadsNoFurther (g h : Graph) : Prop :=
  ∀ d ∈ reachable (removeErroneous h), ∀ r ∈ (removeErroneous h).referencesFrom d,
    ∀ t, (removeErroneous h).Names r t → ¬ (removeErroneous h).InParameter t →
    ((removeErroneous h).InParameter d ∧ d ∉ reachable (removeErroneous g)) ∨
      (removeErroneous g).hasReference r = false →
    t ∈ reachable (removeErroneous g)

namespace Graph.MoreRoots

variable (H : MoreRoots {p | h.IsParameter p} g h)

include H

theorem isParameter_of_new (hr : h.isRetained p = true) (hfree : g.isRetained p = false) :
    (removeErroneous h).IsParameter p := by
  have hparameter : h.IsParameter p :=
    (H.kept p hr).resolve_left fun hold => by rw [hfree] at hold; cases hold
  exact hparameter.of_sameTree (.of_sameOutline (pruned_removeErroneous H.right.toOwned).sameOutline)

/-- Where nothing else is used through parameters, what is reached in them takes in the new roots. -/
theorem absorbs_inParameter (huses : LeadsNoFurther g h) :
    Absorbs g h {d | d ∈ reachable (removeErroneous h) ∧ (removeErroneous h).InParameter d} := by
  have hclosed := closedUnderUse_reachable H.toLeaner.removeErroneous.right
  refine ⟨fun d hd => hclosed.live d hd.1, ?_, ?_, ?_⟩
  · intro p hr hfree
    have hparameter := H.isParameter_of_new hr hfree
    have hroot : (removeErroneous h).isRetained p = true :=
      (isRetained_removeErroneous H.right.toOwned).trans hr
    exact ⟨hclosed.retained p hparameter.live hroot, hparameter.inParameter⟩
  · intro d hd r hr t hnames hfresh
    have hreached : d ∈ reachable (removeErroneous h) :=
      hd.elim H.toLeaner.reachable_subset And.left
    have ht := hclosed.uses d hreached r hr t hnames
    by_cases hin : (removeErroneous h).InParameter t
    · exact .inr ⟨ht, hin⟩
    · refine .inl (huses d hreached r hr t hnames hin ?_)
      exact hfresh.imp_left fun hnew => ⟨(hd.resolve_left hnew).2, hnew⟩
  · intro a ha x hx hk p hp
    exact .inr ⟨hclosed.property a ha.1 x hx hk p hp, ha.2.of_accessor hx hk hp⟩

/-- **Outside of parameters the same is reached exactly where nothing else is used through them.** -/
theorem reachable_outside_iff :
    (∀ d, ¬ (removeErroneous h).InParameter d →
      (d ∈ reachable (removeErroneous h) ↔ d ∈ reachable (removeErroneous g))) ↔
    LeadsNoFurther g h := by
  have hclosed := closedUnderUse_reachable H.toLeaner.removeErroneous.right
  constructor
  · intro hsame d hd r hr t hnames hout _
    exact (hsame t hout).1 (hclosed.uses d hd r hr t hnames)
  · intro huses d hout
    refine ⟨fun hd => ?_, H.toLeaner.reachable_subset⟩
    exact (H.mem_of_absorbs (H.absorbs_inParameter huses) hd).resolve_right fun hin => hout hin.2

/-- **New roots that make no references and enclose nothing matter to themselves only.** -/
theorem reachable_outside_of_bare
    (hbare : ∀ p, h.isRetained p = true → g.isRetained p = false →
      (removeErroneous h).referencesFrom p = [] ∧ (removeErroneous h).childrenOf p = [])
    (hout : ¬ (removeErroneous h).InParameter d) :
    d ∈ reachable (removeErroneous h) ↔ d ∈ reachable (removeErroneous g) := by
  have hnew : Absorbs g h {p | h.isRetained p = true ∧ g.isRetained p = false} := by
    refine ⟨?_, fun p hr hfree => ⟨hr, hfree⟩, ?_, ?_⟩
    · intro p hp
      exact (H.isParameter_of_new hp.1 hp.2).live
    · intro d hd r hr t hnames hfresh
      exfalso
      rcases hfresh with hnew | hlost
      · -- a new root makes no references
        obtain ⟨hretained, hfree⟩ := hd.resolve_left hnew
        rw [(hbare d hretained hfree).1] at hr
        cases hr
      · -- nothing stands in a new root, so no reference was lost without it
        have hlive : (removeErroneous h).hasReference r = true := by
          obtain ⟨b, q, -, hn⟩ := mem_referencesFrom_iff.1 hr
          exact hn.live_right
        obtain ⟨p, hretained, hfree, hchildren⟩ := H.exists_root_of_lost hlive hlost
        have hsame : (removeErroneous h).childrenOf p = h.childrenOf p :=
          childrenOf_congr (pruned_removeErroneous H.right.toOwned).sameOutline.links
        rw [← hsame] at hchildren
        exact hchildren (hbare p hretained hfree).2
    · intro a ha x hx hk
      rw [(H.isParameter_of_new ha.1 ha.2).kind hx] at hk
      cases hk
  refine ⟨fun hd => ?_, H.toLeaner.reachable_subset⟩
  exact (H.mem_of_absorbs hnew hd).resolve_right fun hd =>
    hout (H.isParameter_of_new hd.1 hd.2).inParameter

end Graph.MoreRoots

/-- `KeepsParameters off on`: what an analysis that keeps unused parameters says of a program, against
one that does not. -/
structure KeepsParameters (off on : Graph) : Prop where
  outline : SameOutline off on
  /-- What is retained in addition are parameters. -/
  kept : ∀ p, on.isRetained p = true → off.isRetained p = false → on.IsParameter p
  used : ∀ d, off.isUsed d = true → on.isUsed d = true
  /-- Everything else is used in both or in none exactly where what it uses through those parameters, or
  through a reference that is only there with them, is used without them. -/
  same_iff : (∀ d, ¬ on.InParameter d → on.isUsed d = off.isUsed d) ↔
    ∀ d, on.isUsed d = true → ∀ r ∈ on.referencesFrom d, ∀ t, on.Names r t → ¬ on.InParameter t →
      (on.InParameter d ∧ off.isUsed d = false) ∨ off.hasReference r = false →
      off.isUsed t = true
  /-- So it is where those parameters refer to nothing and enclose nothing. -/
  same : (∀ p, on.isRetained p = true → off.isRetained p = false →
      on.referencesFrom p = [] ∧ on.childrenOf p = []) →
    ∀ d, ¬ on.InParameter d → on.isUsed d = off.isUsed d

/-- What the searches found stands in the end. -/
theorem keepsParameters_of_settled (H : MoreRoots {p | h.IsParameter p} g h) (hoff : Settled g off)
    (hon : Settled h on) : KeepsParameters off on := by
  have hsame : ∀ d, on.isUsed d = off.isUsed d ↔
      (d ∈ reachable (removeErroneous h) ↔ d ∈ reachable (removeErroneous g)) := fun d => by
    rw [Bool.eq_iff_iff, hon.used, hoff.used]
  have hunused : ∀ d, off.isUsed d = false ↔ d ∉ reachable (removeErroneous g) := fun d => by
    rw [← Bool.not_eq_true, hoff.used]
  have hin : ∀ d, on.InParameter d ↔ (removeErroneous h).InParameter d := fun d =>
    iff_of_eq (hon.ask (·.InParameter d) fun _ => rfl)
  have hchildren : ∀ d, on.childrenOf d = (removeErroneous h).childrenOf d := fun d =>
    hon.ask (·.childrenOf d) fun _ => rfl
  have hmade : ∀ d, on.referencesFrom d = (removeErroneous h).referencesFrom d := fun d =>
    hon.ask (·.referencesFrom d) fun _ => rfl
  have hnames : ∀ r t, on.Names r t ↔ (removeErroneous h).Names r t := fun r t =>
    iff_of_eq (hon.ask (·.Names r t) fun _ => rfl)
  have hthere : ∀ r, off.hasReference r = (removeErroneous g).hasReference r := fun r =>
    hoff.ask (·.hasReference r) fun _ => rfl
  refine ⟨?_, ?_, ?_, ?_, ?_⟩
  · have hdecl : ∀ d, on.declaration? d = (removeErroneous h).declaration? d := fun d =>
      hon.ask (·.declaration? d) fun _ => rfl
    have hdecl' : ∀ d, off.declaration? d = (removeErroneous g).declaration? d := fun d =>
      hoff.ask (·.declaration? d) fun _ => rfl
    exact ((SameOutline.of_declaration hdecl').symm.trans H.toLeaner.removeErroneous.outline).trans
      (.of_declaration hdecl)
  · intro p hp hfree
    rw [hon.retained] at hp
    rw [hoff.retained] at hfree
    have hparameter := H.isParameter_of_new hp hfree
    rwa [← hon.ask (·.IsParameter p) fun _ => rfl] at hparameter
  · intro d hd
    exact (hon.used d).2 (H.toLeaner.reachable_subset ((hoff.used d).1 hd))
  · simp only [hsame, hin, hmade, hnames, hthere, hunused, hon.used, hoff.used]
    exact H.reachable_outside_iff
  · intro hbare d hout
    simp only [hon.retained, hoff.retained, hmade, hchildren] at hbare
    exact (hsame d).2 (H.reachable_outside_of_bare hbare fun hd => hout ((hin d).2 hd))

/-- **Keeping unused parameters makes parameters roots of the search.**  Where the analysis of an
ingested graph goes through, it does so whether unused parameters are looked for or not.  With them it
retains some parameters more, uses no less, and uses the same outside of parameters exactly where
nothing else is used through those parameters. -/
theorem keepsParameters_analyse (hg : g.Ingested) (hnone : (analyse s g).failure = none) :
    (∀ b, (analyse (s.withParameters b) g).failure = none) ∧
      KeepsParameters (analyse (s.withParameters false) g).graph
        (analyse (s.withParameters true) g).graph := by
  have hall : ∀ b, (analyse (s.withParameters b) g).failure = none := fun _ =>
    failure_analyse_withParameters hg.reachable.consistent hnone
  exact ⟨hall, keepsParameters_of_settled (moreRoots_whenStarts hg hnone)
    (settled_analyse hg (hall false)) (settled_analyse hg (hall true))⟩

/-- A class and its subclass, which overrides a method and ignores its parameter.  The method refers to
the class of the parameter itself. -/
def overriddenHandler : Document :=
  { fragments := [
      { file := { path := ⟨"Handlers.swift"⟩, modules := .singleton "App" }
        declarations := [
          { kind := .classType, usrs := ["Event"], name := some "Event", line := 1 },
          { kind := .classType, usrs := ["Base"], name := some "Base", line := 3
            declarations := [
              { kind := .instanceMethod, usrs := ["Base.handle"], name := some "handle(event:)", line := 4
                references := [{ kind := .classType, usr := "Event", line := 4 }] }] },
          { kind := .classType, usrs := ["Sub"], name := some "Sub", line := 6
            related := [{ kind := .classType, usr := "Base", line := 6, role := .inheritedType }]
            declarations := [
              { kind := .instanceMethod, usrs := ["Sub.handle"], name := some "handle(event:)", line := 7
                related := [{ kind := .instanceMethod, usr := "Base.handle", line := 7 }]
                references := [{ kind := .classType, usr := "Event", line := 7, role := .parameterType }]
                unusedParameters := [
                  { kind := .parameter, usrs := ["Sub.handle.event"], name := some "event", line := 7
                    column := 10 }] }] }]
        references := [
          { kind := .classType, usr := "Sub", line := 9 },
          { kind := .instanceMethod, usr := "Sub.handle", line := 10 }] }] }

/-- The parameter that the subclass ignores is kept, and nothing else depends on the toggle. -/
theorem keepsParameters_analyse_overriddenHandler :
    let g := (Graph.ofDocument overriddenHandler).1
    let off := (analyse (Settings.withParameters {} false) g).graph
    let on := (analyse (Settings.withParameters {} true) g).graph
    off.marks.retained.toList = [] ∧ on.marks.retained.toList = [⟨5⟩] ∧
      off.marks.used.toList = [⟨0⟩, ⟨1⟩, ⟨2⟩, ⟨3⟩, ⟨4⟩] ∧
      ∀ d, ¬ on.InParameter d → on.isUsed d = off.isUsed d := by
  intro g off on
  have hrun : (analyse {} g).failure = none ∧ off.marks.retained.toList = [] ∧
      on.marks.retained.toList = [⟨5⟩] ∧ off.marks.used.toList = [⟨0⟩, ⟨1⟩, ⟨2⟩, ⟨3⟩, ⟨4⟩] ∧
      on.referencesFrom ⟨5⟩ = [] ∧ on.childrenOf ⟨5⟩ = [] := by decide +kernel
  obtain ⟨hnone, hoff, hon, hused, hbare⟩ := hrun
  have hg : g.Ingested := Graph.Ingested.empty.ingest overriddenHandler
  have H : KeepsParameters off on := (keepsParameters_analyse hg hnone).2
  clear_value off on
  refine ⟨hoff, hon, hused, H.same fun p hp _ => ?_⟩
  have hmem : p ∈ on.marks.retained.toList := isMarked_iff.1 hp
  rw [hon] at hmem
  obtain rfl := List.mem_singleton.1 hmem
  exact hbare

/-- A function that is called and discards its parameter, whose class nothing else refers to. -/
def discardedParameter : Document :=
  { fragments := [
      { file := { path := ⟨"Handlers.swift"⟩, modules := .singleton "App" }
        declarations := [
          { kind := .classType, usrs := ["Event"], name := some "Event", line := 1 },
          { kind := .freeFunction, usrs := ["handle"], name := some "handle(_:)", line := 3
            unusedParameters := [
              { kind := .parameter, usrs := ["handle._"], name := some "_", line := 3, column := 13
                references := [
                  { kind := .classType, usr := "Event", line := 3, column := 16
                    role := .parameterType }] }] }]
        references := [{ kind := .freeFunction, usr := "handle", line := 5 }] }] }

/-- **The toggle does not matter to parameters only.** -/
theorem not_same_discardedParameter : ¬ ∀ (s : Settings) (g : Graph), g.Ingested →
    (∀ b, (analyse (s.withParameters b) g).failure = none) →
    ∀ d, ¬ (analyse (s.withParameters true) g).graph.InParameter d →
      (analyse (s.withParameters true) g).graph.isUsed d =
        (analyse (s.withParameters false) g).graph.isUsed d := by
  intro hsame
  have hg : (Graph.ofDocument discardedParameter).1.Ingested :=
    Graph.Ingested.empty.ingest discardedParameter
  have hrun : let g := (Graph.ofDocument discardedParameter).1
      (∀ b, (analyse (Settings.withParameters {} b) g).failure = none) ∧
        ¬ (analyse (Settings.withParameters {} true) g).graph.InParameter ⟨0⟩ ∧
        (analyse (Settings.withParameters {} true) g).graph.isUsed ⟨0⟩ = true ∧
        (analyse (Settings.withParameters {} false) g).graph.isUsed ⟨0⟩ = false := by decide +kernel
  obtain ⟨hnone, hout, hon, hoff⟩ := hrun
  have hd := hsame {} _ hg hnone ⟨0⟩ hout
  rw [hon, hoff] at hd
  cases hd

end Deadwood

/-
  Retaining more never kills anything.

  1. **Settings (`Within`)** — two settings look for the same, and what the first ones retain, the
     second ones retain.

  2. **Two runs** — the first passes read no settings, so both runs start with the same graph.  The
     passes after them retain declarations and change nothing else; what they retain does not depend
     on marks (`Pass.keeps_unmarked`) and grows with the settings (`Pass.keeps_subset`).

  3. **The end (`isUsed_of_within`)** — from then on the graph of the first run is the leaner one, and
     what the search finds in it, it finds in the other one.
-/
import Deadwood.Proofs.Dispatch.Course
import Deadwood.Proofs.Retaining.Leaner

namespace Deadwood

open Deadwood.Graph

variable {g h : Graph} {d : DeclId} {s t : Settings} {pass : Pass}

/-! ## Settings -/

/-- `Within s t`: `t` looks for the same as `s` and retains at least as much. -/
structure Settings.Within (s t : Settings) : Prop where
  detection : t.detection = s.detection
  retainPublic : s.retainPublic = true → t.retainPublic = true
  retainObjcAccessible : s.retainObjcAccessible = true → t.retainObjcAccessible = true
  retainAssignOnlyProperties :
    s.retainAssignOnlyProperties = true → t.retainAssignOnlyProperties = true
  retainUnusedProtocolFuncParams :
    s.retainUnusedProtocolFuncParams = true → t.retainUnusedProtocolFuncParams = true
  retainSwiftUiPreviews : s.retainSwiftUiPreviews = true → t.retainSwiftUiPreviews = true
  retainPatterns : s.retainPatterns ⊆ t.retainPatterns
  externalTestCaseClasses : s.externalTestCaseClasses ⊆ t.externalTestCaseClasses

/-! ## What is retained -/

/-- What a pass that retains declarations keeps alive. -/
def Pass.keeps (s : Settings) (g : Graph) : Pass → List DeclId
  | previews => Retention.previews s g
  | testCases => Retention.testCases s g
  | markedTests => Retention.markedTests g
  | assets => Retention.assets g
  | publicApi => Retention.publicApi s g
  | objcAccessible => Retention.objcAccessible s g
  | patterns => Retention.patterns s g
  | unusedParameters => Parameters.kept s g
  | _ => []

theorem Pass.graph_run_retaining (hp : pass ∈ retaining) :
    (pass.run s g).graph = g.retainAll (pass.keeps s g) := by
  simp only [retaining, List.mem_cons, List.not_mem_nil, or_false] at hp
  rcases hp with rfl | rfl | rfl | rfl | rfl | rfl | rfl | rfl <;> rfl

/-- The graph without its marks. -/
def Graph.unmarked (g : Graph) : Graph := { g with marks := {} }

/-- What is kept alive does not depend on marks. -/
theorem Pass.keeps_unmarked : pass.keeps s g.unmarked = pass.keeps s g := by
  cases pass <;> rfl

theorem Settings.Within.retains (hst : s.Within t) {name : String} (hn : s.retains name = true) :
    t.retains name = true := by
  obtain ⟨pattern, hp, hm⟩ := List.any_eq_true.1 hn
  exact List.any_eq_true.2 ⟨pattern, hst.retainPatterns hp, hm⟩

/-- Where all parameters of a function stay, the same or fewer stay under the first settings. -/
theorem Parameters.keptOf_subset (hst : s.Within t) {family : List DeclId} {function : DeclId} :
    keptOf s g family function ⊆ keptOf t g family function := by
  intro p hp
  unfold keptOf at hp ⊢
  dsimp only at hp ⊢
  split at hp
  · rename_i hall
    rw [if_pos]
    · exact hp
    · simp only [Bool.or_eq_true, Bool.and_eq_true] at hall ⊢
      exact hall.imp_left (Or.imp_right (And.imp_left hst.retainUnusedProtocolFuncParams))
  · split
    · obtain ⟨e, he, rfl⟩ := List.mem_map.1 hp
      exact List.mem_map.2 ⟨e, List.mem_of_mem_filter he, rfl⟩
    · exact hp

/-- A list that a flag switches on. -/
theorem ite_subset {α : Type} {b c : Bool} {xs : List α} (hbc : b = true → c = true) :
    (if b then xs else []) ⊆ if c then xs else [] := by
  intro x hx
  split at hx
  · rename_i hb
    rw [if_pos (hbc hb)]
    exact hx
  · cases hx

/-- **More settings keep more alive.** -/
theorem Pass.keeps_subset (hst : s.Within t) : pass.keeps s g ⊆ pass.keeps t g := by
  cases pass with
  | previews => exact ite_subset hst.retainSwiftUiPreviews
  | publicApi => exact ite_subset hst.retainPublic
  | objcAccessible => exact ite_subset hst.retainObjcAccessible
  | testCases =>
      intro d hd
      obtain ⟨c, hc, hd⟩ := List.mem_flatMap.1 hd
      obtain ⟨hc, hinherits⟩ := List.mem_filter.1 hc
      obtain ⟨name, hname, hinherits⟩ := List.any_eq_true.1 hinherits
      have htest : Retention.inheritsFromOneOf g t.externalTestCaseClasses c = true :=
        List.any_eq_true.2 ⟨name, hst.externalTestCaseClasses hname, hinherits⟩
      exact List.mem_flatMap.2 ⟨c, List.mem_filter.2 ⟨hc, htest⟩, hd⟩
  | patterns =>
      intro d hd
      obtain ⟨x, hx, hd⟩ := mem_declIdsWhere.1 hd
      refine mem_declIdsWhere.2 ⟨x, hx, ?_⟩
      simp only [Bool.and_eq_true, Bool.or_eq_true] at hd ⊢
      exact hd.imp_right (Or.imp hst.retains hst.retains)
  | unusedParameters =>
      intro d hd
      obtain ⟨f, hf, hd⟩ := List.mem_flatMap.1 hd
      exact List.mem_flatMap.2 ⟨f, hf, Parameters.keptOf_subset hst hd⟩
  | _ => exact List.Subset.refl _

/-! ## Two runs -/

/-- `Eased g h`: the two graphs differ in their marks only, and `h` retains what `g` retains. -/
structure Graph.Eased (g h : Graph) : Prop where
  same : h.unmarked = g.unmarked
  retained : ∀ d, g.isRetained d = true → h.isRetained d = true

namespace Graph.Eased

theorem declaration? (H : Eased g h) : h.declaration? d = g.declaration? d := by
  show h.unmarked.declaration? d = g.unmarked.declaration? d
  rw [H.same]

theorem reference? (H : Eased g h) {r : RefId} : h.reference? r = g.reference? r := by
  show h.unmarked.reference? r = g.unmarked.reference? r
  rw [H.same]

theorem retainAll (H : Eased g h) {ids ids' : List DeclId} (hids : ids ⊆ ids') :
    Eased (g.retainAll ids) (h.retainAll ids') where
  same := by
    have hmarks : ∀ {k : Graph} {ids : List DeclId}, (k.retainAll ids).unmarked = k.unmarked :=
      fun {k ids} => by rw [Graph.retainAll, markAll_eq]; rfl
    rw [hmarks, hmarks, H.same]
  retained d hd := by
    simp only [isRetained, isMarked_iff, Graph.retainAll, mem_marks_markAll, true_and] at hd ⊢
    obtain ⟨hmem, hlive⟩ | hd := hd
    · refine .inl ⟨hids hmem, ?_⟩
      rw [hasDeclaration, H.declaration?]
      exact hlive
    · exact .inr (isMarked_iff.1 (H.retained d (isMarked_iff.2 hd)))

/-- One pass that retains declarations. -/
theorem run (H : Eased g h) (hst : s.Within t) (hp : pass ∈ Pass.retaining) :
    Eased (pass.run s g).graph (pass.run t h).graph := by
  have hkeeps : pass.keeps s g ⊆ pass.keeps t h := by
    rw [← Pass.keeps_unmarked (g := h), H.same, Pass.keeps_unmarked]
    exact Pass.keeps_subset hst
  rw [Pass.graph_run_retaining hp, Pass.graph_run_retaining hp]
  exact H.retainAll hkeeps

theorem leaner (H : Eased g h) (hg : g.Consistent) (hh : h.Consistent) : Leaner g h where
  outline := .of_declaration fun _ => H.declaration?
  bare _ _ := by rw [H.reference?]
  left := hg
  right := hh
  retained := H.retained

end Graph.Eased

/-- Whether a pass reads settings other than what is looked for. -/
def Pass.readsSettings : Pass → Bool
  | previews | testCases | publicApi | objcAccessible | patterns | unusedParameters
  | assignOnlyProperties | redundantPublic => true
  | _ => false

theorem Pass.run_eq (hp : pass.readsSettings = false) : pass.run s g = pass.run t g := by
  cases pass with
  | previews | testCases | publicApi | objcAccessible | patterns | unusedParameters
  | assignOnlyProperties | redundantPublic => cases hp
  | _ => rfl

/-- The passes before those that retain declarations. -/
def Pass.unconfigured : List Pass :=
  preparing ++ [.protocolExtensions, .conformances, .overrides] ++ synthesizing

theorem Pass.all_cut_retaining : Pass.all =
    (unconfigured ++ retaining ++ [.assignOnlyProperties]) ++ .reachability :: judging := rfl

theorem enabled_congr (hst : s.Within t) {passes : List Pass} :
    enabled t passes = enabled s passes := by
  unfold enabled
  rw [hst.detection]

theorem enabled_append {xs ys : List Pass} : enabled s (xs ++ ys) = enabled s xs ++ enabled s ys :=
  List.filter_append xs ys

/-- Up to the passes that retain declarations, two runs are the same. -/
theorem graph_runPasses_unconfigured
    (hs : (runPasses s g (enabled s Pass.unconfigured)).failure = none)
    (ht : (runPasses t g (enabled s Pass.unconfigured)).failure = none) :
    (runPasses s g (enabled s Pass.unconfigured)).graph =
      (runPasses t g (enabled s Pass.unconfigured)).graph := by
  refine runPasses_relate (R := Eq) (fun k l p hp he => ?_) rfl hs ht
  have hfree : Pass.unconfigured.all (!·.readsSettings) = true := rfl
  have hp := List.all_eq_true.1 hfree p (List.mem_filter.1 hp).1
  rw [he, Pass.run_eq (by simpa using hp)]

theorem consistent_runPasses (hg : g.Consistent) {passes : List Pass}
    (hnone : (runPasses s g passes).failure = none) : (runPasses s g passes).graph.Consistent :=
  runPasses_induction (P := Consistent) (fun _ _ _ hk _ => Pass.coherent_run hk) hg hnone

/-- The one pass after them, where it is switched on. -/
theorem leaner_runPasses_assignOnlyProperties (hst : s.Within t) (H : Leaner g h)
    (hs : (runPasses s g (enabled s [.assignOnlyProperties])).failure = none)
    (ht : (runPasses t h (enabled s [.assignOnlyProperties])).failure = none) :
    Leaner (runPasses s g (enabled s [.assignOnlyProperties])).graph
      (runPasses t h (enabled s [.assignOnlyProperties])).graph := by
  refine runPasses_relate (fun k l p hp H => ?_) H hs ht
  obtain rfl := List.mem_singleton.1 (List.mem_filter.1 hp).1
  exact H.eliminate hst.retainAssignOnlyProperties

/-- **When the search starts, the run that retains less has the leaner graph.** -/
theorem leaner_whenStarts_reachability (hst : s.Within t) (hg : g.Consistent)
    (hs : (analyse s g).failure = none) (ht : (analyse t g).failure = none) :
    Leaner (whenStarts s g .reachability) (whenStarts t g .reachability) := by
  have hrun := (analyse_cut Pass.all_cut_retaining rfl (by decide) hs).1
  have hrun' := (analyse_cut Pass.all_cut_retaining rfl (by decide) ht).1
  rw [enabled_congr hst] at hrun'
  rw [whenStarts_eq Pass.all_cut_retaining rfl (by decide),
    whenStarts_eq Pass.all_cut_retaining rfl (by decide), enabled_congr hst]
  rw [enabled_append, enabled_append, failure_runPasses_append] at hrun hrun'
  rw [enabled_append, enabled_append, graph_runPasses_append hrun.1, graph_runPasses_append hrun'.1]
  -- the graphs that the pass for properties finds
  have hc := consistent_runPasses hg hrun.1
  have hc' := consistent_runPasses hg hrun'.1
  obtain ⟨⟨hfirst, hretain⟩, hlast⟩ := hrun.imp_left failure_runPasses_append.1
  obtain ⟨⟨hfirst', hretain'⟩, hlast'⟩ := hrun'.imp_left failure_runPasses_append.1
  have H : Eased (runPasses s g (enabled s Pass.unconfigured ++ enabled s Pass.retaining)).graph
      (runPasses t g (enabled s Pass.unconfigured ++ enabled s Pass.retaining)).graph := by
    rw [graph_runPasses_append hfirst, graph_runPasses_append hfirst']
    refine runPasses_relate (fun k l p hp H => H.run hst (List.mem_filter.1 hp).1) ?_ hretain hretain'
    rw [graph_runPasses_unconfigured hfirst hfirst']
    exact ⟨rfl, fun _ hd => hd⟩
  exact leaner_runPasses_assignOnlyProperties hst (H.leaner hc hc') hlast hlast'

/-- **Retaining more never kills anything.**  Let two settings look for the same, and let the second
ones retain at least as much as the first ones.  Where the analysis of an ingested graph goes through
under both, what is used under the first settings is used under the second ones. -/
theorem isUsed_of_within (hg : g.Ingested) (hst : s.Within t) (hs : (analyse s g).failure = none)
    (ht : (analyse t g).failure = none) (hd : (analyse s g).graph.isUsed d = true) :
    (analyse t g).graph.isUsed d = true := by
  have hc := hg.reachable.consistent
  have hmarks : g.marks.used = ∅ := congrArg Marks.used hg.marks
  rw [isUsed_analyse hs] at hd
  rw [isUsed_analyse ht]
  exact (leaner_whenStarts_reachability hst hc hs ht).isUsed_markUsed
    (used_whenStarts_reachability hc hmarks hs) hd

/-- A function that is called writes a property that nothing reads, and a public function that nothing
calls refers to a helper. -/
def writtenAndPublic : Document :=
  { fragments := [
      { file := { path := ⟨"Counter.swift"⟩, modules := .singleton "App" }
        declarations := [
          { kind := .globalVariable, usrs := ["total"], name := some "total", line := 1
            declarations := [
              { kind := .setter, usrs := ["total.set"], line := 1, column := 5, isImplicit := true }] },
          { kind := .freeFunction, usrs := ["run"], name := some "run()", line := 3
            references := [{ kind := .setter, usr := "total.set", line := 4 }] },
          { kind := .freeFunction, usrs := ["api"], name := some "api()", line := 6
            accessibility := some .publicTier
            references := [{ kind := .freeFunction, usr := "helper", line := 7 }] },
          { kind := .freeFunction, usrs := ["helper"], name := some "helper()", line := 9 }]
        references := [{ kind := .freeFunction, usr := "run", line := 11 }] }] }

/-- Settings that retain what the standard ones leave to the search. -/
def generous : Settings :=
  { retainPublic := true, retainAssignOnlyProperties := true, retainPatterns := ["run*"] }

theorem isUsed_of_within_writtenAndPublic :
    let g := (Graph.ofDocument writtenAndPublic).1
    (∀ d, (analyse {} g).graph.isUsed d = true → (analyse generous g).graph.isUsed d = true) ∧
      (analyse {} g).graph.marks.used.toList = [⟨2⟩] ∧
      (analyse generous g).graph.marks.used.toList = [⟨0⟩, ⟨1⟩, ⟨2⟩, ⟨3⟩, ⟨4⟩] := by
  intro g
  have hst : Settings.Within {} generous := by
    constructor <;> decide
  have hrun : (analyse {} g).failure = none ∧ (analyse generous g).failure = none ∧
      (analyse {} g).graph.marks.used.toList = [⟨2⟩] ∧
      (analyse generous g).graph.marks.used.toList = [⟨0⟩, ⟨1⟩, ⟨2⟩, ⟨3⟩, ⟨4⟩] := by
    decide +kernel
  exact ⟨fun d hd => isUsed_of_within (Graph.Ingested.empty.ingest writtenAndPublic) hst hrun.1
    hrun.2.1 hd, hrun.2.2⟩

end Deadwood

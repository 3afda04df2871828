/-
  Runs of passes.

  1. **Composition** — a run of two lists that does not fail is a run of the first list and then,
     on what it left, of the second.

  2. **Invariants (`runPasses_induction`)** — what every pass of a list keeps when it does not give
     up, a run of the list keeps.

  3. **The standard analysis** — which passes it has depends on the settings.  `whenStarts` is the
     graph that one of its passes finds, and the analysis is cut there into what comes before, the
     pass, and what comes after.
-/
import Deadwood.Proofs.Renaming.Pipeline

namespace Deadwood

open Deadwood.Graph

variable {s : Settings} {g : Graph} {pass : Pass} {xs ys : List Pass}

/-! ## Composition -/

theorem failure_runPasses_cons : (runPasses s g (pass :: xs)).failure = none ↔
    (pass.run s g).fault = none ∧ (runPasses s (pass.run s g).graph xs).failure = none := by
  rw [runPasses]
  cases hf : (pass.run s g).fault with
  | some cause => simp
  | none => simp

theorem failure_runPasses_of_fault {cause : Fault} (hf : (pass.run s g).fault = some cause) :
    (runPasses s g (pass :: xs)).failure = some ⟨pass, cause⟩ := by
  rw [runPasses]
  simp only [hf]

theorem failure_runPasses_of_done (hf : (pass.run s g).fault = none) :
    (runPasses s g (pass :: xs)).failure = (runPasses s (pass.run s g).graph xs).failure := by
  rw [runPasses]
  simp only [hf]

theorem graph_runPasses_of_fault {cause : Fault} (hf : (pass.run s g).fault = some cause) :
    (runPasses s g (pass :: xs)).graph = (pass.run s g).graph := by
  rw [runPasses]
  simp only [hf]

theorem graph_runPasses_cons (hf : (pass.run s g).fault = none) :
    (runPasses s g (pass :: xs)).graph = (runPasses s (pass.run s g).graph xs).graph := by
  rw [runPasses]
  simp only [hf]

theorem failure_runPasses_append : (runPasses s g (xs ++ ys)).failure = none ↔
    (runPasses s g xs).failure = none ∧ (runPasses s (runPasses s g xs).graph ys).failure = none := by
  induction xs generalizing g with
  | nil => exact ⟨fun h => ⟨rfl, h⟩, fun h => h.2⟩
  | cons pass xs ih =>
      rw [List.cons_append, failure_runPasses_cons, failure_runPasses_cons, ih]
      constructor
      · rintro ⟨hf, hxs, hys⟩
        exact ⟨⟨hf, hxs⟩, by rw [graph_runPasses_cons hf]; exact hys⟩
      · rintro ⟨⟨hf, hxs⟩, hys⟩
        exact ⟨hf, hxs, by rw [graph_runPasses_cons hf] at hys; exact hys⟩

theorem failure_runPasses_append_of_done (hxs : (runPasses s g xs).failure = none) :
    (runPasses s g (xs ++ ys)).failure = (runPasses s (runPasses s g xs).graph ys).failure := by
  induction xs generalizing g with
  | nil => rfl
  | cons pass xs ih =>
      obtain ⟨hf, hrest⟩ := failure_runPasses_cons.1 hxs
      rw [List.cons_append, failure_runPasses_of_done hf, graph_runPasses_cons hf, ih hrest]

theorem graph_runPasses_append (hxs : (runPasses s g xs).failure = none) :
    (runPasses s g (xs ++ ys)).graph = (runPasses s (runPasses s g xs).graph ys).graph := by
  induction xs generalizing g with
  | nil => rfl
  | cons pass xs ih =>
      obtain ⟨hf, hrest⟩ := failure_runPasses_cons.1 hxs
      rw [List.cons_append, graph_runPasses_cons hf, graph_runPasses_cons hf, ih hrest]

/-! ## Invariants -/

/-- **What every pass of a list keeps, a run of the list keeps.** -/
theorem runPasses_induction {P : Graph → Prop}
    (hstep : ∀ k, ∀ pass ∈ xs, P k → (pass.run s k).fault = none → P (pass.run s k).graph)
    (hg : P g) (hnone : (runPasses s g xs).failure = none) : P (runPasses s g xs).graph := by
  induction xs generalizing g with
  | nil => exact hg
  | cons pass xs ih =>
      obtain ⟨hf, hrest⟩ := failure_runPasses_cons.1 hnone
      rw [graph_runPasses_cons hf]
      exact ih (fun k p hp => hstep k p (List.mem_cons_of_mem pass hp))
        (hstep g pass List.mem_cons_self hg hf) hrest

/-- What the passes of a list keep even where they give up, a run of the list keeps. -/
theorem runPasses_keeps {P : Graph → Prop}
    (hstep : ∀ k, ∀ pass ∈ xs, P k → P (pass.run s k).graph) (hg : P g) :
    P (runPasses s g xs).graph := by
  induction xs generalizing g with
  | nil => exact hg
  | cons pass xs ih =>
      have hone := hstep g pass List.mem_cons_self hg
      rw [runPasses]
      split
      · exact hone
      · exact ih (fun k p hp => hstep k p (List.mem_cons_of_mem pass hp)) hone

/-- **What the passes of a list keep of two graphs under two settings, two runs of the list keep.** -/
theorem runPasses_relate {R : Graph → Graph → Prop} {t : Settings} {h : Graph}
    (hstep : ∀ k l, ∀ pass ∈ xs, R k l → R (pass.run s k).graph (pass.run t l).graph)
    (hR : R g h) (hs : (runPasses s g xs).failure = none) (ht : (runPasses t h xs).failure = none) :
    R (runPasses s g xs).graph (runPasses t h xs).graph := by
  induction xs generalizing g h with
  | nil => exact hR
  | cons pass xs ih =>
      obtain ⟨hf, hrest⟩ := failure_runPasses_cons.1 hs
      obtain ⟨hf', hrest'⟩ := failure_runPasses_cons.1 ht
      rw [graph_runPasses_cons hf, graph_runPasses_cons hf']
      exact ih (fun k l p hp => hstep k l p (List.mem_cons_of_mem pass hp))
        (hstep g h pass List.mem_cons_self hR) hrest hrest'

/-- What is looked for is read by no pass. -/
theorem Pass.run_detection {detection : Detection} :
    pass.run { s with detection } g = pass.run s g := by
  cases pass <;> rfl

theorem runPasses_detection {detection : Detection} :
    runPasses { s with detection } g xs = runPasses s g xs := by
  induction xs generalizing g with
  | nil => rfl
  | cons pass xs ih => simp only [runPasses, Pass.run_detection, ih]

/-- A pass that does not give up keeps graphs consistent and identifiers apart. -/
theorem Pass.sound_run (hg : g.Consistent) (hu : g.Unambiguous) (hf : (pass.run s g).fault = none) :
    (pass.run s g).graph.Consistent ∧ (pass.run s g).graph.Unambiguous := by
  obtain ⟨_, -, -, -, T⟩ := (pass.follows_run (Twin.refl hg hu) (s := s)).2 hf
  exact ⟨T.left, T.unambiguous⟩

theorem sound_runPasses (hg : g.Consistent) (hu : g.Unambiguous)
    (hnone : (runPasses s g xs).failure = none) :
    (runPasses s g xs).graph.Consistent ∧ (runPasses s g xs).graph.Unambiguous :=
  runPasses_induction (P := fun k => k.Consistent ∧ k.Unambiguous)
    (fun _ _ _ hk hf => Pass.sound_run hk.1 hk.2 hf) ⟨hg, hu⟩ hnone

/-! ## The standard analysis -/

/-- The graph that a pass of the standard analysis finds when it starts. -/
def whenStarts (s : Settings) (g : Graph) (pass : Pass) : Graph :=
  (runPasses s g ((standardPasses s).takeWhile (· ≠ pass))).graph

/-- Up to the start of any of its passes, an analysis that goes through has gone through. -/
theorem failure_whenStarts (hnone : (analyse s g).failure = none) (pass : Pass) :
    (runPasses s g ((standardPasses s).takeWhile (· ≠ pass))).failure = none := by
  rw [analyse, ← List.takeWhile_append_dropWhile (p := (· ≠ pass)) (l := standardPasses s),
    failure_runPasses_append] at hnone
  exact hnone.1

theorem sound_whenStarts (hg : g.Consistent) (hu : g.Unambiguous)
    (hnone : (analyse s g).failure = none) :
    (whenStarts s g pass).Consistent ∧ (whenStarts s g pass).Unambiguous :=
  sound_runPasses hg hu (failure_whenStarts hnone _)

/-- The passes of a list that the settings switch on. -/
def enabled (s : Settings) (passes : List Pass) : List Pass :=
  passes.filter (Pass.isEnabled s.detection)

section Cut

variable {before after : List Pass} (hall : Pass.all = before ++ pass :: after)
  (hon : pass.isEnabled s.detection = true)

include hall hon

theorem standardPasses_eq : standardPasses s = enabled s before ++ pass :: enabled s after := by
  rw [standardPasses, hall, List.filter_append, List.filter_cons_of_pos hon]
  rfl

variable (hnew : pass ∉ before)

include hnew

theorem whenStarts_eq : whenStarts s g pass = (runPasses s g (enabled s before)).graph := by
  have hbefore : ∀ p ∈ enabled s before, decide (p ≠ pass) = true := by
    intro p hp
    have hne : p ≠ pass := fun he => hnew (he ▸ (List.mem_filter.1 hp).1)
    exact decide_eq_true hne
  rw [whenStarts, standardPasses_eq hall hon, List.takeWhile_append_of_pos hbefore,
    List.takeWhile_cons_of_neg (by simp), List.append_nil]

/-- **The analysis, cut at one of its passes.** -/
theorem analyse_cut (hnone : (analyse s g).failure = none) :
    (runPasses s g (enabled s before)).failure = none ∧
      (pass.run s (whenStarts s g pass)).fault = none ∧
      (runPasses s (pass.run s (whenStarts s g pass)).graph (enabled s after)).failure = none ∧
      (analyse s g).graph =
        (runPasses s (pass.run s (whenStarts s g pass)).graph (enabled s after)).graph := by
  rw [analyse, standardPasses_eq hall hon, failure_runPasses_append, failure_runPasses_cons,
    ← whenStarts_eq hall hon hnew] at hnone
  obtain ⟨hbefore, hpass, hafter⟩ := hnone
  refine ⟨hbefore, hpass, hafter, ?_⟩
  rw [analyse, standardPasses_eq hall hon, graph_runPasses_append hbefore,
    ← whenStarts_eq hall hon hnew, graph_runPasses_cons hpass]

end Cut

/-- What a pass finds, from what an earlier one left. -/
theorem whenStarts_after {before between after : List Pass} {first next : Pass}
    (hall : Pass.all = before ++ first :: (between ++ next :: after))
    (hfirst : first.isEnabled s.detection = true) (hnext : next.isEnabled s.detection = true)
    (hnew : first ∉ before) (hnew' : next ∉ before ++ first :: between)
    (hnone : (analyse s g).failure = none) :
    (runPasses s (first.run s (whenStarts s g first)).graph (enabled s between)).failure = none ∧
      whenStarts s g next =
        (runPasses s (first.run s (whenStarts s g first)).graph (enabled s between)).graph := by
  have hall' : Pass.all = (before ++ first :: between) ++ next :: after := by
    rw [hall, List.append_assoc, List.cons_append]
  have henabled : enabled s (before ++ first :: between) =
      enabled s before ++ first :: enabled s between := by
    rw [enabled, List.filter_append, List.filter_cons_of_pos hfirst]
    rfl
  have hrun := (analyse_cut hall' hnext hnew' hnone).1
  rw [henabled, failure_runPasses_append, failure_runPasses_cons,
    ← whenStarts_eq hall hfirst hnew] at hrun
  obtain ⟨hbefore, hpass, hbetween⟩ := hrun
  refine ⟨hbetween, ?_⟩
  rw [whenStarts_eq hall' hnext hnew', henabled, graph_runPasses_append hbefore,
    ← whenStarts_eq hall hfirst hnew, graph_runPasses_cons hpass]

end Deadwood

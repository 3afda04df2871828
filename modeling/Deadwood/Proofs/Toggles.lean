/-
  Switching off one thing that an analysis looks for.

  1. **Toggles** — the settings for unused imports and for the three redundant tiers.  Each switches one
     pass, and no pass reads them.

  2. **One toggle off (`apart_off`)** — nothing else that the analysis does depends on it: the program
     and the marks are the same in the end, and so is the report, but for the findings of its issue.

  3. **Tiers in any order (`anyOrder_of_perm`)** — what the passes for tiers find does not depend on
     their order, and each of them finds what it finds on its own.
-/
import Deadwood.Proofs.Access.Course
import Deadwood.Proofs.Report.Deletion

namespace Deadwood

open Deadwood.Graph RedundantAccess

variable {s : Settings} {g : Graph} {xs : List Pass} {tier : Tier}

/-! ## Toggles -/

/-- Something that an analysis looks for and nothing else depends on. -/
inductive Toggle where
  | unusedImports
  | redundantPublic
  | redundantInternal
  | redundantFileprivate
  deriving DecidableEq, Repr

namespace Toggle

variable {t : Toggle}

/-- Not to look for it. -/
def leaveOut (d : Detection) : Toggle → Detection
  | unusedImports => { d with unusedImports := false }
  | redundantPublic => { d with redundantPublic := false }
  | redundantInternal => { d with redundantInternal := false }
  | redundantFileprivate => { d with redundantFileprivate := false }

/-- The settings with the toggle switched off. -/
def off (t : Toggle) (s : Settings) : Settings := { s with detection := t.leaveOut s.detection }

/-- The pass that looks for it. -/
def pass : Toggle → Pass
  | unusedImports => .unusedImports
  | redundantPublic => .redundantPublic
  | redundantInternal => .redundantInternal
  | redundantFileprivate => .redundantFileprivate

/-- The issue of what is found. -/
def issue : Toggle → Issue
  | unusedImports => .unusedImport
  | redundantPublic => .redundantPublic
  | redundantInternal => .redundantInternal
  | redundantFileprivate => .redundantFileprivate

/-- Switching a toggle off switches its pass off, and no other one. -/
theorem isEnabled_off {p : Pass} : p.isEnabled (t.off s).detection =
    (p.isEnabled s.detection && decide (p ≠ t.pass)) := by
  cases t <;> cases p <;> simp [off, leaveOut, pass, Pass.isEnabled]

theorem enabled_off : enabled (t.off s) xs = (enabled s xs).filter (· ≠ t.pass) := by
  unfold enabled
  rw [List.filter_filter]
  refine List.filter_congr fun p _ => ?_
  rw [isEnabled_off, Bool.and_comm]

theorem enabled_off_of_not_mem (hxs : t.pass ∉ xs) : enabled (t.off s) xs = enabled s xs := by
  rw [enabled_off]
  refine List.filter_eq_self.2 fun p hp => decide_eq_true ?_
  rintro rfl
  exact hxs (List.mem_filter.1 hp).1

theorem runPasses_off : runPasses (t.off s) g xs = runPasses s g xs := runPasses_detection

/-- A report reads none of the toggles. -/
theorem collect_off : Finding.collect (t.off s) g = Finding.collect s g := by
  cases t <;> rfl

end Toggle

/-! ## One toggle off -/

/-- `Apart s g t`: switching off `t` changes nothing but the findings of its issue. -/
structure Apart (s : Settings) (g : Graph) (t : Toggle) : Prop where
  done : (analyse (t.off s) g).failure = none
  declarations : (analyse (t.off s) g).graph.declarations = (analyse s g).graph.declarations
  references : (analyse (t.off s) g).graph.references = (analyse s g).graph.references
  marks : (analyse (t.off s) g).graph.marks = (analyse s g).graph.marks
  report : Finding.collect (t.off s) (analyse (t.off s) g).graph =
    (Finding.collect s (analyse s g).graph).filter (·.issue ≠ t.issue)

/-- Judging imports changes the unused ones and nothing else. -/
theorem Imports.exists_markUnused : ∃ u, markUnused g = g.withImports u := by
  refine List.foldlRecOn (motive := fun k : Graph => ∃ u, k = g.withImports u) _ _
    ⟨g.unusedImports, rfl⟩ ?_
  rintro _ ⟨u, rfl⟩ i -
  exact ⟨u.insert i, rfl⟩

section Imports

/-- The pass that judges imports comes first, and only once. -/
theorem not_mem_enabled_tail : .unusedImports ∉ enabled s Pass.all.tail := by
  have hall : .unusedImports ∉ Pass.all.tail := by decide
  exact fun hmem => hall (List.mem_filter.1 hmem).1

theorem analyse_off_unusedImports :
    analyse (Toggle.unusedImports.off s) g = runPasses s g (enabled s Pass.all.tail) := by
  have hnew : Toggle.unusedImports.pass ∉ Pass.all.tail := by decide
  have hpasses : standardPasses (Toggle.unusedImports.off s) = enabled s Pass.all.tail :=
    Toggle.enabled_off_of_not_mem hnew
  rw [analyse, hpasses, Toggle.runPasses_off]

/-- An analysis that looks for unused imports is one that does not, with other unused imports. -/
theorem exists_analyse_withImports : ∃ u,
    (analyse s g).failure = (analyse (Toggle.unusedImports.off s) g).failure ∧
    (analyse s g).graph = (analyse (Toggle.unusedImports.off s) g).graph.withImports u := by
  rw [analyse_off_unusedImports]
  by_cases hon : s.detection.unusedImports = true
  · obtain ⟨u, hu⟩ := Imports.exists_markUnused (g := g)
    have hpasses : standardPasses s = .unusedImports :: enabled s Pass.all.tail :=
      List.filter_cons_of_pos hon
    have hrun : (Pass.unusedImports.run s g).graph = g.withImports u := hu
    obtain ⟨hfailure, hgraph⟩ :=
      runPasses_withImports (s := s) (g := g) (u := u) not_mem_enabled_tail
    refine ⟨u, ?_, ?_⟩
    · rw [analyse, hpasses, failure_runPasses_of_done rfl, hrun, hfailure]
    · rw [analyse, hpasses, graph_runPasses_cons rfl, hrun, hgraph]
  · have hpasses : standardPasses s = enabled s Pass.all.tail := List.filter_cons_of_neg hon
    refine ⟨(analyse s g).graph.unusedImports, ?_, ?_⟩
    · rw [analyse, hpasses]
    · rw [analyse, hpasses, withImports_unusedImports]

/-- Without the pass that judges imports, none is found unused. -/
theorem withImports_analyse_off (hg : g.unusedImports = ∅) :
    (analyse (Toggle.unusedImports.off s) g).graph.withImports ∅ =
      (analyse (Toggle.unusedImports.off s) g).graph := by
  have hsame : g.withImports ∅ = g := by rw [← hg, withImports_unusedImports]
  obtain ⟨-, hrun⟩ := runPasses_withImports (s := s) (g := g) (u := ∅) not_mem_enabled_tail
  rw [hsame] at hrun
  rw [analyse_off_unusedImports]
  exact hrun.symm

theorem apart_unusedImports (hg : g.Ingested) (hnone : (analyse s g).failure = none) :
    Apart s g .unusedImports := by
  have hempty : g.unusedImports = ∅ := congrArg Notes.unusedImports hg.unjudged
  obtain ⟨u, hfailure, hgraph⟩ := exists_analyse_withImports (s := s) (g := g)
  have hoff : (analyse (Toggle.unusedImports.off s) g).graph = (analyse s g).graph.withImports ∅ := by
    rw [hgraph, withImports_withImports, withImports_analyse_off hempty]
  refine ⟨hfailure.symm.trans hnone, ?_, ?_, ?_, ?_⟩
  · rw [hoff]
    rfl
  · rw [hoff]
    rfl
  · rw [hoff]
    rfl
  · rw [hoff, Toggle.collect_off]
    exact Finding.collect_withImports

end Imports

section Tiers

variable {t : Toggle} (htier : t.pass.tier? = some tier)

include htier

/-- A toggle for a tier leaves the graph in which tiers are judged as it is. -/
theorem whenJudged_off : enabled (t.off s) Pass.beforeTiers = enabled s Pass.beforeTiers ∧
    whenJudged (t.off s) g = whenJudged s g := by
  have hpasses : enabled (t.off s) Pass.beforeTiers = enabled s Pass.beforeTiers := by
    refine Toggle.enabled_off_of_not_mem fun hmem => ?_
    have hall : ∀ p ∈ Pass.beforeTiers, p.tier? = none := by decide
    rw [hall _ hmem] at htier
    cases htier
  refine ⟨hpasses, ?_⟩
  rw [whenJudged, whenJudged, hpasses, Toggle.runPasses_off]

/-- **Switching off one tier** leaves out what was found out about it. -/
theorem analyse_off_tier (hg : g.Ingested) (hnone : (analyse s g).failure = none) :
    (analyse (t.off s) g).failure = none ∧
    ∃ m, (analyse s g).graph = (whenJudged s g).withAccess m ∧
      (analyse (t.off s) g).graph =
        (whenJudged s g).withAccess (m.restrict fun e => e.2.declared ≠ tier) := by
  obtain ⟨hpasses, hsame⟩ := whenJudged_off (s := s) (g := g) htier
  have hverdict : ∀ (p : Pass) k c, p.verdict? (t.off s) k c = p.verdict? s k c := by
    intro p k c
    cases p <;> rfl
  have hsettles : ∀ (p : Pass) k, p.Settles (t.off s) k ↔ p.Settles s k := fun _ _ => Iff.rfl
  obtain ⟨hfailure, hgraph⟩ := analyse_tiers hg (s := s)
  obtain ⟨hfailure', hgraph'⟩ := analyse_tiers hg (s := t.off s)
  rw [hpasses, Toggle.runPasses_off, hsame] at hfailure'
  rw [hsame] at hgraph'
  simp only [hverdict, hsettles, Toggle.enabled_off] at hfailure' hgraph'
  obtain ⟨m, hm, hfind⟩ := hgraph hnone
  obtain ⟨hbefore, hall⟩ := hfailure.1 hnone
  have hoff := hfailure'.2 ⟨hbefore, fun p hp => hall p (List.mem_filter.1 hp).1⟩
  obtain ⟨m', hm', hfind'⟩ := hgraph' hoff
  refine ⟨hoff, m, hm, ?_⟩
  have hrestrict : m' = m.restrict fun e => e.2.declared ≠ tier := by
    refine SortedMap.eq_restrict fun c e => ?_
    rw [hfind', hfind, decide_eq_true_eq]
    constructor
    · rintro ⟨p, hp, hv⟩
      obtain ⟨hp, hne⟩ := List.mem_filter.1 hp
      refine ⟨⟨p, hp, hv⟩, fun he => of_decide_eq_true hne ?_⟩
      exact Pass.eq_of_tier? ((Pass.narrows_of_verdict? hv).1.trans (congrArg some he)) htier
    · rintro ⟨⟨p, hp, hv⟩, hne⟩
      refine ⟨p, List.mem_filter.2 ⟨hp, decide_eq_true fun he => hne ?_⟩, hv⟩
      rw [he] at hv
      exact Option.some.inj ((Pass.narrows_of_verdict? hv).1.symm.trans htier)
  rw [hm', hrestrict]

theorem apart_tier (hg : g.Ingested) (hnone : (analyse s g).failure = none)
    (hissue : Issue.ofTier? tier = some t.issue) : Apart s g t := by
  obtain ⟨hoff, m, hm, hm'⟩ := analyse_off_tier htier hg hnone
  refine ⟨hoff, ?_, ?_, ?_, ?_⟩
  · rw [hm, hm']
    rfl
  · rw [hm, hm']
    rfl
  · rw [hm, hm']
    rfl
  · rw [hm, hm', Toggle.collect_off]
    exact Finding.collect_withAccess hissue

end Tiers

/-- **What an analysis does with one toggle off.** -/
theorem apart_off (hg : g.Ingested) (hnone : (analyse s g).failure = none) (t : Toggle) :
    Apart s g t := by
  cases t with
  | unusedImports => exact apart_unusedImports hg hnone
  | redundantPublic => exact apart_tier rfl hg hnone rfl
  | redundantInternal => exact apart_tier rfl hg hnone rfl
  | redundantFileprivate => exact apart_tier rfl hg hnone rfl

/-! ## Tiers in any order -/

/-- `AnyOrder s g xs`: where the passes for tiers go through in the order `xs`, they go through in the
standard order, with the same result.  It has the entries that each of them finds on its own, one for a
declaration, and an entry narrows the tier that the declaration has in writing. -/
structure AnyOrder (s : Settings) (g : Graph) (xs : List Pass) : Prop where
  done : (runPasses s g xs).failure = none ↔ (runPasses s g Pass.tiers).failure = none
  same : (runPasses s g xs).failure = none →
    (runPasses s g xs).graph = (runPasses s g Pass.tiers).graph
  alone : (runPasses s g xs).failure = none → ∀ d e,
    (runPasses s g xs).graph.redundantAccess.find? d = some e ↔
      ∃ p ∈ Pass.tiers, (p.run s g).graph.redundantAccess.find? d = some e
  nodup : (runPasses s g xs).graph.redundantAccess.keys.Nodup
  narrows : (runPasses s g xs).failure = none → ∀ d e,
    (runPasses s g xs).graph.redundantAccess.find? d = some e → Pass.Narrows g d e

section AnyOrder

variable (hg : g.redundantAccess = ∅)

include hg

/-- What is recorded for a declaration when nothing was recorded before. -/
theorem exists_runPasses_tiers (hxs : xs.Perm Pass.tiers) :
    ((runPasses s g xs).failure = none ↔ ∀ p ∈ Pass.tiers, p.Settles s g) ∧
    ((runPasses s g xs).failure = none → ∃ m, (runPasses s g xs).graph = g.withAccess m ∧
      ∀ c e, m.find? c = some e ↔ ∃ p ∈ Pass.tiers, p.verdict? s g c = some e) := by
  have hnodup : Pass.tiers.Nodup := by decide
  have H : Unjudged xs g := .of_empty (fun p hp => Pass.exists_tier?_of_mem (hxs.mem_iff.1 hp))
    (hxs.nodup_iff.2 hnodup) hg
  obtain ⟨hfailure, hgraph⟩ := H.runPasses (s := s)
  simp only [hxs.mem_iff] at hfailure hgraph
  refine ⟨hfailure, fun hnone => ?_⟩
  obtain ⟨m, hm, hfind⟩ := hgraph hnone
  refine ⟨m, hm, fun c e => (hfind c e).trans (or_iff_right fun he => ?_)⟩
  rw [hg] at he
  cases he

/-- What a pass that settles its tier records on its own. -/
theorem find?_run_tier {p : Pass} (hp : p ∈ Pass.tiers) (hsettles : p.Settles s g) {c : DeclId}
    {e : RedundantAccess} :
    (p.run s g).graph.redundantAccess.find? c = some e ↔ p.verdict? s g c = some e := by
  obtain ⟨τ, htier⟩ := Pass.exists_tier?_of_mem hp
  have hfresh : Fresh τ g := by
    intro d e he
    rw [hg] at he
    cases he
  obtain ⟨hfault, hgraph⟩ := Pass.run_tier (s := s) htier hfresh
  obtain ⟨m, hm, hfind⟩ := hgraph (hfault.2 hsettles)
  have hnone : g.redundantAccess.find? c = none := by
    rw [hg]
    rfl
  rw [hm, redundantAccess_withAccess, hfind, hnone, Option.or_none]

theorem anyOrder_of_perm (hxs : xs.Perm Pass.tiers) : AnyOrder s g xs := by
  obtain ⟨hfailure, hgraph⟩ := exists_runPasses_tiers (s := s) hg hxs
  obtain ⟨hfailure', hgraph'⟩ := exists_runPasses_tiers (s := s) hg (List.Perm.refl Pass.tiers)
  refine ⟨hfailure.trans hfailure'.symm, fun hnone => ?_, fun hnone d e => ?_,
    SortedMap.nodup_keys _, fun hnone d e he => ?_⟩
  · obtain ⟨m, hm, hfind⟩ := hgraph hnone
    obtain ⟨m', hm', hfind'⟩ := hgraph' (hfailure'.2 (hfailure.1 hnone))
    have hsame : m = m' := SortedMap.eq_of_find?_eq fun c =>
      Option.ext fun e => (hfind c e).trans (hfind' c e).symm
    rw [hm, hm', hsame]
  · obtain ⟨m, hm, hfind⟩ := hgraph hnone
    have hsettles := hfailure.1 hnone
    rw [hm, redundantAccess_withAccess, hfind]
    constructor
    · rintro ⟨p, hp, hv⟩
      exact ⟨p, hp, (find?_run_tier hg hp (hsettles p hp)).2 hv⟩
    · rintro ⟨p, hp, he⟩
      exact ⟨p, hp, (find?_run_tier hg hp (hsettles p hp)).1 he⟩
  · obtain ⟨m, hm, hfind⟩ := hgraph hnone
    rw [hm, redundantAccess_withAccess, hfind] at he
    obtain ⟨p, -, hv⟩ := he
    exact (Pass.narrows_of_verdict? hv).2

end AnyOrder

/-- **The toggles for imports and tiers are independent.**  On an ingested graph that an analysis goes
through, switching one of them off changes nothing but the findings of its issue.  The passes for tiers,
where nothing is recorded yet, find the same in any order. -/
theorem toggles_independent :
    (∀ {s g}, g.Ingested → (analyse s g).failure = none → ∀ t, Apart s g t) ∧
      ∀ {s g xs}, g.redundantAccess = ∅ → xs.Perm Pass.tiers → AnyOrder s g xs :=
  ⟨fun hg hnone t => apart_off hg hnone t, fun hg hxs => anyOrder_of_perm hg hxs⟩

/-- A program in which each of the four finds something: the import of a module with a file that nothing
is taken from, a public and an internal function that the same file calls, and a fileprivate method that
its own class calls. -/
def overExposed : Document :=
  { fragments := [
      { file :=
          { path := ⟨"App.swift"⟩, modules := .singleton "App"
            imports := [{ module := "Tools", line := 1 }] }
        declarations := [
          { kind := .freeFunction, usrs := ["api"], name := some "api()", line := 3
            accessibility := some .publicTier },
          { kind := .freeFunction, usrs := ["helper"], name := some "helper()", line := 5
            accessibility := some .internalTier },
          { kind := .classType, usrs := ["Box"], name := some "Box", line := 7
            declarations := [
              { kind := .instanceMethod, usrs := ["open"], name := some "open()", line := 8
                references := [{ kind := .instanceMethod, usr := "lift", line := 8, column := 10 }] },
              { kind := .instanceMethod, usrs := ["lift"], name := some "lift()", line := 9
                accessibility := some .fileprivateTier }] }]
        references := [
          { kind := .freeFunction, usr := "api", line := 12 },
          { kind := .freeFunction, usr := "helper", line := 13 },
          { kind := .instanceMethod, usr := "open", line := 14 },
          { kind := .classType, usr := "Box", line := 14 }] },
      { file := { path := ⟨"Tools.swift"⟩, modules := .singleton "Tools" } }] }

theorem toggles_independent_overExposed :
    let g := (Graph.ofDocument overExposed).1
    (∀ t, Apart {} g t) ∧
      AnyOrder {} (whenJudged {} g) [.redundantFileprivate, .redundantPublic, .redundantInternal] ∧
      (Finding.collect {} (analyse {} g).graph).map (·.issue) =
        [.unusedImport, .redundantPublic, .redundantInternal, .redundantFileprivate] := by
  intro g
  have hg : g.Ingested := Graph.Ingested.empty.ingest overExposed
  have hrun : (analyse {} g).failure = none ∧ (Finding.collect {} (analyse {} g).graph).map (·.issue) =
      [.unusedImport, .redundantPublic, .redundantInternal, .redundantFileprivate] := by
    decide +kernel
  exact ⟨toggles_independent.1 hg hrun.1,
    toggles_independent.2 (redundantAccess_whenJudged hg) (by decide), hrun.2⟩

end Deadwood

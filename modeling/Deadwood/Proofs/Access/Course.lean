/-
  The tiers in the course of an analysis.

  1. **Several passes (`Unjudged.runPasses`)** — no two passes judge the same tier, and a declaration has
     one written tier.  So what several of them add is what each of them finds on its own.

  2. **The analysis (`analyse_tiers`)** — they come last, on a graph in which nothing was judged.
-/
import Deadwood.Proofs.Access.Verdicts
import Deadwood.Proofs.Dispatch.Course

namespace Deadwood

open Deadwood.Graph RedundantAccess

variable {s : Settings} {g : Graph} {c d : DeclId} {pass : Pass} {xs : List Pass}

/-! ## Several passes -/

/-- `Unjudged xs g`: nothing is recorded yet for the tiers that the passes judge, and what is recorded
narrows written tiers. -/
structure Unjudged (xs : List Pass) (g : Graph) : Prop where
  tiers : ∀ p ∈ xs, ∃ t, p.tier? = some t
  nodup : xs.Nodup
  fresh : ∀ p ∈ xs, ∀ t, p.tier? = some t → Fresh t g
  truthful : ∀ d e, g.redundantAccess.find? d = some e → Pass.Narrows g d e

theorem Unjudged.of_empty (htiers : ∀ p ∈ xs, ∃ t, p.tier? = some t) (hnodup : xs.Nodup)
    (hempty : g.redundantAccess = ∅) : Unjudged xs g where
  tiers := htiers
  nodup := hnodup
  fresh p _ t _ d e he := by rw [hempty] at he; cases he
  truthful d e he := by rw [hempty] at he; cases he

/-- One pass of several. -/
theorem Unjudged.run (H : Unjudged (pass :: xs) g) :
    ((pass.run s g).fault = none ↔ pass.Settles s g) ∧
    ((pass.run s g).fault = none → ∃ m, (pass.run s g).graph = g.withAccess m ∧
      Unjudged xs (g.withAccess m) ∧ ∀ c e, m.find? c = some e ↔
        g.redundantAccess.find? c = some e ∨ pass.verdict? s g c = some e) := by
  obtain ⟨tier, htier⟩ := H.tiers pass List.mem_cons_self
  have hfresh := H.fresh pass List.mem_cons_self tier htier
  obtain ⟨hfault, hadds⟩ := Pass.run_tier (s := s) htier hfresh
  refine ⟨hfault, fun hnone => ?_⟩
  obtain ⟨m, hm, hfind⟩ := hadds hnone
  have hiff : ∀ c e, m.find? c = some e ↔
      g.redundantAccess.find? c = some e ∨ pass.verdict? s g c = some e := by
    intro c e
    rw [hfind]
    cases hv : pass.verdict? s g c with
    | none => simp
    | some e' =>
        -- a declaration has one written tier, and nothing was recorded for it
        have hold : g.redundantAccess.find? c = none := by
          by_contra hsome
          obtain ⟨old, hold⟩ := Option.ne_none_iff_exists'.1 hsome
          obtain ⟨hpass, ⟨x, hx, haccess⟩, -⟩ := Pass.narrows_of_verdict? hv
          obtain ⟨⟨y, hy, haccess'⟩, -⟩ := H.truthful c old hold
          rw [hx] at hy
          cases hy
          rw [haccess] at haccess'
          rw [htier] at hpass
          cases hpass
          exact hfresh c old hold (congrArg Access.tier haccess').symm
        simp [hold]
  obtain ⟨hnew, hnodup⟩ := List.nodup_cons.1 H.nodup
  refine ⟨m, hm, ⟨fun p hp => H.tiers p (List.mem_cons_of_mem pass hp), hnodup, ?_, ?_⟩, hiff⟩
  · intro p hp t ht c e he
    rcases (hiff c e).1 he with he | he
    · exact H.fresh p (List.mem_cons_of_mem pass hp) t ht c e he
    · rintro rfl
      rw [Pass.eq_of_tier? (Pass.narrows_of_verdict? he).1 ht] at hnew
      exact hnew hp
  · intro c e he
    rcases (hiff c e).1 he with he | he
    · exact (H.truthful c e he).withResults
    · exact (Pass.narrows_of_verdict? he).2.withResults

/-- **What several passes add is what each of them finds.** -/
theorem Unjudged.runPasses (H : Unjudged xs g) :
    ((runPasses s g xs).failure = none ↔ ∀ p ∈ xs, p.Settles s g) ∧
    ((runPasses s g xs).failure = none → ∃ m, (runPasses s g xs).graph = g.withAccess m ∧
      ∀ c e, m.find? c = some e ↔
        g.redundantAccess.find? c = some e ∨ ∃ p ∈ xs, p.verdict? s g c = some e) := by
  induction xs generalizing g with
  | nil => exact ⟨iff_of_true rfl (fun p hp => absurd hp List.not_mem_nil),
      fun _ => ⟨g.redundantAccess, rfl, by simp⟩⟩
  | cons pass xs ih =>
      obtain ⟨hfault, hadds⟩ := H.run (s := s)
      rw [failure_runPasses_cons, hfault, List.forall_mem_cons]
      by_cases hsettles : pass.Settles s g
      · have hnone := hfault.2 hsettles
        obtain ⟨m, hm, H', hiff⟩ := hadds hnone
        obtain ⟨hrest, hadds'⟩ := ih H'
        rw [hm]
        refine ⟨and_congr_right fun _ => hrest, fun hall => ?_⟩
        obtain ⟨m', hm', hiff'⟩ := hadds' hall.2
        refine ⟨m', ?_, fun c e => ?_⟩
        · rw [graph_runPasses_cons hnone, hm, hm']
          rfl
        · have hold : (g.withAccess m).redundantAccess.find? c = m.find? c := rfl
          have hverdict : ∀ p : Pass, p.verdict? s (g.withAccess m) c = p.verdict? s g c :=
            fun _ => Pass.verdict?_withResults
          simp only [hiff', hold, hiff, hverdict, List.exists_mem_cons_iff, or_assoc]
      · exact ⟨iff_of_false (fun h => hsettles h.1) fun h => hsettles h.1,
          fun h => absurd h.1 hsettles⟩

/-! ## The analysis -/

/-- The passes that judge tiers. -/
def Pass.tiers : List Pass := [redundantPublic, redundantInternal, redundantFileprivate]

/-- The passes before them. -/
def Pass.beforeTiers : List Pass :=
  preparing ++ [.protocolExtensions, .conformances, .overrides] ++ completing ++
    [.reachability, .redundantProtocols]

theorem Pass.all_cut_tiers : Pass.all = beforeTiers ++ tiers := rfl

theorem Pass.exists_tier?_of_mem (hp : pass ∈ tiers) : ∃ t, pass.tier? = some t := by
  have hall : ∀ p ∈ tiers, p.tier?.isSome = true := by decide
  exact Option.isSome_iff_exists.1 (hall pass hp)

/-- The graph in which tiers are judged. -/
def whenJudged (s : Settings) (g : Graph) : Graph := (runPasses s g (enabled s Pass.beforeTiers)).graph

theorem redundantAccess_whenJudged (hg : g.Ingested) : (whenJudged s g).redundantAccess = ∅ := by
  have hnone : ∀ p ∈ Pass.beforeTiers, p.judgesAccess = false := by decide
  refine (runPasses_keeps (P := fun k => k.Consistent ∧ k.redundantAccess = ∅) (fun k p hp hk => ?_)
    ⟨hg.reachable.consistent, congrArg Notes.redundantAccess hg.unjudged⟩).2
  have H : Evolves p.MayDo k (p.run s k).graph := Pass.evolves_run
  refine ⟨Pass.coherent_run hk.1, ((H.results hk.1).2.resolve_right fun hyes => ?_).trans hk.2⟩
  rw [hnone p (List.mem_filter.1 hp).1] at hyes
  cases hyes

theorem unjudged_whenJudged (hg : g.Ingested) : Unjudged (enabled s Pass.tiers) (whenJudged s g) := by
  refine .of_empty (fun p hp => Pass.exists_tier?_of_mem (List.mem_filter.1 hp).1) ?_
    (redundantAccess_whenJudged hg)
  have hnodup : Pass.tiers.Nodup := by decide
  exact hnodup.filter _

/-- **What is found out about tiers in the end** is what each pass finds in the graph in which they are
judged. -/
theorem analyse_tiers (hg : g.Ingested) :
    ((analyse s g).failure = none ↔ (runPasses s g (enabled s Pass.beforeTiers)).failure = none ∧
      ∀ p ∈ enabled s Pass.tiers, p.Settles s (whenJudged s g)) ∧
    ((analyse s g).failure = none → ∃ m, (analyse s g).graph = (whenJudged s g).withAccess m ∧
      ∀ c e, m.find? c = some e ↔
        ∃ p ∈ enabled s Pass.tiers, p.verdict? s (whenJudged s g) c = some e) := by
  have hcut : standardPasses s = enabled s Pass.beforeTiers ++ enabled s Pass.tiers := by
    rw [standardPasses, Pass.all_cut_tiers, List.filter_append]
    rfl
  obtain ⟨hsettles, hadds⟩ := (unjudged_whenJudged hg (s := s)).runPasses (s := s)
  rw [analyse, hcut, failure_runPasses_append]
  refine ⟨and_congr_right fun _ => hsettles, fun hrun => ?_⟩
  obtain ⟨hbefore, htiers⟩ := hrun
  obtain ⟨m, hm, hfind⟩ := hadds htiers
  refine ⟨m, (graph_runPasses_append hbefore).trans hm, fun c e => (hfind c e).trans ?_⟩
  rw [redundantAccess_whenJudged hg]
  exact or_iff_right fun he => by cases he

end Deadwood

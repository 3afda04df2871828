/-
  Edges in the course of an analysis.

  1. **The search (`isUsed_of_linked`)** — an edge is followed, unless it is an edge of a requirement
     that leads into something dead: such edges go first.

  2. **Marks of use (`used_whenStarts_reachability`)** — only the search puts them, so nothing is marked
     when it starts on what was ingested.

  3. **The course (`isUsed_of_linked_whenStarts`)** — once conformances are turned around, no pass up to
     the search removes an edge, and no pass after the search changes what is used.
-/
import Deadwood.Proofs.Dispatch.Wiring
import Deadwood.Proofs.Ingest.Merging
import Deadwood.Proofs.Persistence

namespace Deadwood

open Deadwood.Graph

variable {g h : Graph} {d t R X : DeclId} {r : RefId} {s : Settings} {pass : Pass} {S : Set DeclId}
  {named : Prop}

/-! ## The search -/

namespace Reachability

/-- An edge stays when the references into dead types go, unless it is one of them. -/
theorem linked_removeErroneous (hg : g.Consistent) (hu : g.Unambiguous) (L : g.Linked R X)
    (hkept : g.isProtocolMember R = true → hasDeadAncestor g X = false) :
    (removeErroneous g).Linked R X := by
  obtain ⟨e, E⟩ := L
  have P := pruned_removeErroneous hg.toOwned
  refine ⟨e, E.congr P.sameOutline (P.bare fun hgone => ?_)⟩
  obtain ⟨q, hq, hmem⟩ := List.mem_flatMap.1 hgone
  by_cases he : e = q
  · subst he
    obtain ⟨y, member, hy, ho, -, hmember, d, ⟨y', x, hy', hx, husr⟩, hd⟩ := (mem_erroneous hg).1 hq
    have hR := E.ownerOf?
    rw [ownerOf?, hy, Option.bind_some, ho] at hR
    cases hR
    -- only `X` carries the identifier that the edge names
    obtain ⟨z, x', hz, hx', husr'⟩ := E.names hg
    rw [hy'] at hz
    cases hz
    obtain rfl := hu d X x x' y'.usr hx hx' husr husr'
    rw [hkept hmember] at hd
    cases hd
  · exact not_mem_referenceTree hg.toOwned E.ownerOf? he hmem

/-- **What a used declaration has an edge to is used**, or the declaration is a requirement and the
edge leads into something dead. -/
theorem isUsed_of_linked (hg : g.Consistent) (hu : g.Unambiguous) (hnone : g.marks.used = ∅)
    (L : g.Linked R X) (hR : (markUsed g).isUsed R = true) :
    (markUsed g).isUsed X = true ∨ (g.isProtocolMember R = true ∧ hasDeadAncestor g X = true) := by
  by_cases hdead : g.isProtocolMember R = true ∧ hasDeadAncestor g X = true
  · exact .inr hdead
  · have hc := coherent_removeErroneous hg
    obtain ⟨e, E⟩ := linked_removeErroneous hg hu L fun hmember =>
      Bool.eq_false_iff.2 fun hyes => hdead ⟨hmember, hyes⟩
    have hreached := (isUsed_markUsed_of_unmarked hg hnone).1 hR
    have hheld : e ∈ (removeErroneous g).heldBy R true := by
      obtain ⟨y, _, hy, ho, hrelated, -⟩ := E
      exact (hc.held_iff R true e).2 ⟨y, hy, ho, hrelated⟩
    have hmade := hc.toOwned.mem_referencesFrom_of_held hheld
    have hused := (closedUnderUse_reachable hc).uses R hreached e hmade X (E.names hc)
    exact .inl ((isUsed_markUsed hg).2 (.inr hused))

end Reachability

/-! ## Marks of use -/

/-- Only the search marks anything used. -/
theorem Pass.used_run (hg : g.Coherent named) (hp : pass ≠ .reachability)
    (hnone : g.marks.used = ∅) : (pass.run s g).graph.marks.used = ∅ := by
  have hputs : Mark.used ∉ pass.puts := fun hmem => hp (Pass.eq_reachability_of_puts hmem)
  refine SortedSet.eq_of_mem_iff fun d => iff_of_false (fun hd => ?_) List.not_mem_nil
  have hold := evolves_run.isMarked_of_not_puts hg hputs (isMarked_iff.2 hd)
  rw [isMarked_iff, Marks.of, hnone] at hold
  cases hold

/-- Nothing is marked used before the search. -/
theorem used_whenStarts_reachability (hg : g.Coherent named) (hmarks : g.marks.used = ∅)
    (hnone : (analyse s g).failure = none) :
    (whenStarts s g .reachability).marks.used = ∅ := by
  have hrun := runPasses_induction (P := fun k => k.Coherent named ∧ k.marks.used = ∅)
    (fun k p hmem hk _ => ⟨Pass.coherent_run hk.1, Pass.used_run hk.1 (fun he => ?_) hk.2⟩)
    ⟨hg, hmarks⟩ (failure_whenStarts hnone .reachability)
  · exact hrun.2
  · have hne := List.all_eq_true.1 List.all_takeWhile _ hmem
    simp [he] at hne

/-! ## The course -/

/-- Whether a pass leaves edges alone, and the marks of use. -/
def Pass.isSparing (pass : Pass) : Bool := pass.isAdding || pass = .assignOnlyProperties

theorem Pass.spares_run (hg : g.Consistent) (hu : g.Unambiguous) (hp : pass.isSparing = true) :
    Spares S g (pass.run s g).graph := by
  rw [isSparing, Bool.or_eq_true] at hp
  rcases hp with hp | hp
  · exact .of_adds (evolves_run.adds _ hp)
  · obtain rfl := of_decide_eq_true hp
    exact AssignOnly.spares_eliminate hg hu

theorem spares_runPasses (hg : g.Consistent) (hu : g.Unambiguous) {passes : List Pass}
    (hp : passes.all Pass.isSparing = true)
    (hnone : (runPasses s g (enabled s passes)).failure = none) :
    Spares S g (runPasses s g (enabled s passes)).graph := by
  have hrun := runPasses_induction (P := fun k => (k.Consistent ∧ k.Unambiguous) ∧ Spares S g k)
    (fun k p hmem hk hf => ⟨Pass.sound_run hk.1.1 hk.1.2 hf, hk.2.trans (Pass.spares_run hk.1.1 hk.1.2
      (List.all_eq_true.1 hp p (List.mem_filter.1 hmem).1))⟩) ⟨⟨hg, hu⟩, .refl⟩ hnone
  exact hrun.2

/-- The passes before protocols are connected with what implements them. -/
def Pass.preparing : List Pass := [unusedImports, directives, cascadeAccess, foldExtensions]

/-- The passes for overrides of foreign members, for what the compiler makes and for what the language
calls. -/
def Pass.synthesizing : List Pass := [
    foreignOverrides, enumCases, defaultConstructors, memberwiseInitializers, genericConstructors,
    accessors, dynamicMembers, propertyWrappers, resultBuilders, stringInterpolation, entryPoints]

/-- The passes that retain what frameworks, assets and settings keep alive. -/
def Pass.retaining : List Pass := [
    previews, testCases, markedTests, assets, publicApi, objcAccessible, patterns, unusedParameters]

/-- The passes between the one for overrides and the search. -/
def Pass.completing : List Pass := synthesizing ++ retaining ++ [assignOnlyProperties]

/-- The passes after the search. -/
def Pass.judging : List Pass := [
    redundantProtocols, redundantPublic, redundantInternal, redundantFileprivate]

theorem Pass.all_cut_reachability : Pass.all =
    (preparing ++ [.protocolExtensions, .conformances, .overrides] ++ completing) ++
      .reachability :: judging := rfl

/-- After the search nothing is removed, and nothing more is marked used. -/
theorem adds_analyse (hnone : (analyse s g).failure = none) :
    Adds (Reachability.markUsed (whenStarts s g .reachability)) (analyse s g).graph := by
  obtain ⟨-, -, hrun, hend⟩ := analyse_cut Pass.all_cut_reachability rfl (by decide) hnone
  rw [hend]
  refine runPasses_induction (P := Adds _) (fun k p hp hk _ => ?_) .refl hrun
  have hall : Pass.judging.all Pass.isAdding = true := rfl
  exact hk.trans (Pass.evolves_run.adds _ (List.all_eq_true.1 hall p (List.mem_filter.1 hp).1))

/-- What is used in the end is what the search marked. -/
theorem isUsed_analyse (hnone : (analyse s g).failure = none) : (analyse s g).graph.isUsed d =
    (Reachability.markUsed (whenStarts s g .reachability)).isUsed d :=
  congrArg (fun u : SortedSet DeclId => u.contains d) (adds_analyse hnone).used

/-- What is retained in the end was retained when the search started. -/
theorem isRetained_whenStarts_reachability (hg : g.Coherent named)
    (hnone : (analyse s g).failure = none)
    (hd : (analyse s g).graph.isRetained d = true) :
    (whenStarts s g .reachability).isRetained d = true := by
  obtain ⟨-, -, -, hend⟩ := analyse_cut Pass.all_cut_reachability rfl (by decide) hnone
  have hk : (whenStarts s g .reachability).Coherent named := coherent_runPasses hg
  rw [hend] at hd
  have hjudging : ∀ p ∈ enabled s Pass.judging, Mark.retained ∉ p.puts := fun p hp => by
    have hall : ∀ p ∈ Pass.judging, Mark.retained ∉ p.puts := by decide
    exact hall p (List.mem_filter.1 hp).1
  exact Pass.evolves_run.isMarked_of_not_puts hk (by decide)
    (isMarked_of_runPasses (Pass.coherent_run hk) hjudging hd)

/-- What is retained in the end is used. -/
theorem isUsed_of_isRetained_analyse (hg : g.Coherent named) (hnone : (analyse s g).failure = none)
    (hlive : (analyse s g).graph.hasDeclaration d = true)
    (hr : (analyse s g).graph.isRetained d = true) : (analyse s g).graph.isUsed d = true := by
  have hk : (whenStarts s g .reachability).Coherent named := coherent_runPasses hg
  rw [isUsed_analyse hnone]
  refine Reachability.isUsed_markUsed_of_retained hk ?_
    (isRetained_whenStarts_reachability hg hnone hr)
  rw [← Reachability.hasDeclaration_markUsed hk, ← (adds_analyse hnone).outline.hasDeclaration]
  exact hlive

section Course

variable (hg : g.Consistent) (hu : g.Unambiguous) (hnone : (analyse s g).failure = none)

include hg hu hnone

/-- Where all passes between a pass and the search leave edges alone, the edges that are there after
the pass are there when the search starts. -/
theorem spares_whenStarts_reachability {before between : List Pass}
    (hall : Pass.all = before ++ pass :: (between ++ .reachability :: Pass.judging))
    (hon : pass.isEnabled s.detection = true) (hnew : pass ∉ before)
    (hnew' : Pass.reachability ∉ before ++ pass :: between)
    (hbetween : between.all Pass.isSparing = true) :
    Spares S (pass.run s (whenStarts s g pass)).graph (whenStarts s g .reachability) := by
  obtain ⟨hrun, hstart⟩ := whenStarts_after hall hon rfl hnew hnew' hnone
  obtain ⟨hc, hu'⟩ : (whenStarts s g pass).Consistent ∧ (whenStarts s g pass).Unambiguous :=
    sound_whenStarts hg hu hnone
  have hpass := (analyse_cut hall hon hnew hnone).2.1
  obtain ⟨hc₁, hu₁⟩ := Pass.sound_run hc hu' hpass
  rw [hstart]
  exact spares_runPasses hc₁ hu₁ hbetween hrun

/-- From the start of the search to the end of the analysis the outline stays. -/
theorem sameOutline_analyse : SameOutline (whenStarts s g .reachability) (analyse s g).graph :=
  (Reachability.sameOutline_markUsed (sound_whenStarts hg hu hnone).1).trans
    (adds_analyse hnone).outline

/-- **A used declaration keeps alive what it has an edge to when the search starts**, unless it is a
requirement and the edge leads into something dead. -/
theorem isUsed_of_linked_whenStarts (hmarks : g.marks.used = ∅)
    (L : (whenStarts s g .reachability).Linked R X)
    (hR : (analyse s g).graph.isUsed R = true) :
    (analyse s g).graph.isUsed X = true ∨
      ((analyse s g).graph.isProtocolMember R = true ∧
        Reachability.hasDeadAncestor (whenStarts s g .reachability) X = true) := by
  obtain ⟨hc, hu'⟩ : (whenStarts s g .reachability).Consistent ∧
    (whenStarts s g .reachability).Unambiguous := sound_whenStarts hg hu hnone
  rw [isUsed_analyse hnone] at hR ⊢
  rw [(sameOutline_analyse hg hu hnone).isProtocolMember]
  exact Reachability.isUsed_of_linked hc hu' (used_whenStarts_reachability hg hmarks hnone) L hR

end Course

end Deadwood

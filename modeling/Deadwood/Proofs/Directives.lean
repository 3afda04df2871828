/-
  Directives are absolute.

  1. **Addresses (`Directives.mem_suppressed`)** — a directive stands on a declaration or in its file,
     and is meant for everything inside the declaration, too.

  2. **Judgement (`find?_markRedundant`, `find?_judge`)** — what is retained is never judged, neither
     as a protocol nor by its tier.

  3. **The run (`Spared`)** — retained and ignored stays so as long as it is there, and it is not judged
     (`Spared.run`).  So the passes after the one for directives keep it, whatever they do.

  4. **The end (`leftAlone_of_addressed`)** — and then nothing is told of it.
-/
import Deadwood.Proofs.Access.Verdicts
import Deadwood.Proofs.DeadTrees
import Deadwood.Proofs.Dispatch.Course
import Deadwood.Proofs.Report.Telling

namespace Deadwood

open Deadwood.Graph

variable {g h : Graph} {a c d : DeclId} {s : Settings} {pass : Pass} {named : Prop}

/-! ## Addresses -/

/-- A directive says to leave `d` alone, or one in its file says so of the file. -/
def Graph.Addressed (g : Graph) (d : DeclId) : Prop :=
  ∃ x, g.declaration? d = some x ∧
    (x.directives.contains .ignore = true ∨ Directives.isInIgnoredFile g x = true)

namespace Directives

/-- What directives suppress: what they address, and everything inside it. -/
theorem mem_suppressed (hg : g.Nested) :
    d ∈ suppressed g ↔ ∃ a, g.Addressed a ∧ g.EnclosedBy d a := by
  simp only [suppressed, List.mem_flatMap, mem_declIdsWhere, Bool.or_eq_true, List.mem_cons]
  refine exists_congr fun a => ?_
  have haddressed : (∃ x, g.declaration? a = some x ∧
      (isInIgnoredFile g x = true ∨ x.directives.contains .ignore = true)) ↔ g.Addressed a :=
    exists_congr fun x => and_congr_right fun _ => or_comm
  rw [haddressed]
  refine and_congr_right ?_
  rintro ⟨x, hx, -⟩
  rw [mem_descendants, hg.enclosedBy_iff]
  constructor
  · rintro (rfl | ⟨hdown, -⟩)
    · exact .here (mem_declIds.2 (hasDeclaration_of_eq hx))
    · exact hdown
  · intro hdown
    by_cases hself : d = a
    · exact .inl hself
    · exact .inr ⟨hdown, hself⟩

/-- It is retained and ignored. -/
theorem marks_obey (hg : g.Nested) (ha : g.Addressed a) (hup : g.EnclosedBy d a) :
    (obey g).isRetained d = true ∧ (obey g).isIgnored d = true := by
  have hd : d ∈ suppressed g := (mem_suppressed hg).2 ⟨a, ha, hup⟩
  have hlive : (g.declaration? d).isSome = true := mem_declIds.1 hup.mem_left
  simp [obey, Graph.retainAll, isRetained, isIgnored, isMarked_iff, mem_marks_markAll,
    hasDeclaration, hd, hlive]

/-- What is ignored then is retained, or was ignored. -/
theorem isRetained_of_isIgnored_obey (hd : (obey g).isIgnored d = true) :
    (obey g).isRetained d = true ∨ g.isIgnored d = true := by
  simp only [obey, Graph.retainAll, isRetained, isIgnored, isMarked_iff, mem_marks_markAll,
    reduceCtorEq, false_and, false_or, true_and] at hd ⊢
  refine hd.imp (fun hnew => .inr (.inl ⟨hnew.1, ?_⟩)) id
  rw [← sameOutline_markAll.hasDeclaration]
  exact hnew.2

end Directives

/-! ## Judgement -/

/-- Nothing retained is a redundant protocol. -/
theorem RedundantProtocols.find?_markRedundant
    (hd : g.hasDeclaration d = true → g.isRetained d = true) :
    (markRedundant g).redundantProtocols.find? d = g.redundantProtocols.find? d := by
  refine List.foldlRecOn
    (motive := fun k : Graph => k.redundantProtocols.find? d = g.redundantProtocols.find? d)
    _ _ rfl fun k hk f hf => ?_
  obtain ⟨proto, -, hf⟩ := List.mem_filterMap.1 hf
  obtain ⟨result, he, rfl⟩ := Option.map_eq_some_iff.1 hf
  have hne : d ≠ proto := by
    rintro rfl
    unfold evaluate at he
    cases hx : g.declaration? d with
    | none => rw [hx] at he; cases he
    | some x => simp [hx, hd (hasDeclaration_of_eq hx)] at he
  rw [markAll_eq]
  exact (SortedMap.find?_insert.trans (if_neg hne)).trans hk

namespace RedundantAccess

/-- Nothing retained is a candidate. -/
theorem not_mem_candidates (hd : g.hasDeclaration d = true → g.isRetained d = true) {tier : Tier} :
    d ∉ candidates g tier := by
  intro hmem
  obtain ⟨hmem, hlive⟩ := mem_sortedDeclarations.1 hmem
  have hok := (List.mem_filter.1 hmem).2
  rw [hd hlive] at hok
  simp at hok

/-- Nothing retained has a redundant tier. -/
theorem find?_judge (hd : g.hasDeclaration d = true → g.isRetained d = true) {declared : Tier}
    {suggest : Graph → DeclId → Option Tier} {sameScope : Graph → DeclId → DeclId → Bool} :
    (judge g declared suggest sameScope).graph.redundantAccess.find? d =
      g.redundantAccess.find? d := by
  have hnot : d ∉ candidates g declared := not_mem_candidates hd
  obtain ⟨m, hm, hfind⟩ := exists_judge (g := g) declared suggest sameScope
  have hown : ownTier? declared suggest g d = none := if_neg fun h => hnot h.1
  rw [hm]
  refine (hfind d fun h => hnot h.1).trans ?_
  rw [hown, Option.bind_none, Option.none_or]

end RedundantAccess

/-! ## The run -/

/-- `Spared g d`: as long as it is there, `d` is retained and ignored, and it was not judged. -/
structure Spared (g : Graph) (d : DeclId) : Prop where
  coherent : g.Consistent
  retained : g.hasDeclaration d = true → g.isRetained d = true
  ignored : g.hasDeclaration d = true → g.isIgnored d = true
  proto : g.redundantProtocols.find? d = none
  tier : g.redundantAccess.find? d = none

/-- **Every pass spares what was spared.** -/
theorem Spared.run (H : Spared g d) : Spared (pass.run s g).graph d where
  coherent := Pass.coherent_run H.coherent
  retained hd := by
    have hlives : Outlives g (pass.run s g).graph := Pass.evolves_run.outlives H.coherent
    exact hlives.marked .retained d hd (H.retained (hlives.live hd))
  ignored hd := by
    have hlives : Outlives g (pass.run s g).graph := Pass.evolves_run.outlives H.coherent
    exact hlives.marked .ignored d hd (H.ignored (hlives.live hd))
  proto := by
    have hresults : Evolves pass.MayDo g (pass.run s g).graph := Pass.evolves_run
    rcases (hresults.results H.coherent).1 with he | rfl
    · rw [he]
      exact H.proto
    · exact (RedundantProtocols.find?_markRedundant H.retained).trans H.proto
  tier := by
    have hresults : Evolves pass.MayDo g (pass.run s g).graph := Pass.evolves_run
    rcases (hresults.results H.coherent).2 with he | hjudges
    · rw [he]
      exact H.tier
    · refine Eq.trans ?_ H.tier
      cases pass with
      | redundantPublic =>
          simp only [Pass.run, RedundantAccess.markPublic]
          split
          · rfl
          · exact RedundantAccess.find?_judge H.retained
      | redundantInternal | redundantFileprivate => exact RedundantAccess.find?_judge H.retained
      | _ => cases hjudges

theorem Pass.all_cut_directives :
    Pass.all = [.unusedImports] ++ .directives :: Pass.all.drop 2 := rfl

/-- By the time directives are obeyed only imports were looked at. -/
theorem same_whenStarts_directives : (whenStarts s g .directives).declarations = g.declarations ∧
    (whenStarts s g .directives).files = g.files := by
  rw [whenStarts_eq Pass.all_cut_directives rfl (by decide)]
  refine runPasses_keeps (P := fun k => k.declarations = g.declarations ∧ k.files = g.files)
    (fun k p hp hk => ?_) ⟨rfl, rfl⟩
  obtain rfl := List.mem_singleton.1 (List.mem_filter.1 hp).1
  exact List.foldlRecOn (motive := fun l : Graph => l.declarations = g.declarations ∧
    l.files = g.files) _ _ hk fun _ hl _ _ => hl

/-- So directives address what they addressed. -/
theorem addressed_whenStarts_directives (ha : g.Addressed a) (hup : g.EnclosedBy d a) :
    (whenStarts s g .directives).Addressed a ∧ (whenStarts s g .directives).EnclosedBy d a := by
  have hsame := same_whenStarts_directives (s := s) (g := g)
  generalize whenStarts s g .directives = k at hsame
  have hdeclaration : ∀ c, k.declaration? c = g.declaration? c := fun c => by
    rw [declaration?, hsame.1, declaration?]
  constructor
  · obtain ⟨x, hx, hdirective⟩ := ha
    refine ⟨x, (hdeclaration a).trans hx, hdirective.imp_right fun hfile => ?_⟩
    rwa [Directives.isInIgnoredFile, file?, hsame.2]
  · have hids : g.declIds ⊆ k.declIds := fun c hc => by
      rwa [mem_declIds, hasDeclaration, hdeclaration, ← hasDeclaration, ← mem_declIds]
    refine Reaches.imp (fun c p hp => ?_) hids hup
    rwa [parentOf?, hdeclaration]

/-- Nothing is judged by then. -/
theorem unjudged_whenStarts_directives (hg : g.Ingested) :
    (whenStarts s g .directives).redundantProtocols = ∅ ∧
      (whenStarts s g .directives).redundantAccess = ∅ := by
  rw [whenStarts_eq Pass.all_cut_directives rfl (by decide)]
  obtain ⟨hprotocols, haccess⟩ := results_runPasses (s := s) hg.reachable.consistent
    fun p (hp : p ∈ enabled s [.unusedImports]) => by
      obtain rfl := List.mem_singleton.1 (List.mem_filter.1 hp).1
      exact ⟨by decide, rfl⟩
  rw [hprotocols, haccess]
  exact ⟨congrArg Notes.redundantProtocols hg.unjudged, congrArg Notes.redundantAccess hg.unjudged⟩

/-- What a directive addresses, and everything inside it, is spared from then on. -/
theorem spared_directives (hg : g.Ingested) (ha : g.Addressed a) (hup : g.EnclosedBy d a) :
    Spared (Pass.directives.run s (whenStarts s g .directives)).graph d := by
  have hk : (whenStarts s g .directives).Consistent :=
    coherent_runPasses hg.reachable.consistent
  obtain ⟨haddressed, henclosed⟩ := addressed_whenStarts_directives (s := s) ha hup
  obtain ⟨hprotocols, haccess⟩ := unjudged_whenStarts_directives hg (s := s)
  generalize whenStarts s g .directives = k at hk haddressed henclosed hprotocols haccess ⊢
  obtain ⟨hretained, hignored⟩ := Directives.marks_obey hk.toNested haddressed henclosed
  have H : Evolves Pass.directives.MayDo k (Pass.directives.run s k).graph := Pass.evolves_run
  refine ⟨Pass.coherent_run hk, fun _ => hretained, fun _ => hignored, ?_, ?_⟩
  · rw [(H.results hk).1.resolve_right (by decide), hprotocols]
    rfl
  · rw [(H.results hk).2.resolve_right (by decide), haccess]
    rfl

/-! ## The search -/

/-- What is ignored when the search starts is retained: so far only directives ignore anything. -/
theorem isRetained_of_isIgnored_whenStarts (hg : g.Ingested)
    (hd : (whenStarts s g .reachability).isIgnored d = true) :
    (whenStarts s g .reachability).isRetained d = true := by
  rw [whenStarts_eq Pass.all_cut_reachability rfl (by decide)] at hd ⊢
  refine (runPasses_keeps (P := fun k => k.Consistent ∧ ∀ d, k.isIgnored d = true →
    k.isRetained d = true) (fun k p hp H => ?_) ⟨hg.reachable.consistent, fun d hd => ?_⟩).2 d hd
  · have hcase : ∀ p ∈ Pass.preparing ++ [.protocolExtensions, .conformances, .overrides] ++
        Pass.completing, p = .directives ∨ Mark.ignored ∉ p.puts := by decide
    refine ⟨Pass.coherent_run H.1, fun d hd => ?_⟩
    have hlive : (p.run s k).graph.hasDeclaration d = true :=
      (Pass.coherent_run H.1).marked_live .ignored d (isMarked_iff.1 hd)
    rcases hcase p (List.mem_filter.1 hp).1 with rfl | hnot
    · by_cases hold : k.isIgnored d = true
      · exact (Pass.evolves_run.outlives H.1).marked .retained d hlive (H.2 d hold)
      · -- the pass retains what it ignores
        exact (Directives.isRetained_of_isIgnored_obey hd).resolve_right hold
    · have hold : k.isMarked .ignored d = true :=
        Pass.evolves_run.isMarked_of_not_puts H.1 hnot hd
      exact (Pass.evolves_run.outlives H.1).marked .retained d hlive (H.2 d hold)
  · rw [isIgnored, isMarked_iff, hg.marks] at hd
    cases hd

/-! ## The end -/

/-- `LeftAlone s h d`: an analysis with the settings `s` that left `h` behind has left `d` alone. -/
structure LeftAlone (s : Settings) (h : Graph) (d : DeclId) : Prop where
  retained : h.isRetained d = true
  used : h.isUsed d = true
  ignored : h.isIgnored d = true
  unreported : d ∉ h.unusedDeclarations
  proto : d ∉ h.redundantProtocols.keys
  tier : d ∉ h.redundantAccess.keys
  /-- There is no finding about it, as an unused parameter or otherwise. -/
  untold : ∀ f, ¬ Finding.Tells s h f d
  /-- Every finding is about an import or about something else. -/
  findings : ∀ f ∈ Finding.collect s h, f ∈ Finding.unusedImports h ∨ ∃ c ≠ d, Finding.Tells s h f c

/-- **Directives are absolute.**  What a directive addresses, and everything inside it, is left alone by
an analysis that goes through. -/
theorem leftAlone_of_addressed (hg : g.Ingested) (hs : s.report.showIgnored = false)
    (hnone : (analyse s g).failure = none) (ha : g.Addressed a) (hup : a = d ∨ a ∈ g.ancestors d)
    (hlive : (analyse s g).graph.hasDeclaration d = true) : LeftAlone s (analyse s g).graph d := by
  have hc : g.Consistent := hg.reachable.consistent
  have hold : g.hasDeclaration d = true :=
    Outlives.live (outlives_runPasses hc : Outlives g (analyse s g).graph) hlive
  have hend : Spared (analyse s g).graph d := by
    obtain ⟨-, -, -, he⟩ := analyse_cut Pass.all_cut_directives rfl (by decide) hnone
    rw [he]
    exact runPasses_keeps (P := (Spared · d)) (fun _ _ _ H => H.run)
      (spared_directives hg ha ((enclosedBy_iff hold).2 hup))
  have hretained := hend.retained hlive
  have hused := isUsed_of_isRetained_analyse hc hnone hlive hretained
  have hunreported : d ∉ (analyse s g).graph.unusedDeclarations := by
    intro hmem
    have hok := (List.mem_filter.1 (mem_sortedDeclarations.1 hmem).1).2
    rw [hused] at hok
    cases hok
  have huntold : ∀ f, ¬ Finding.Tells s (analyse s g).graph f d := by
    intro f hf
    cases hf with
    | unused hd => exact hunreported hd
    | parameter _ _ _ _ _ hr => rw [hretained] at hr; cases hr
    | proto hd => rw [hend.proto] at hd; cases hd
    | tier hd => rw [hend.tier] at hd; cases hd
    | suppressed hon => rw [hs] at hon; cases hon
  refine ⟨hretained, hused, hend.ignored hlive, hunreported, ?_, ?_, huntold, fun f hf => ?_⟩
  · rw [SortedMap.mem_keys_iff, hend.proto]
    simp
  · rw [SortedMap.mem_keys_iff, hend.tier]
    simp
  · refine (Finding.mem_collect_iff.1 hf).2.imp_right ?_
    rintro ⟨c, hc⟩
    refine ⟨c, ?_, hc⟩
    rintro rfl
    exact huntold f hc

/-- A struct, and an extension of it with a directive, in which there is a method with a parameter
that it does not use. -/
def ignoredExtension : Document :=
  { fragments := [
      { file := { path := ⟨"a.swift"⟩, modules := .singleton "App" }
        declarations := [
          { kind := .structType, usrs := ["S"], name := some "S", line := 1 },
          { kind := .structExtension, usrs := ["S+"], name := some "S", line := 4
            comments := ["swiftdeadcode:ignore"]
            declarations := [
              { kind := .instanceMethod, usrs := ["S.f"], name := some "f(x:)", line := 5
                unusedParameters := [
                  { kind := .parameter, usrs := ["S.f.x"], name := some "x", line := 5, column := 8 }] }]
            references := [{ kind := .structType, usr := "S", line := 4, role := .extendedType }] }] }] }

/-- The extension is folded, and the method and its parameter are left alone. -/
theorem leftAlone_of_addressed_ignoredExtension :
    (analyse {} (ofDocument ignoredExtension).1).graph.hasDeclaration ⟨1⟩ = false ∧
      LeftAlone {} (analyse {} (ofDocument ignoredExtension).1).graph ⟨2⟩ ∧
      LeftAlone {} (analyse {} (ofDocument ignoredExtension).1).graph ⟨3⟩ := by
  have hingested : (ofDocument ignoredExtension).1.Ingested := Ingested.empty.ingest ignoredExtension
  have hrun : (analyse {} (ofDocument ignoredExtension).1).failure = none ∧
      (analyse {} (ofDocument ignoredExtension).1).graph.hasDeclaration ⟨1⟩ = false ∧
      (analyse {} (ofDocument ignoredExtension).1).graph.hasDeclaration ⟨2⟩ = true ∧
      (analyse {} (ofDocument ignoredExtension).1).graph.hasDeclaration ⟨3⟩ = true := by
    decide +kernel
  have haddressed : (ofDocument ignoredExtension).1.Addressed ⟨1⟩ := by
    have hany : ((ofDocument ignoredExtension).1.declaration? ⟨1⟩).any
        (·.directives.contains .ignore) = true := by decide +kernel
    obtain ⟨x, hx, hdirective⟩ := (Option.any_eq_true _ _).1 hany
    exact ⟨x, hx, .inl hdirective⟩
  exact ⟨hrun.2.1,
    leftAlone_of_addressed hingested rfl hrun.1 haddressed (.inr (by decide +kernel)) hrun.2.2.1,
    leftAlone_of_addressed hingested rfl hrun.1 haddressed (.inr (by decide +kernel)) hrun.2.2.2⟩

end Deadwood

/-
  Signatures and redundant public tiers.

  1. **What is recorded (`recordedPublic_analyse_iff`)** — in terms of the graph that an analysis leaves:
     the results about tiers do not change what they were found from.

  2. **Owners (`judgedApart_analyse`)** — something recorded as needlessly public stands in no signature
     of an exposed declaration that is retained or that another module uses.  But an owner of such a
     signature may have to stay public for another reason, and nothing asks for it: the owner is recorded
     as well exactly if none of these reasons applies to it (`Narrowable`).

  3. **Not all together (`recordedAlone_baseAndSubclass`)** — so a base class is recorded although its
     subclass stays public.
-/
import Deadwood.Proofs.Access.Course
import Deadwood.Proofs.ReferenceForest

namespace Deadwood

open Deadwood.Graph RedundantAccess

variable {s : Settings} {g : Graph} {c d o : DeclId}

/-! ## What is recorded -/

/-- The public tier of a declaration was found needless. -/
def Graph.RecordedPublic (g : Graph) (d : DeclId) : Prop :=
  ∃ e, g.redundantAccess.find? d = some e ∧ e.declared = .publicTier

/-- **What is recorded is what is suggested in the end.** -/
theorem recordedPublic_analyse_iff (hg : g.Ingested) (hnone : (analyse s g).failure = none) :
    (analyse s g).graph.RecordedPublic d ↔
      (s.detection.redundantPublic = true ∧ s.retainPublic = false) ∧
        ∃ t, sentence? .publicTier suggestForPublic sameModules (analyse s g).graph d = some t := by
  obtain ⟨m, hm, hfind⟩ := (analyse_tiers hg).2 hnone
  have hsentence : sentence? .publicTier suggestForPublic sameModules (analyse s g).graph d =
      sentence? .publicTier suggestForPublic sameModules (whenJudged s g) d := by
    rw [hm]
    exact sentence?_withResults (fun _ => suggestForPublic_withResults) fun _ _ => rfl
  have hrecorded : (analyse s g).graph.RecordedPublic d ↔
      ∃ e, m.find? d = some e ∧ e.declared = .publicTier := by
    rw [hm]
    rfl
  rw [hrecorded, hsentence]
  constructor
  · rintro ⟨e, he, hdeclared⟩
    obtain ⟨p, hp, hverdict⟩ := (hfind d e).1 he
    have htier := (Pass.narrows_of_verdict? hverdict).1
    rw [hdeclared] at htier
    obtain rfl : p = .redundantPublic := Pass.eq_of_tier? htier rfl
    obtain ⟨hretain, hverdict⟩ := Option.ite_none_left_eq_some.1 hverdict
    obtain ⟨t, ht, -⟩ := Option.bind_eq_some_iff.1 hverdict
    exact ⟨⟨(List.mem_filter.1 hp).2, Bool.not_eq_true _ ▸ hretain⟩, t, ht⟩
  · rintro ⟨⟨hon, hretain⟩, t, ht⟩
    obtain ⟨x, hx, -⟩ := access_of_mem_candidates (exists_suggest_of_sentence? ht).1
    have hverdict : Pass.redundantPublic.verdict? s (whenJudged s g) d = some ⟨.publicTier, t,
        (whenJudged s g).modulesOf x.location.file, x.location.file⟩ := by
      rw [Pass.verdict?, hretain, if_neg Bool.false_ne_true, ht, Option.bind_some, entryOf?, hx]
      rfl
    exact ⟨_, (hfind d _).2 ⟨.redundantPublic, List.mem_filter.2 ⟨List.mem_cons_self, hon⟩, hverdict⟩,
      rfl⟩

/-! ## Owners of signatures -/

/-- `Exposes g o d`: a reference of the used declaration `o`, which other modules can see, names `d` in
a signature. -/
structure Graph.Exposes (g : Graph) (o d : DeclId) : Prop where
  ne : o ≠ d
  used : g.isUsed o = true
  exposed : ∃ x, g.declaration? o = some x ∧ x.access.tier.isExposed = true
  signature : ∃ r ∈ g.referencesFrom o, (∃ x, g.reference? r = some x ∧ x.role.isSignature = true) ∧
    g.Names r d

theorem RedundantAccess.isInExposedSignature_iff (hg : g.Owned) : isInExposedSignature g d = true ↔
    ∃ o, (o ≠ d ∧ (∃ x, g.declaration? o = some x ∧ x.access.tier.isExposed = true) ∧
      ∃ r ∈ g.referencesFrom o, (∃ x, g.reference? r = some x ∧ x.role.isSignature = true) ∧
        g.Names r d) ∧ (g.isRetained o = true ∨ isUsedCrossModule g o = true) := by
  simp only [isInExposedSignature, List.any_eq_true, Bool.and_eq_true, Option.any_eq_true,
    hg.mem_referencesTo, hg.referencingDeclaration?_eq_some_iff, decide_eq_true_eq, Bool.or_eq_true]
  constructor
  · rintro ⟨r, hr, hsignature, o, ho, ⟨hexposed, hne⟩, hneeds⟩
    exact ⟨o, ⟨hne, hexposed, r, ho, hsignature, hr⟩, hneeds⟩
  · rintro ⟨o, ⟨hne, hexposed, r, ho, hsignature, hr⟩, hneeds⟩
    exact ⟨r, hr, hsignature, o, ho, ⟨hexposed, hne⟩, hneeds⟩

/-- What lets a public tier go, where neither settings nor other modules need it. -/
structure Graph.Narrowable (g : Graph) (o : DeclId) : Prop where
  written : ∃ x, g.declaration? o = some x ∧ x.access = ⟨.publicTier, true⟩ ∧ x.isImplicit = false
  unignored : g.isIgnored o = false
  /-- An extension follows what it extends. -/
  extension : isExtension g o = true → ∃ target, g.extendedDeclaration o = .ok (some target) ∧
    isExtension g target = false ∧ g.RecordedPublic target ∧ sameModules g o target = true
  /-- Anything else is not taken over into other modules, satisfies no requirement of a public protocol,
  is no member of a property wrapper, and stands in no signature that other modules need. -/
  unbound : isExtension g o = false → hasInlinableCaller g o = false ∧
    isBound g o .publicTier = false ∧ isInExposedSignature g o = false

/-- `JudgedApart g`: how the verdicts about needlessly public declarations hang together. -/
structure Graph.JudgedApart (g : Graph) : Prop where
  /-- No owner of a signature that exposes it is retained or used by another module. -/
  unneeded : ∀ d o, g.RecordedPublic d → isExtension g d = false → g.Exposes o d →
    g.isRetained o = false ∧ isUsedCrossModule g o = false
  /-- Such an owner is recorded itself exactly if nothing else binds it. -/
  owner : ∀ d o, g.RecordedPublic d → isExtension g d = false → g.Exposes o d →
    (g.RecordedPublic o ↔ g.Narrowable o)
  /-- An extension is recorded where what it extends is, whatever exposes the extension. -/
  follows : ∀ d, g.RecordedPublic d → isExtension g d = true → ∃ target,
    g.extendedDeclaration d = .ok (some target) ∧ isExtension g target = false ∧
      g.RecordedPublic target ∧ sameModules g d target = true

theorem RedundantAccess.mem_candidates_iff {tier : Tier} : d ∈ candidates g tier ↔
    (∃ x, g.declaration? d = some x ∧ x.access = ⟨tier, true⟩ ∧ x.isImplicit = false) ∧
      g.isUsed d = true ∧ g.isRetained d = false ∧ g.isIgnored d = false := by
  simp only [candidates, mem_sortedDeclarations, List.mem_filter, mem_declIdsWhere, Bool.and_eq_true,
    Bool.not_eq_true', Access.isWritten, beq_iff_eq, and_assoc]
  constructor
  · rintro ⟨⟨x, hx, hwritten, htier, himplicit⟩, hused, hretained, hignored, -⟩
    refine ⟨⟨x, hx, ?_, himplicit⟩, hused, hretained, hignored⟩
    rw [← htier, ← hwritten]
  · rintro ⟨⟨x, hx, haccess, himplicit⟩, hused, hretained, hignored⟩
    refine ⟨⟨x, hx, ?_, ?_, himplicit⟩, hused, hretained, hignored, hasDeclaration_of_eq hx⟩
    · rw [haccess]
    · rw [haccess]

theorem RedundantAccess.exists_suggestForPublic_iff : (∃ t, suggestForPublic g d = some t) ↔
    isUsedCrossModule g d = false ∧ hasInlinableCaller g d = false ∧
      isBound g d .publicTier = false ∧ isInExposedSignature g d = false := by
  simp only [suggestForPublic, Option.ite_none_right_eq_some, Bool.and_eq_true, Bool.not_eq_true',
    and_assoc]
  constructor
  · rintro ⟨t, hcross, hinlined, hbound, hexposed, -⟩
    exact ⟨hcross, hinlined, hbound, hexposed⟩
  · rintro ⟨hcross, hinlined, hbound, hexposed⟩
    exact ⟨_, hcross, hinlined, hbound, hexposed, rfl⟩

namespace Graph

/-- `PubliclyJudged g`: the needlessly public declarations of `g` are those for which a narrower tier is
suggested. -/
def PubliclyJudged (g : Graph) : Prop := ∀ d, g.RecordedPublic d ↔
  ∃ t, sentence? .publicTier suggestForPublic sameModules g d = some t

namespace PubliclyJudged

variable (H : g.PubliclyJudged)

include H

theorem recorded_iff (hd : isExtension g d = false) : g.RecordedPublic d ↔
    d ∈ candidates g .publicTier ∧ ∃ t, suggestForPublic g d = some t := by
  simp only [H d, sentence?, hd, Bool.false_eq_true, and_false, if_false, ownTier?, and_true,
    Option.ite_none_right_eq_some, exists_and_left]

/-- An extension is recorded with what it extends. -/
theorem recorded_extension_iff (hd : isExtension g d = true) : g.RecordedPublic d ↔
    d ∈ candidates g .publicTier ∧ ∃ target, g.extendedDeclaration d = .ok (some target) ∧
      isExtension g target = false ∧ g.RecordedPublic target ∧ sameModules g d target = true := by
  have hown : ∀ target, (∃ t, ownTier? .publicTier suggestForPublic g target = some t) ↔
      isExtension g target = false ∧ g.RecordedPublic target := by
    intro target
    simp only [ownTier?, Option.ite_none_right_eq_some, exists_and_left]
    constructor
    · rintro ⟨⟨hmem, hext⟩, ht⟩
      exact ⟨hext, (H.recorded_iff hext).2 ⟨hmem, ht⟩⟩
    · rintro ⟨hext, hrecorded⟩
      obtain ⟨hmem, ht⟩ := (H.recorded_iff hext).1 hrecorded
      exact ⟨⟨hmem, hext⟩, ht⟩
  rw [H d]
  by_cases hmem : d ∈ candidates g .publicTier
  · have htaken : sentence? .publicTier suggestForPublic sameModules g d =
        takenOver? .publicTier suggestForPublic sameModules g d := if_pos ⟨hmem, hd⟩
    rw [htaken, and_iff_right hmem, takenOver?]
    constructor
    · rintro ⟨t, ht⟩
      split at ht
      · rename_i target htarget
        obtain ⟨hscope, ht⟩ := Option.ite_none_right_eq_some.1 ht
        obtain ⟨hext, hrecorded⟩ := (hown target).1 ⟨t, ht⟩
        exact ⟨target, htarget, hext, hrecorded, hscope⟩
      · cases ht
    · rintro ⟨target, htarget, hext, hrecorded, hscope⟩
      rw [htarget]
      simp only [hscope, if_true]
      exact (hown target).2 ⟨hext, hrecorded⟩
  · have hnothing : sentence? .publicTier suggestForPublic sameModules g d = none := by
      simp [sentence?, ownTier?, hmem]
    rw [hnothing]
    refine iff_of_false ?_ fun h => hmem h.1
    rintro ⟨t, ht⟩
    cases ht

/-- **How the verdicts hang together.** -/
theorem judgedApart (hg : g.Owned) : g.JudgedApart := by
  have hunneeded : ∀ d o, g.RecordedPublic d → isExtension g d = false → g.Exposes o d →
      g.isRetained o = false ∧ isUsedCrossModule g o = false := by
    intro d o hd hext ho
    obtain ⟨-, -, -, hunexposed⟩ := exists_suggestForPublic_iff.1 ((H.recorded_iff hext).1 hd).2
    have hnot := (isInExposedSignature_iff hg).not.1 (Bool.eq_false_iff.1 hunexposed)
    rw [← Bool.not_eq_true, ← Bool.not_eq_true, ← not_or]
    exact fun hneeds => hnot ⟨o, ⟨ho.ne, ho.exposed, ho.signature⟩, hneeds⟩
  refine ⟨hunneeded, fun d o hd hext ho => ?_, fun d hd hext => ?_⟩
  · obtain ⟨hretained, hcross⟩ := hunneeded d o hd hext ho
    cases hkind : isExtension g o with
    | false =>
        have hnot : ¬ isExtension g o = true := Bool.eq_false_iff.1 hkind
        rw [H.recorded_iff hkind, mem_candidates_iff, exists_suggestForPublic_iff]
        constructor
        · rintro ⟨⟨hwritten, -, -, hignored⟩, -, hunbound⟩
          exact ⟨hwritten, hignored, fun h => absurd h hnot, fun _ => hunbound⟩
        · intro h
          exact ⟨⟨h.written, ho.used, hretained, h.unignored⟩, hcross, h.unbound hkind⟩
    | true =>
        have hnot : ¬ isExtension g o = false := by rw [hkind]; decide
        rw [H.recorded_extension_iff hkind, mem_candidates_iff]
        constructor
        · rintro ⟨⟨hwritten, -, -, hignored⟩, htarget⟩
          exact ⟨hwritten, hignored, fun _ => htarget, fun h => absurd h hnot⟩
        · intro h
          exact ⟨⟨h.written, ho.used, hretained, h.unignored⟩, h.extension hkind⟩
  · exact ((H.recorded_extension_iff hext).1 hd).2

end PubliclyJudged

end Graph

/-- **Which owners of a signature are recorded with what they expose.** -/
theorem judgedApart_analyse (hg : g.Ingested) (hnone : (analyse s g).failure = none) :
    (analyse s g).graph.JudgedApart := by
  have hc : (analyse s g).graph.Owned := (coherent_runPasses hg.reachable.consistent).toOwned
  by_cases hon : s.detection.redundantPublic = true ∧ s.retainPublic = false
  · refine PubliclyJudged.judgedApart (fun d => ?_) hc
    rw [recordedPublic_analyse_iff hg hnone, and_iff_right hon]
  · -- nothing is recorded, so there is nothing to show
    have hnothing : ∀ d, ¬ (analyse s g).graph.RecordedPublic d := fun d hd =>
      hon ((recordedPublic_analyse_iff hg hnone).1 hd).1
    exact ⟨fun d _ hd => absurd hd (hnothing d), fun d _ hd => absurd hd (hnothing d),
      fun d hd => absurd hd (hnothing d)⟩

/-! ## Not all together -/

theorem Graph.recordedPublic_of_any
    (hd : (g.redundantAccess.find? d).any (·.declared == .publicTier) = true) : g.RecordedPublic d := by
  obtain ⟨e, he, hdeclared⟩ := (Option.any_eq_true _ _).1 hd
  exact ⟨e, he, beq_iff_eq.1 hdeclared⟩

theorem Graph.exposes_of_any {r : RefId} (hg : g.Owned) (hne : o ≠ d)
    (ho : g.isUsed o = true ∧ (g.declaration? o).any (·.access.tier.isExposed) = true ∧
      r ∈ g.referencesFrom o ∧ (g.reference? r).any (·.role.isSignature) = true ∧
      r ∈ g.referencesTo d) : g.Exposes o d := by
  obtain ⟨hused, hexposed, hfrom, hsignature, hto⟩ := ho
  exact ⟨hne, hused, (Option.any_eq_true _ _).1 hexposed, r, hfrom,
    (Option.any_eq_true _ _).1 hsignature, hg.mem_referencesTo.1 hto⟩

/-- A public class with a subclass and other declarations; the subclass is used in the module, and a
function of it in another one. -/
def baseAndSubclass (subclass : Tier) (others : List DeclarationNode) : Document :=
  { fragments := [
      { file := { path := ⟨"Kit.swift"⟩, modules := .singleton "Kit" }
        declarations := [
          { kind := .classType, usrs := ["Base"], line := 1, accessibility := some .publicTier },
          { kind := .classType, usrs := ["Sub"], line := 3, accessibility := some subclass
            related := [{ kind := .classType, usr := "Base", line := 3, role := .inheritedType }] }] ++
          others
        references := [{ kind := .classType, usr := "Sub", line := 9 }] },
      { file := { path := ⟨"App.swift"⟩, modules := .singleton "App" }
        references := [{ kind := .freeFunction, usr := "make", line := 2 }] }] }

/-- A public function that returns the subclass. -/
def factory : DeclarationNode :=
  { kind := .freeFunction, usrs := ["make"], line := 5, accessibility := some .publicTier
    references := [{ kind := .classType, usr := "Sub", line := 5, role := .returnType }] }

/-- Where no other module sees either of the classes, both are recorded. -/
theorem judgedApart_analyse_baseAndSubclass :
    let h := (analyse {} (Graph.ofDocument (baseAndSubclass .publicTier [])).1).graph
    h.JudgedApart ∧ h.RecordedPublic ⟨0⟩ ∧ h.Exposes ⟨1⟩ ⟨0⟩ ∧ h.Narrowable ⟨1⟩ := by
  intro h
  have hg := Graph.Ingested.empty.ingest (baseAndSubclass .publicTier [])
  have howned : h.Owned := (coherent_runPasses hg.reachable.consistent).toOwned
  have hrun : (analyse {} (Graph.ofDocument (baseAndSubclass .publicTier [])).1).failure = none ∧
      (h.redundantAccess.find? ⟨0⟩).any (·.declared == .publicTier) = true ∧
      (h.redundantAccess.find? ⟨1⟩).any (·.declared == .publicTier) = true ∧
      isExtension h ⟨0⟩ = false ∧
      h.isUsed ⟨1⟩ = true ∧ (h.declaration? ⟨1⟩).any (·.access.tier.isExposed) = true ∧
      ⟨0⟩ ∈ h.referencesFrom ⟨1⟩ ∧ (h.reference? ⟨0⟩).any (·.role.isSignature) = true ∧
      ⟨0⟩ ∈ h.referencesTo ⟨0⟩ := by decide +kernel
  obtain ⟨hnone, hbase, hsub, hplain, hexposes⟩ := hrun
  have H : h.JudgedApart := judgedApart_analyse hg hnone
  have hexposes : h.Exposes ⟨1⟩ ⟨0⟩ := exposes_of_any howned (by decide) hexposes
  have hbase := recordedPublic_of_any hbase
  exact ⟨H, hbase, hexposes, (H.owner _ _ hbase hplain hexposes).1 (recordedPublic_of_any hsub)⟩

/-- `RecordedAlone g o d`: the public tier of `d` was found needless, and the one of `o`, which exposes
it, was not. -/
structure Graph.RecordedAlone (g : Graph) (o d : DeclId) : Prop where
  recorded : g.RecordedPublic d
  exposes : g.Exposes o d
  alone : ¬ g.RecordedPublic o

theorem Graph.recordedAlone_of_any {r : RefId} (hg : g.Owned) (hne : o ≠ d)
    (hall : (g.redundantAccess.find? d).any (·.declared == .publicTier) = true ∧
      g.redundantAccess.find? o = none ∧ g.isUsed o = true ∧
      (g.declaration? o).any (·.access.tier.isExposed) = true ∧ r ∈ g.referencesFrom o ∧
      (g.reference? r).any (·.role.isSignature) = true ∧ r ∈ g.referencesTo d) :
    g.RecordedAlone o d := by
  obtain ⟨hd, ho, hexposes⟩ := hall
  refine ⟨recordedPublic_of_any hd, exposes_of_any hg hne hexposes, ?_⟩
  rintro ⟨e, he, -⟩
  rw [ho] at he
  cases he

/-- **The base class is recorded and the subclass is not**: where the subclass is in the signature of a
function that another module calls, and where it is open. -/
theorem recordedAlone_baseAndSubclass :
    (analyse {} (Graph.ofDocument (baseAndSubclass .publicTier [factory])).1).failure = none ∧
    (analyse {} (Graph.ofDocument (baseAndSubclass .publicTier [factory])).1).graph.RecordedAlone
      ⟨1⟩ ⟨0⟩ ∧
    (analyse {} (Graph.ofDocument (baseAndSubclass .openTier [])).1).failure = none ∧
    (analyse {} (Graph.ofDocument (baseAndSubclass .openTier [])).1).graph.RecordedAlone ⟨1⟩ ⟨0⟩ := by
  have howned : ∀ doc, (analyse {} (Graph.ofDocument doc).1).graph.Owned := fun doc =>
    (coherent_runPasses (Graph.Ingested.empty.ingest doc).reachable.consistent).toOwned
  refine ⟨by decide +kernel, ?_, by decide +kernel, ?_⟩
  · exact recordedAlone_of_any (r := ⟨0⟩) (howned _) (by decide) (by decide +kernel)
  · exact recordedAlone_of_any (r := ⟨0⟩) (howned _) (by decide) (by decide +kernel)

end Deadwood

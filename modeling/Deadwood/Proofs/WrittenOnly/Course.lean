/-
  Properties that are only written, to the end of an analysis.

  1. **After the search** — the passes that judge change no declaration and no reference
     (`entries_runPasses_judging`), so what nothing names when the search starts nothing names in the
     end.

  2. **The search (`isUsed_markUsed_iff_of_unnamed`)** — something that nothing names is used because it
     is retained, or because an accessor of it is used.  A property that was found is not retained, and
     nothing names its accessors either.  So it stays unused, unless one of them is retained or encloses
     a used accessor itself.

  3. **Reports (`told_iff`)** — such a property is never reported as unused.  It is reported as only
     written when it is unused, written in the source, not ignored, and in a file that is reported.

  4. **Limits (`not_settled_observers`)** — the writes and reads of a property are those of its members.
     An accessor in an accessor is no member of it, and keeps it alive; an unused parameter listed with
     it may still be named.
-/
import Deadwood.Proofs.Access.Verdicts
import Deadwood.Proofs.DeadConformers
import Deadwood.Proofs.Parameters
import Deadwood.Proofs.RedundantProtocols
import Deadwood.Proofs.Report.Telling
import Deadwood.Proofs.Retaining.Settings
import Deadwood.Proofs.WrittenOnly.Elimination

namespace Deadwood

open Deadwood.Graph AssignOnly Reachability

variable {g h k : Graph} {a b c d p : DeclId} {r : RefId} {s : Settings} {named : Prop}

/-! ## After the search -/

/-- The passes after the search change neither declarations nor references. -/
theorem entries_runPasses_judging :
    (runPasses s g (enabled s Pass.judging)).graph.declarations = g.declarations ∧
      (runPasses s g (enabled s Pass.judging)).graph.references = g.references := by
  refine runPasses_keeps
    (P := fun k => k.declarations = g.declarations ∧ k.references = g.references)
    (fun k pass hmem hk => ?_) ⟨rfl, rfl⟩
  have hcase : ∀ p ∈ Pass.judging, p = .redundantProtocols ∨ p = .redundantPublic ∨
      p = .redundantInternal ∨ p = .redundantFileprivate := by decide
  have haccess : ∀ declared suggest sameScope,
      (RedundantAccess.judge k declared suggest sameScope).graph.declarations = g.declarations ∧
        (RedundantAccess.judge k declared suggest sameScope).graph.references = g.references := by
    intro declared suggest sameScope
    obtain ⟨m, hm, -⟩ := RedundantAccess.exists_judge (g := k) declared suggest sameScope
    rw [hm]
    exact hk
  rcases hcase pass (List.mem_filter.1 hmem).1 with rfl | rfl | rfl | rfl
  · rw [Pass.run, RedundantProtocols.markRedundant_eq]
    exact hk
  · rw [Pass.run, RedundantAccess.markPublic]
    split
    · exact hk
    · exact haccess ..
  · exact haccess ..
  · exact haccess ..

/-! ## The search -/

/-- `AccessorOf g p a`: `a` is an accessor of `p`. -/
def AccessorOf (g : Graph) (p a : DeclId) : Prop :=
  ∃ x, g.declaration? a = some x ∧ x.kind.isAccessor = true ∧ x.parent = some p

/-- **Why something is used that nothing names**: it is retained, or an accessor of it is used. -/
theorem Reachability.isUsed_markUsed_iff_of_unnamed (hg : g.Coherent named)
    (hnone : g.marks.used = ∅) (hc : g.hasDeclaration c = true) (hunnamed : ∀ r, ¬ g.Names r c) :
    (markUsed g).isUsed c = true ↔ g.isRetained c = true ∨ ∃ a, UsedAccessor (markUsed g) c a := by
  rw [isUsed_markUsed_iff hg hnone hc, isRetained_markUsed hg]
  refine or_congr_right (or_iff_right ?_)
  rintro ⟨r, -, hn⟩
  exact hunnamed r ((sparser_markUsed hg).names hn)

/-- The accessors of a property are members of it: unused parameters are parameters. -/
theorem AccessorOf.hasMember (hg : g.Nested) (hl : g.ListsParameters) (ha : AccessorOf g p a) :
    HasMember g p a := by
  obtain ⟨y, hy, hk, hparent⟩ := ha
  have hchild : a ∈ g.childrenOf p :=
    (hg.child_iff p a).2 (parentOf?_eq_some_iff.2 ⟨y, hy, hparent⟩)
  obtain ⟨x, hx, hmember | hparameter⟩ := mem_childrenOf_iff.1 hchild
  · exact ⟨x, y, hx, hmember, hy⟩
  · rw [(hl p x a hx hparameter).kind hy] at hk
    cases hk

theorem accessorOf_congr (hd : h.declarations = g.declarations) :
    AccessorOf h p a ↔ AccessorOf g p a := by
  unfold AccessorOf declaration?
  rw [hd]

/-- **Why a property is used that nothing names, nor a member of it.** -/
theorem Reachability.isUsed_markUsed_iff_of_silent (hg : g.Coherent named)
    (hl : g.ListsParameters) (hnone : g.marks.used = ∅) (hp : g.hasDeclaration p = true)
    (hfree : g.isRetained p = false) (hunnamed : ∀ r, ¬ g.Names r p)
    (hmembers : ∀ a, HasMember g p a → ∀ r, ¬ g.Names r a) :
    (markUsed g).isUsed p = true ↔ ∃ a, AccessorOf (markUsed g) p a ∧
      (g.isRetained a = true ∨ ∃ b, UsedAccessor (markUsed g) a b) := by
  rw [isUsed_markUsed_iff_of_unnamed hg hnone hp hunnamed, hfree]
  simp only [Bool.false_eq_true, false_or, UsedAccessor]
  refine exists_congr fun a => and_comm.trans (and_congr_right fun ha => ?_)
  -- an accessor of the property is a member of it, so nothing names it either
  have hlive : (markUsed g).hasDeclaration a = true := by
    obtain ⟨x, hx, -⟩ := ha
    exact hasDeclaration_of_eq hx
  rw [hasDeclaration_markUsed hg] at hlive
  have ha' : AccessorOf g p a := by
    obtain ⟨x, hx, hk, hparent⟩ := ha
    obtain ⟨y, hy, hs, hlinks⟩ := (sameOutline_markUsed hg).symm.exists_declaration hx
    exact ⟨y, hy, by rw [hs]; exact hk, (congrArg Prod.fst hlinks).trans hparent⟩
  exact isUsed_markUsed_iff_of_unnamed hg hnone hlive
    (hmembers a (ha'.hasMember hg.toNested hl))

/-! ## Properties that were found -/

/-- What was found is a property that is there and that nothing retains. -/
theorem AssignOnly.free_of_mem_found (hg : g.Owned) (hp : p ∈ found s g) :
    (∃ x, g.declaration? p = some x ∧ x.kind.isProperty = true) ∧ g.isRetained p = false := by
  obtain ⟨-, before, after, -, hturn⟩ := ((removesWrites_eliminate hg).found_iff p).1 hp
  obtain ⟨x, hx, hk, -⟩ := hturn.plain
  obtain ⟨y, hy, hs, -⟩ := (pared_foldl_eliminateOne hg before).sparser.outline.exists_declaration hx
  refine ⟨⟨y, hy, by rw [hs]; exact hk⟩, Bool.eq_false_iff.2 fun hr => ?_⟩
  have hkept : (before.foldl eliminateOne g).isRetained p = true :=
    (isMarked_foldl_eliminateOne hg).2 (.inl hr)
  rw [hturn.free] at hkept
  cases hkept

/-- Kinds of properties are reported where they are unused. -/
theorem Kind.isReported_of_isProperty {kind : Kind} (hk : kind.isProperty = true) :
    (!kind.isAccessor && !kind.isExtension && !Finding.unreportedKinds.contains kind) = true := by
  cases kind <;> first | rfl | exact absurd hk (by decide)

/-- `Struck s g p`: an analysis finds that the property is only written. -/
def Struck (s : Settings) (g : Graph) (p : DeclId) : Prop :=
  s.detection.assignOnlyProperties = true ∧ p ∈ found s (whenStarts s g .assignOnlyProperties)

theorem Pass.all_cut_assignOnlyProperties : Pass.all =
    (unconfigured ++ retaining) ++ .assignOnlyProperties :: ([] ++ .reachability :: judging) := rfl

/-- `EndsUnused s h p`: what is said in the end of a property that was found. -/
structure EndsUnused (s : Settings) (h : Graph) (p : DeclId) : Prop where
  property : ∃ x, h.declaration? p = some x ∧ x.kind.isProperty = true
  marked : h.isMarked .assignOnly p = true
  free : h.isRetained p = false
  /-- Nothing names it, or a member of it. -/
  unnamed : ∀ r, ¬ h.Names r p ∧ ∀ a, HasMember h p a → ¬ h.Names r a
  /-- It is used only through an accessor that is retained or encloses a used accessor. -/
  used_iff : h.isUsed p = true ↔
    ∃ a, AccessorOf h p a ∧ (h.isRetained a = true ∨ ∃ b, UsedAccessor h a b)
  /-- It is never reported as unused. -/
  not_unused : ∀ f, Finding.Tells s h f p → f.issue ≠ .unused
  /-- It is reported as only written when it is unused, not from the compiler, not ignored, and in a
  file that is not excluded. -/
  told_iff : ∀ x, h.declaration? p = some x →
    ((∃ f ∈ Finding.collect s h, Finding.Tells s h f p ∧ f.issue = .assignOnly) ↔
      h.isUsed p = false ∧ x.isImplicit = false ∧ h.isIgnored p = false ∧
        s.excludes x.location.file = false)

/-- What findings tell of a property that is marked and not retained. -/
theorem Finding.tells_assignOnly_iff {x : Declaration} (hx : g.declaration? p = some x)
    (hk : x.kind.isProperty = true) (hmarked : g.isMarked .assignOnly p = true)
    (hfree : g.isRetained p = false) :
    (∀ f, Finding.Tells s g f p → f.issue ≠ .unused) ∧
      ((∃ f ∈ Finding.collect s g, Finding.Tells s g f p ∧ f.issue = .assignOnly) ↔
        g.isUsed p = false ∧ x.isImplicit = false ∧ g.isIgnored p = false ∧
          s.excludes x.location.file = false) := by
  have hkind := Kind.isReported_of_isProperty hk
  constructor
  · intro f hf
    cases hf with
    | unused => rw [hmarked]; exact fun he => by cases he
    | parameter | proto => exact fun he => by cases he
    | tier _ _ hi => exact (Issue.ne_of_ofTier? hi).1
    | suppressed _ _ hr => rw [hfree] at hr; cases hr
  · constructor
    · rintro ⟨f, hf, htells, hissue⟩
      cases htells with
      | unused hd hy hr =>
          rw [hx] at hy
          cases hy
          have hmem := (mem_sortedDeclarations.1 hd).1
          simp only [List.mem_filter, Bool.and_eq_true, Bool.not_eq_true'] at hmem
          simp only [isReportable, Bool.and_eq_true, Bool.not_eq_true'] at hr
          exact ⟨hmem.2.1, hr.1.1.1.1, hmem.2.2, (mem_collect_iff.1 hf).1⟩
      | parameter | proto => cases hissue
      | tier _ _ hi => exact absurd hissue (Issue.ne_of_ofTier? hi).2
      | suppressed => cases hissue
    · rintro ⟨hunused, himplicit, hignored, hfile⟩
      have hd : p ∈ g.unusedDeclarations := by
        refine mem_sortedDeclarations.2 ⟨List.mem_filter.2 ⟨?_, ?_⟩, hasDeclaration_of_eq hx⟩
        · exact mem_declIds.2 (hasDeclaration_of_eq hx)
        · rw [hunused, hignored]
          rfl
      have hr : isReportable g p x = true := by
        simp only [isReportable, himplicit, hfree, Bool.not_false, Bool.true_and, Bool.and_true]
        exact hkind
      have htells := Tells.unused (s := s) hd hx hr
      rw [hmarked, if_pos rfl] at htells
      exact ⟨ofDeclaration x .assignOnly, mem_collect_iff.2 ⟨hfile, .inr ⟨p, htells⟩⟩, htells, rfl⟩

/-! ## The analysis -/

/-- **The marks for properties that are only written.** -/
theorem isMarked_assignOnly_analyse (hg : g.Coherent named) (hnone : (analyse s g).failure = none)
    (hlive : (analyse s g).graph.hasDeclaration p = true) :
    (analyse s g).graph.isMarked .assignOnly p = true ↔
      Struck s g p ∨ g.isMarked .assignOnly p = true := by
  -- a series of other passes leaves such marks alone
  have hkeeps : ∀ {k : Graph} {xs : List Pass}, k.Coherent named → .assignOnlyProperties ∉ xs →
      (runPasses s k xs).graph.hasDeclaration p = true →
      ((runPasses s k xs).graph.isMarked .assignOnly p = true ↔ k.isMarked .assignOnly p = true) := by
    intro k xs hk hxs hlive
    refine ⟨isMarked_of_runPasses hk fun q hq hputs => ?_, (outlives_runPasses hk).marked _ p hlive⟩
    exact hxs (Pass.eq_assignOnlyProperties_of_puts hputs ▸ hq)
  by_cases hon : s.detection.assignOnlyProperties = true
  · obtain ⟨-, -, -, hend⟩ :=
      analyse_cut Pass.all_cut_assignOnlyProperties hon (by decide) hnone
    have hk : (whenStarts s g .assignOnlyProperties).Coherent named := coherent_runPasses hg
    have he : (eliminate s (whenStarts s g .assignOnlyProperties)).Coherent named :=
      AssignOnly.evolves_eliminate.coherent hk
    have hafter : .assignOnlyProperties ∉ enabled s ([] ++ .reachability :: Pass.judging) := by
      intro hmem
      have hnot : .assignOnlyProperties ∉ ([] ++ .reachability :: Pass.judging : List Pass) := by
        decide
      exact hnot (List.mem_filter.1 hmem).1
    have hbefore : .assignOnlyProperties ∉
        (standardPasses s).takeWhile (· ≠ .assignOnlyProperties) := by
      intro hmem
      simpa using List.all_eq_true.1 List.all_takeWhile _ hmem
    have hlive' : (whenStarts s g .assignOnlyProperties).hasDeclaration p = true :=
      (outlives_whenStarts hg hnone).live hlive
    have hfirst : (whenStarts s g .assignOnlyProperties).isMarked .assignOnly p = true ↔
        g.isMarked .assignOnly p = true := hkeeps hg hbefore hlive'
    have hlast : (analyse s g).graph.isMarked .assignOnly p = true ↔
        (eliminate s (whenStarts s g .assignOnlyProperties)).isMarked .assignOnly p = true := by
      rw [hend] at hlive ⊢
      exact hkeeps he hafter hlive
    rw [hlast, (removesWrites_eliminate hk.toOwned).marked, hfirst, Struck]
    simp [hon, or_comm]
  · have hnot : .assignOnlyProperties ∉ standardPasses s := fun hmem =>
      hon (List.mem_filter.1 hmem).2
    have hsame : (analyse s g).graph.isMarked .assignOnly p = true ↔
        g.isMarked .assignOnly p = true := hkeeps hg hnot hlive
    rw [hsame, Struck]
    simp [hon]

/-- In the end the declarations and references are those that the search left. -/
theorem entries_analyse (hnone : (analyse s g).failure = none) :
    (analyse s g).graph.declarations = (markUsed (whenStarts s g .reachability)).declarations ∧
      (analyse s g).graph.references = (markUsed (whenStarts s g .reachability)).references := by
  obtain ⟨-, -, -, hend⟩ := analyse_cut Pass.all_cut_reachability rfl (by decide) hnone
  rw [hend]
  exact entries_runPasses_judging

/-- What is there in the end is retained when it was retained at the start of the search. -/
theorem isRetained_analyse_iff_at_search (hg : g.Coherent named) (hnone : (analyse s g).failure = none)
    (hlive : (analyse s g).graph.hasDeclaration d = true) :
    (analyse s g).graph.isRetained d = true ↔ (whenStarts s g .reachability).isRetained d = true :=
  ⟨isRetained_whenStarts_reachability hg hnone, (outlives_whenStarts hg hnone).marked _ d hlive⟩

/-- The search starts on what the elimination left. -/
theorem whenStarts_reachability_eq (hon : s.detection.assignOnlyProperties = true)
    (hnone : (analyse s g).failure = none) : whenStarts s g .reachability =
      eliminate s (whenStarts s g .assignOnlyProperties) :=
  (whenStarts_after Pass.all_cut_assignOnlyProperties hon rfl (by decide) (by decide) hnone).2

/-- What the elimination did is what the search finds. -/
theorem removesWrites_whenStarts (hg : g.Coherent named)
    (hon : s.detection.assignOnlyProperties = true) (hnone : (analyse s g).failure = none) :
    RemovesWrites s (whenStarts s g .assignOnlyProperties) (whenStarts s g .reachability) := by
  rw [whenStarts_reachability_eq hon hnone]
  exact removesWrites_eliminate (coherent_runPasses hg).toOwned

/-- At the start of the search, what was found is a property that nothing retains. -/
theorem free_of_struck (hg : g.Coherent named) (hnone : (analyse s g).failure = none)
    (hp : Struck s g p) :
    (∃ x, (whenStarts s g .reachability).declaration? p = some x ∧ x.kind.isProperty = true) ∧
      (whenStarts s g .reachability).isRetained p = false := by
  have ho : (whenStarts s g .assignOnlyProperties).Owned := (coherent_runPasses hg).toOwned
  obtain ⟨⟨x, hx, hk⟩, hfree⟩ := free_of_mem_found ho hp.2
  have R := removesWrites_whenStarts hg hp.1 hnone
  obtain ⟨y, hy, hs, -⟩ := R.rest.sparser.outline.symm.exists_declaration hx
  refine ⟨⟨y, hy, by rw [hs]; exact hk⟩, Bool.eq_false_iff.2 fun hr => ?_⟩
  rcases (R.marked .retained p).1 hr with hr | ⟨hne, -⟩
  · rw [isRetained, hr] at hfree
    cases hfree
  · cases hne

/-- **Why a property that was found is used**: through an accessor that is retained or encloses a used
accessor. -/
theorem isUsed_analyse_iff_of_struck (hg : g.Built) (hmarks : g.marks.used = ∅)
    (hnone : (analyse s g).failure = none) (hp : Struck s g p) :
    (analyse s g).graph.isUsed p = true ↔ ∃ a, AccessorOf (analyse s g).graph p a ∧
      ((analyse s g).graph.isRetained a = true ∨ ∃ b, UsedAccessor (analyse s g).graph a b) := by
  have hc : g.Coherent False := hg.coherent
  have he : (whenStarts s g .reachability).Coherent False := coherent_runPasses hc
  have hl : (whenStarts s g .reachability).ListsParameters :=
    Built.listsParameters (runPasses_keeps (fun _ pass _ hk => hk.run pass s) hg)
  obtain ⟨⟨x, hx, -⟩, hfree⟩ := free_of_struck hc hnone hp
  have hsilent := (removesWrites_whenStarts hc hp.1 hnone).silent p hp.2
  rw [isUsed_analyse hnone, isUsed_markUsed_iff_of_silent he hl
    (used_whenStarts_reachability hc hmarks hnone) (hasDeclaration_of_eq hx) hfree
    (fun r => (hsilent r).1) fun a ha r => (hsilent r).2 a ha]
  -- the rest of the analysis keeps accessors, and what is used and retained
  refine exists_congr fun a => ?_
  rw [accessorOf_congr (entries_analyse hnone).1]
  refine and_congr_right fun ha => or_congr ?_ (exists_congr fun b => ?_)
  · obtain ⟨y, hy, -⟩ := ha
    refine (isRetained_analyse_iff_at_search hc hnone ?_).symm
    rw [(adds_analyse hnone).outline.hasDeclaration]
    exact hasDeclaration_of_eq hy
  · unfold UsedAccessor declaration?
    rw [isUsed_analyse hnone, (entries_analyse hnone).1]

/-- **What is said in the end of a property that was found.** -/
theorem endsUnused_of_struck (hg : g.Built) (hmarks : g.marks.used = ∅)
    (hnone : (analyse s g).failure = none) (hp : Struck s g p) :
    EndsUnused s (analyse s g).graph p := by
  have hc : g.Coherent False := hg.coherent
  have he : (whenStarts s g .reachability).Coherent False := coherent_runPasses hc
  have hsame : SameOutline (whenStarts s g .reachability) (analyse s g).graph :=
    (sameOutline_markUsed he).trans (adds_analyse hnone).outline
  have hfewer : Sparser (analyse s g).graph (whenStarts s g .reachability) :=
    (Sparser.of_entries (entries_analyse hnone).1 (entries_analyse hnone).2).trans
      (sparser_markUsed he)
  obtain ⟨⟨x, hx, hk⟩, hfree⟩ := free_of_struck hc hnone hp
  obtain ⟨y, hy, hs, -⟩ := hsame.exists_declaration hx
  have hk' : y.kind.isProperty = true := by rw [hs]; exact hk
  have hfree' : (analyse s g).graph.isRetained p = false := by
    rw [Bool.eq_false_iff, ne_eq, isRetained_analyse_iff_at_search hc hnone (hasDeclaration_of_eq hy),
      hfree]
    decide
  have hmarked : (analyse s g).graph.isMarked .assignOnly p = true :=
    (isMarked_assignOnly_analyse hc hnone (hasDeclaration_of_eq hy)).2 (.inl hp)
  obtain ⟨hnot, htold⟩ := Finding.tells_assignOnly_iff (s := s) hy hk' hmarked hfree'
  refine ⟨⟨y, hy, hk'⟩, hmarked, hfree', fun r => ?_,
    isUsed_analyse_iff_of_struck hg hmarks hnone hp, hnot, fun z hz => ?_⟩
  · obtain ⟨hself, hmembers⟩ := (removesWrites_whenStarts hc hp.1 hnone).silent p hp.2 r
    exact ⟨fun hn => hself (hfewer.names hn),
      fun a ha hn => hmembers a ((hasMember_iff hfewer).1 ha) (hfewer.names hn)⟩
  · rw [hy] at hz
    cases hz
    exact htold

/-- What an analysis does with properties that are only written. -/
structure SettlesWrittenOnly (s : Settings) (g h : Graph) : Prop where
  /-- What is marked in the end was marked before, or the analysis found it. -/
  marked : ∀ p, h.hasDeclaration p = true → (h.isMarked .assignOnly p = true ↔
    Struck s g p ∨ g.isMarked .assignOnly p = true)
  /-- What it found is unused, unless an accessor of it is retained or encloses a used accessor. -/
  unused : ∀ p, Struck s g p → (∀ a, AccessorOf h p a → h.isRetained a = false ∧
    ∀ b, ¬ UsedAccessor h a b) → h.isUsed p = false
  /-- Nothing names it any more, and reports say of it that it is only written. -/
  ends : ∀ p, Struck s g p → EndsUnused s h p

/-- **Properties that are only written end up unused**, whatever happened to the graph before. -/
theorem settlesWrittenOnly_of_built (hg : g.Built) (hmarks : g.marks.used = ∅)
    (hnone : (analyse s g).failure = none) : SettlesWrittenOnly s g (analyse s g).graph where
  marked _ hlive := isMarked_assignOnly_analyse hg.coherent hnone hlive
  unused p hp haccessors := by
    rw [Bool.eq_false_iff, ne_eq, isUsed_analyse_iff_of_struck hg hmarks hnone hp]
    rintro ⟨a, ha, hr | ⟨b, hb⟩⟩
    · rw [(haccessors a ha).1] at hr
      cases hr
    · exact (haccessors a ha).2 b hb
  ends _ hp := endsUnused_of_struck hg hmarks hnone hp

/-! ## Two programs -/

/-- In the opened account, the user and the token are reported as only written. -/
theorem settlesWrittenOnly_of_built_account :
    let g := (ofDocument account).1
    let h := (analyse {} g).graph
    SettlesWrittenOnly {} g h ∧ h.isUsed ⟨0⟩ = true ∧ h.isUsed ⟨1⟩ = false ∧
      (Finding.collect {} h).map (fun f => (f.issue, f.name)) =
        [(.assignOnly, "user"), (.assignOnly, "token")] := by
  intro g h
  have hbuilt : g.Built := .ingest .empty account
  have hrun : g.marks.used = ∅ ∧ (analyse {} g).failure = none ∧ h.isUsed ⟨0⟩ = true ∧
      h.isUsed ⟨1⟩ = false ∧ (Finding.collect {} h).map (fun f => (f.issue, f.name)) =
        [(.assignOnly, "user"), (.assignOnly, "token")] := by decide +kernel
  exact ⟨settlesWrittenOnly_of_built hbuilt hrun.1 hrun.2.1, hrun.2.2⟩

/-- A volume whose setter has an accessor of its own, and a theme with a parameter that it does not
use.  Both are written; the inner accessor and the parameter are named as well. -/
def observers : Document :=
  { fragments := [
      { file := { path := ⟨"Settings.swift"⟩, modules := .singleton "App" }
        declarations := [
          { kind := .globalVariable, usrs := ["volume"], name := some "volume", line := 1
            declarations := [
              { kind := .setter, usrs := ["volume.set"], line := 1, isImplicit := true
                declarations := [{ kind := .didSetAccessor, usrs := ["volume.log"], line := 2 }] }] },
          { kind := .globalVariable, usrs := ["theme"], name := some "theme", line := 4
            declarations := [{ kind := .setter, usrs := ["theme.set"], line := 4, isImplicit := true }]
            unusedParameters := [{ kind := .parameter, usrs := ["theme.old"], line := 5 }] }]
        references := [
          { kind := .setter, usr := "volume.set", line := 7 },
          { kind := .didSetAccessor, usr := "volume.log", line := 8 },
          { kind := .setter, usr := "theme.set", line := 9 },
          { kind := .parameter, usr := "theme.old", line := 10 }] }] }

/-- Both are found, and nothing retains an accessor.  But the one is used, and something still names a
child of the other. -/
theorem not_settled_observers :
    let g := (ofDocument observers).1
    let h := (analyse {} g).graph
    g.marks.used = ∅ ∧ (analyse {} g).failure = none ∧ (∀ a, h.isRetained a = false) ∧
      (∃ p, h.hasDeclaration p = true ∧ g.isMarked .assignOnly p = false ∧
        h.isMarked .assignOnly p = true ∧ h.isUsed p = true) ∧
      ∃ p c r, g.isMarked .assignOnly p = false ∧ h.isMarked .assignOnly p = true ∧
        c ∈ h.childrenOf p ∧ h.Names r c := by
  intro g h
  have hbuilt : g.Built := .ingest .empty observers
  have hend : h.Owned := (coherent_runPasses hbuilt.coherent).toOwned
  have hstart : g.marks = {} ∧ (analyse {} g).failure = none ∧ h.marks.retained = ∅ ∧
      (h.hasDeclaration ⟨0⟩ = true ∧ h.isMarked .assignOnly ⟨0⟩ = true ∧ h.isUsed ⟨0⟩ = true) ∧
      h.isMarked .assignOnly ⟨3⟩ = true ∧ (⟨5⟩ : DeclId) ∈ h.childrenOf ⟨3⟩ ∧
      (⟨3⟩ : RefId) ∈ h.referencesTo ⟨5⟩ := by decide +kernel
  obtain ⟨hmarks, hnone, hretained, ⟨hlive, hvolume, hused⟩, htheme, hchild, hnamed⟩ := hstart
  have hnew : ∀ p, g.isMarked .assignOnly p = false := fun p => by
    rw [isMarked, hmarks]
    rfl
  refine ⟨by rw [hmarks], hnone, fun a => ?_, ⟨⟨0⟩, hlive, hnew _, hvolume, hused⟩,
    ⟨3⟩, ⟨5⟩, ⟨3⟩, hnew _, htheme, hchild, hend.mem_referencesTo.1 hnamed⟩
  rw [isRetained, isMarked, Marks.of, hretained]
  rfl

end Deadwood

/-
  Dead code in the report.

  1. **Heads (`IsHead`)** — what is unused inside something unused is ignored, in favour of the
     outermost unused declaration around it.

  2. **Reports (`reports_analyse_iff`)** — this one is reported if it is of a sort that is reported.
     Nothing sees to that: local variables, parameters and accessors are of no such sort, and what
     stands inside them may be of one.

  3. **Protocol extensions** — they are not reported either.  But then their protocol is unused, too,
     and may be reported in their place.

  4. **Coverage (`reportsDeadCode_of_ingested`)** — so dead code is in the report exactly where its head
     is of a reported sort, or a protocol stands for it.
-/
import Deadwood.Proofs.Directives
import Deadwood.Proofs.Extensions.Protocols

namespace Deadwood

open Deadwood.Graph

variable {g h k : Graph} {c d t : DeclId} {s : Settings}

/-! ## Heads -/

/-- `IsHead h d t`: from `d` outward, `t` is the last unused declaration, and everything around `t` is
used. -/
structure IsHead (h : Graph) (d t : DeclId) : Prop where
  encloses : h.EnclosedBy d t
  unused : h.isUsed t = false
  outermost : ∀ a ∈ h.ancestors t, h.isUsed a = true

theorem IsHead.self (H : IsHead h d t) : IsHead h t t :=
  ⟨.here H.encloses.mem_right, H.unused, H.outermost⟩

/-- There is at most one. -/
theorem IsHead.unique (H : IsHead h d t) (H' : IsHead h d c) : t = c := by
  by_contra hne
  have hnot : ∀ {a b}, IsHead h d a → IsHead h d b → a ≠ b → ¬ h.EnclosedBy a b := by
    intro a b Ha Hb hab hup
    have hused := Ha.outermost b (mem_ancestors.2 ⟨hup, hab.symm⟩)
    rw [Hb.unused] at hused
    cases hused
  rcases H.encloses.total H'.encloses with hup | hup
  · exact hnot H H' hne hup
  · exact hnot H' H (Ne.symm hne) hup

/-- In a forest, everything unused has one. -/
theorem Graph.Acyclic.exists_isHead (hacyclic : h.Acyclic) (hlive : h.hasDeclaration d = true)
    (hunused : h.isUsed d = false) : ∃ t, IsHead h d t := by
  obtain ⟨t, ht, htu, hout⟩ :=
    hacyclic.exists_outermost (P := fun a => h.isUsed a = false) hunused
  exact ⟨t, (enclosedBy_iff hlive).2 ht, htu, fun a ha => Bool.not_eq_false _ ▸ hout a ha⟩

/-! ## Reports -/

namespace Finding

/-- Whether a declaration is of a sort that is reported where it is unused. -/
def isOfReportedSort (x : Declaration) : Bool :=
  !x.isImplicit && !x.kind.isAccessor && !x.kind.isExtension && !unreportedKinds.contains x.kind

/-- `Reports s g c`: there is a warning that `c` is unused, or that it is only written. -/
def Reports (s : Settings) (g : Graph) (c : DeclId) : Prop :=
  ∃ f ∈ collect s g, Tells s g f c ∧ f.severity = .warning ∧ (f.issue = .unused ∨ f.issue = .assignOnly)

/-- Where no file is excluded, that is so for what is listed as unused and not held back. -/
theorem reports_iff (hs : s.reportExclude = []) : Reports s g c ↔ c ∈ g.unusedDeclarations ∧
    ∃ x, g.declaration? c = some x ∧ isReportable g c x = true := by
  constructor
  · rintro ⟨f, -, htells, hseverity, hissue⟩
    cases htells with
    | unused hd hx hr => exact ⟨hd, _, hx, hr⟩
    | parameter | proto => rcases hissue with hissue | hissue <;> cases hissue
    | tier _ _ hi =>
        have hne := Issue.ne_of_ofTier? hi
        exact (hissue.elim hne.1 hne.2).elim
    | suppressed => cases hseverity
  · rintro ⟨hd, x, hx, hr⟩
    have htells := Tells.unused (s := s) hd hx hr
    refine ⟨_, mem_collect_iff.2 ⟨?_, .inr ⟨c, htells⟩⟩, htells, ?_⟩
    · simp [Settings.excludes, hs]
    · cases g.isMarked .assignOnly c
      · exact ⟨rfl, .inl rfl⟩
      · exact ⟨rfl, .inr rfl⟩

end Finding

/-- A live declaration is of a sort that is reported where it is unused. -/
def Graph.OfReportedSort (g : Graph) (d : DeclId) : Prop :=
  ∃ x, g.declaration? d = some x ∧ Finding.isOfReportedSort x = true

instance (g : Graph) (d : DeclId) : Decidable (g.OfReportedSort d) :=
  decidable_of_iff ((g.declaration? d).any Finding.isOfReportedSort = true) (Option.any_eq_true _ _)

section Analysis

variable (hg : g.Ingested) (hprotocols : s.detection.redundantProtocols = false)
  (hnone : (analyse s g).failure = none)

include hg hprotocols hnone

/-- Where redundant protocols are not looked for, what is ignored in the end was ignored by the
search. -/
theorem isIgnored_analyse (hlive : (analyse s g).graph.hasDeclaration d = true) :
    (analyse s g).graph.isIgnored d =
      (Reachability.markUsed (whenStarts s g .reachability)).isIgnored d := by
  obtain ⟨-, -, -, hend⟩ := analyse_cut Pass.all_cut_reachability rfl (by decide) hnone
  have hrun : (Pass.reachability.run s (whenStarts s g .reachability)).graph =
      Reachability.markUsed (whenStarts s g .reachability) := rfl
  have hk : (Reachability.markUsed (whenStarts s g .reachability)).Consistent :=
    Reachability.coherent_markUsed (coherent_runPasses hg.reachable.consistent)
  rw [hend, hrun] at hlive ⊢
  generalize Reachability.markUsed (whenStarts s g .reachability) = k at hk hlive ⊢
  rw [Bool.eq_iff_iff]
  refine ⟨isMarked_of_runPasses hk fun p hp => ?_, (outlives_runPasses hk).marked .ignored d hlive⟩
  obtain ⟨hp, hon⟩ := List.mem_filter.1 hp
  have hcase : ∀ p ∈ Pass.judging, p = .redundantProtocols ∨ Mark.ignored ∉ p.puts := by decide
  refine (hcase p hp).resolve_left ?_
  rintro rfl
  rw [Pass.isEnabled, hprotocols] at hon
  cases hon

/-- **What is listed as unused in the end**: what has only used declarations around it. -/
theorem mem_unusedDeclarations_analyse : d ∈ (analyse s g).graph.unusedDeclarations ↔
    (analyse s g).graph.hasDeclaration d = true ∧ (analyse s g).graph.isUsed d = false ∧
      ∀ a ∈ (analyse s g).graph.ancestors d, (analyse s g).graph.isUsed a = true := by
  have hk : (whenStarts s g .reachability).Consistent := coherent_runPasses hg.reachable.consistent
  have hsame := (adds_analyse hnone).outline
  have hlist : d ∈ (analyse s g).graph.unusedDeclarations ↔
      d ∈ (Reachability.markUsed (whenStarts s g .reachability)).unusedDeclarations := by
    simp only [unusedDeclarations, mem_sortedDeclarations, List.mem_filter, hsame.mem_declIds,
      hsame.hasDeclaration, isUsed_analyse hnone]
    refine and_congr_left fun hlive => and_congr_right fun _ => ?_
    rw [isIgnored_analyse hg hprotocols hnone (hsame.hasDeclaration.trans hlive)]
  rw [hlist, Reachability.mem_unusedDeclarations_markUsed hk, ← hsame.hasDeclaration]
  simp only [isUsed_analyse hnone, hsame.mem_ancestors]
  refine and_congr_right fun hlive => and_congr_right fun hunused => ?_
  -- what directives ignore they retain, and so it is used
  refine and_iff_right (Bool.eq_false_iff.2 fun hignored => ?_)
  have hused := Reachability.isUsed_markUsed_of_retained hk
    (hk.marked_live .ignored d (isMarked_iff.1 hignored))
    (isRetained_of_isIgnored_whenStarts hg hignored)
  rw [hunused] at hused
  cases hused

/-- **What is reported in the end**: what is unused and of a reported sort, and has only used
declarations around it. -/
theorem reports_analyse_iff (hs : s.reportExclude = []) :
    Finding.Reports s (analyse s g).graph c ↔ (analyse s g).graph.OfReportedSort c ∧
      IsHead (analyse s g).graph c c := by
  have hc : g.Consistent := hg.reachable.consistent
  rw [Finding.reports_iff hs, mem_unusedDeclarations_analyse hg hprotocols hnone]
  constructor
  · rintro ⟨⟨hlive, hunused, hout⟩, x, hx, hr⟩
    exact ⟨⟨x, hx, (Bool.and_eq_true_iff.1 hr).1⟩, .here (mem_declIds.2 hlive), hunused, hout⟩
  · rintro ⟨⟨x, hx, hr⟩, hhead⟩
    have hlive := hasDeclaration_of_eq hx
    have hnot : (analyse s g).graph.isRetained c = false := Bool.eq_false_iff.2 fun hretained => by
      have hused := isUsed_of_isRetained_analyse hc hnone hlive hretained
      rw [hhead.unused] at hused
      cases hused
    exact ⟨⟨hlive, hhead.unused, hhead.outermost⟩, x, hx,
      Bool.and_eq_true_iff.2 ⟨hr, by rw [hnot]; rfl⟩⟩

end Analysis

/-! ## Coverage -/

/-- `WithinExtension k h d p`: the outermost declaration around `d` in `h` is one that extends the
protocol `p` in `k`. -/
def WithinExtension (k h : Graph) (d p : DeclId) : Prop :=
  ∃ e ∈ k.protocolExtensions p, h.EnclosedBy d e ∧ h.parentOf? e = none

/-- `Covered s k h d`: what is reported of `h` says of `d` that it is dead.  It names `d`, or something
around `d`, or the protocol that the outermost declaration around `d` extends in `k`. -/
def Covered (s : Settings) (k h : Graph) (d : DeclId) : Prop :=
  ∃ c, Finding.Reports s h c ∧ (h.EnclosedBy d c ∨ WithinExtension k h d c)

/-- No setter has the first identifier of a declaration. -/
def Graph.NoSetterNamed (g : Graph) (e : DeclId) : Prop :=
  ∀ x, g.declaration? e = some x → g.NoSetterHas x.firstUsr

/-- `ReportsDeadCode s k h`: which dead code is reported of `h`, where `k` says which protocol an
extension extends. -/
structure ReportsDeadCode (s : Settings) (k h : Graph) : Prop where
  /-- Heads of a reported sort are reported, and nothing else is. -/
  reports : ∀ c, Finding.Reports s h c ↔ h.OfReportedSort c ∧ IsHead h c c
  /-- In a forest, everything dead has one head. -/
  head : h.Acyclic → ∀ d, h.hasDeclaration d = true → h.isUsed d = false → ∃! t, IsHead h d t
  /-- What has a head is covered exactly where the head is of a reported sort, or a protocol stands
  for it that is a head of such a sort itself. -/
  covered : ∀ d t, IsHead h d t → (Covered s k h d ↔ h.OfReportedSort t ∨
    ∃ p, h.OfReportedSort p ∧ IsHead h p p ∧ WithinExtension k h d p)
  /-- The protocol of a dead extension is dead, unless a setter has the identifier of the
  extension. -/
  extended : ∀ p, ∀ e ∈ k.protocolExtensions p, h.hasDeclaration e = true → h.isUsed e = false →
    h.NoSetterNamed e → h.isUsed p = false
  /-- So in a forest everything dead is covered whose head is of a reported sort, or an outermost
  extension of a protocol of such a sort with nothing dead around it. -/
  all : h.Acyclic → ∀ d, h.hasDeclaration d = true → h.isUsed d = false →
    (∀ t, IsHead h d t → h.OfReportedSort t ∨ (h.parentOf? t = none ∧ h.NoSetterNamed t ∧
      ∃ p, t ∈ k.protocolExtensions p ∧ h.OfReportedSort p ∧
        ∀ a ∈ h.ancestors p, h.isUsed a = true)) →
    Covered s k h d

/-- Reports of heads and dead protocols of dead extensions are all it takes. -/
theorem reportsDeadCode_of_reports
    (hreports : ∀ c, Finding.Reports s h c ↔ h.OfReportedSort c ∧ IsHead h c c)
    (hextended : ∀ p, ∀ e ∈ k.protocolExtensions p, h.hasDeclaration e = true →
      h.isUsed e = false → h.NoSetterNamed e → h.isUsed p = false) : ReportsDeadCode s k h := by
  have hcovered : ∀ d t, IsHead h d t → (Covered s k h d ↔ h.OfReportedSort t ∨
      ∃ p, h.OfReportedSort p ∧ IsHead h p p ∧ WithinExtension k h d p) := by
    intro d t ht
    constructor
    · rintro ⟨c, hc, hup | hext⟩
      · -- what is reported around `d` is its head
        obtain ⟨hsort, hself⟩ := (hreports c).1 hc
        rw [ht.unique ⟨hup, hself.unused, hself.outermost⟩]
        exact .inl hsort
      · obtain ⟨hsort, hself⟩ := (hreports c).1 hc
        exact .inr ⟨c, hsort, hself, hext⟩
    · rintro (hsort | ⟨p, hsort, hself, hext⟩)
      · exact ⟨t, (hreports t).2 ⟨hsort, ht.self⟩, .inl ht.encloses⟩
      · exact ⟨p, (hreports p).2 ⟨hsort, hself⟩, .inr hext⟩
  refine ⟨hreports, fun hacyclic d hlive hunused => ?_, hcovered, hextended,
    fun hacyclic d hlive hunused hhead => ?_⟩
  · obtain ⟨t, ht⟩ := hacyclic.exists_isHead hlive hunused
    exact ⟨t, ht, fun t' ht' => ht'.unique ht⟩
  · obtain ⟨t, ht⟩ := hacyclic.exists_isHead hlive hunused
    refine (hcovered d t ht).2 ((hhead t ht).imp_right ?_)
    rintro ⟨hroot, hsetters, p, hp, hsort, hout⟩
    obtain ⟨y, hy, -⟩ := id hsort
    have hself : IsHead h p p :=
      ⟨.here (mem_declIds.2 (hasDeclaration_of_eq hy)),
        hextended p t hp (mem_declIds.1 ht.encloses.mem_right) ht.unused hsetters, hout⟩
    exact ⟨p, hsort, hself, t, hp, ht.encloses, hroot⟩

/-- **Dead code is in the report where its head is of a reported sort**, or a protocol stands for it. -/
theorem reportsDeadCode_of_ingested (hg : g.Ingested)
    (hprotocols : s.detection.redundantProtocols = false) (hs : s.reportExclude = [])
    (hnone : (analyse s g).failure = none) :
    ReportsDeadCode s (whenStarts s g .protocolExtensions) (analyse s g).graph := by
  refine reportsDeadCode_of_reports (fun c => reports_analyse_iff hg hprotocols hnone hs)
    fun p e he hlive hunused hsetters => ?_
  obtain ⟨x, hx⟩ := hasDeclaration_iff.1 hlive
  refine Bool.eq_false_iff.2 fun hp => ?_
  have hused := isUsed_of_extends hg.reachable.consistent (congrArg Marks.used hg.marks) hnone he hx
    (hsetters x hx) hp
  rw [hunused] at hused
  cases hused

/-- A class with a method, a protocol, and an extension of the protocol with a method.  Nothing uses
them. -/
def deadClassAndProtocol : Document :=
  { fragments := [
      { file := { path := ⟨"a.swift"⟩, modules := .singleton "App" }
        declarations := [
          { kind := .classType, usrs := ["C"], name := some "C", line := 1
            declarations := [{ kind := .instanceMethod, usrs := ["C.f"], name := some "f()", line := 2 }] },
          { kind := .protocolType, usrs := ["P"], name := some "P", line := 4 },
          { kind := .protocolExtension, usrs := ["P+"], name := some "P", line := 6
            declarations := [{ kind := .instanceMethod, usrs := ["P.g"], name := some "g()", line := 7 }]
            references := [{ kind := .protocolType, usr := "P", line := 6, role := .extendedType }] }] }] }

/-- The class stands for its method in the report, and the protocol for the method of its extension. -/
theorem reportsDeadCode_of_ingested_deadClassAndProtocol :
    let s : Settings := { detection := { redundantProtocols := false } }
    let h := (analyse s (ofDocument deadClassAndProtocol).1).graph
    let k := whenStarts s (ofDocument deadClassAndProtocol).1 .protocolExtensions
    (Finding.collect s h).map (·.name) = ["C", "P"] ∧ Covered s k h ⟨1⟩ ∧ Covered s k h ⟨4⟩ := by
  intro s h k
  have hrun : (analyse s (ofDocument deadClassAndProtocol).1).failure = none ∧
      (Finding.collect s h).map (·.name) = ["C", "P"] := by decide +kernel
  have H : ReportsDeadCode s k h :=
    reportsDeadCode_of_ingested (Ingested.empty.ingest deadClassAndProtocol) rfl rfl hrun.1
  have hacyclic : h.Acyclic := acyclic_of_lt (by decide +kernel)
  have hlive : h.hasDeclaration ⟨1⟩ = true ∧ h.hasDeclaration ⟨4⟩ = true := by decide +kernel
  have hunused : ∀ n < 5, h.isUsed ⟨n⟩ = false := by decide +kernel
  have haround : h.ancestors ⟨1⟩ = [⟨0⟩] ∧ h.ancestors ⟨4⟩ = [⟨3⟩] ∧ h.ancestors ⟨0⟩ = [] ∧
      h.ancestors ⟨3⟩ = [] ∧ h.ancestors ⟨2⟩ = [] := by decide +kernel
  have hsorts : h.OfReportedSort ⟨0⟩ ∧ h.OfReportedSort ⟨2⟩ := by decide +kernel
  have hextends : ⟨3⟩ ∈ k.protocolExtensions ⟨2⟩ ∧ h.parentOf? ⟨3⟩ = none := by decide +kernel
  have hsetters : ∀ d ∈ h.declIds, ∀ x ∈ h.declaration? d, x.kind ≠ .setter := by decide +kernel
  -- from here on it does not matter how these graphs came about
  clear_value h k
  have hhead : ∀ d t, h.hasDeclaration d = true → h.ancestors d = [t] → h.ancestors t = [] →
      h.isUsed t = false → IsHead h d t := fun d t hd hup hout hu =>
    ⟨(enclosedBy_iff hd).2 (.inr (by rw [hup]; exact List.mem_singleton_self t)), hu,
      fun a ha => by rw [hout] at ha; cases ha⟩
  have hclass : IsHead h ⟨1⟩ ⟨0⟩ := hhead _ _ hlive.1 haround.1 haround.2.2.1 (hunused 0 (by decide))
  have hextension : IsHead h ⟨4⟩ ⟨3⟩ :=
    hhead _ _ hlive.2 haround.2.1 haround.2.2.2.1 (hunused 3 (by decide))
  refine ⟨hrun.2, (H.covered _ _ hclass).2 (.inl hsorts.1),
    H.all hacyclic ⟨4⟩ hlive.2 (hunused 4 (by decide)) fun t ht => .inr ?_⟩
  rw [ht.unique hextension]
  refine ⟨hextends.2, fun x _ a y hy hsetter => ?_, ⟨2⟩, hextends.1, hsorts.2, fun a ha => ?_⟩
  · exact absurd hsetter (hsetters a (mem_declIds.2 (hasDeclaration_of_eq hy)) y hy)
  · rw [haround.2.2.2.2] at ha
    cases ha

/-- A used function with a local variable, in which there is another function. -/
def functionInLocalVariable : Document :=
  { fragments := [
      { file := { path := ⟨"a.swift"⟩, modules := .singleton "App" }
        declarations := [
          { kind := .freeFunction, usrs := ["s:main"], name := some "main()", line := 1
            declarations := [
              { kind := .localVariable, usrs := ["s:v"], name := some "v", line := 2
                declarations := [
                  { kind := .freeFunction, usrs := ["s:h"], name := some "helper()", line := 3 }] }] }]
        references := [{ kind := .freeFunction, usr := "s:main", line := 9 }] }] }

/-- The inner function is dead and would be reported, but nothing is: it is ignored in favour of the
variable. -/
theorem not_covered_functionInLocalVariable :
    let s : Settings := { detection := { redundantProtocols := false } }
    let h := (analyse s (ofDocument functionInLocalVariable).1).graph
    let k := whenStarts s (ofDocument functionInLocalVariable).1 .protocolExtensions
    (analyse s (ofDocument functionInLocalVariable).1).failure = none ∧ s.reportExclude = [] ∧
      h.hasDeclaration ⟨2⟩ = true ∧ h.isUsed ⟨2⟩ = false ∧ h.OfReportedSort ⟨2⟩ ∧
      Finding.collect s h = [] ∧ ¬ Covered s k h ⟨2⟩ := by
  intro s h k
  have hempty : Finding.collect s h = [] := by decide +kernel
  refine ⟨by decide +kernel, rfl, by decide +kernel, by decide +kernel, by decide +kernel, hempty, ?_⟩
  rintro ⟨c, ⟨f, hf, -⟩, -⟩
  rw [hempty] at hf
  cases hf

end Deadwood

/-
  Which unused parameters are reported, family by family.

  1. **Reports (`reportsParameter_iff`)** — a parameter that a function lists as unused is reported where
     the function is used, nothing about it is hidden and nothing retains the parameter.

  2. **Picks (`isRetained_listed_iff`)** — a parameter is retained where its family keeps its name
     (`Stays`), where the settings retain its name, or where it is singled out (`SingledOut`): by a
     directive, or by one of the few rules that look at more than a name.

  3. **Families (`ReportsFamilies`)** — names do not tell the functions of a family apart.  So where a
     parameter is reported, the other functions of its family leave the name unused as well, and what
     they retain of it is singled out there.
-/
import Deadwood.Proofs.Directives
import Deadwood.Proofs.Families
import Deadwood.Proofs.Parameters
import Deadwood.Proofs.Retaining.Reasons

namespace Deadwood

open Deadwood.Graph

variable {s : Settings} {g h k l : Graph} {f m p q : DeclId} {n : String} {pass : Pass}

/-! ## Reports -/

/-- `ReportsParameter s g f p`: there is a finding that the function `f` does not use its parameter
`p`. -/
def ReportsParameter (s : Settings) (g : Graph) (f p : DeclId) : Prop :=
  (∃ e ∈ Finding.collect s g, e.issue = .unusedParameter ∧ Finding.Tells s g e p) ∧
    ∃ x, g.declaration? f = some x ∧ p ∈ x.parameters.toList

/-- `Shows s g f p`: a finding about the parameter would be shown. -/
structure Shows (s : Settings) (g : Graph) (f p : DeclId) : Prop where
  used : g.isUsed f = true
  function : g.isIgnored f = false
  parameter : g.isIgnored p = false
  file : ∃ x, g.declaration? p = some x ∧ s.excludes x.location.file = false

/-- **Which unused parameters are reported.** -/
theorem reportsParameter_iff (hg : g.Nested) (hon : s.detection.unusedParameters = true)
    (hp : g.ListsUnused f p n) :
    ReportsParameter s g f p ↔ Shows s g f p ∧ g.isRetained p = false := by
  constructor
  · rintro ⟨⟨e, he, hissue, htells⟩, -⟩
    have hfile := (Finding.mem_collect_iff.1 he).1
    cases htells with
    | @parameter f' _ y x _ hused hreported hy hlisted hr hi hx =>
        obtain ⟨rfl, -⟩ := hp.unique hg ⟨y, x, hy, hlisted, hx, rfl⟩
        exact ⟨⟨hused, hreported, hi, x, hx, hfile⟩, hr⟩
    | unused =>
        have hissue : (if g.isMarked .assignOnly p then Issue.assignOnly else .unused) =
          .unusedParameter := hissue
        split at hissue <;> cases hissue
    | proto | suppressed => cases hissue
    | @tier _ a x issue _ _ hi =>
        have hissue : issue = .unusedParameter := hissue
        rw [hissue] at hi
        revert hi
        cases a.declared <;> rintro ⟨⟩
  · rintro ⟨H, hr⟩
    obtain ⟨y, -, hy, hlisted, -, -⟩ := hp
    obtain ⟨x, hx, hfile⟩ := H.file
    have htells := Finding.Tells.parameter hon H.used H.function hy hlisted hr H.parameter hx
    refine ⟨⟨_, ?_, rfl, htells⟩, y, hy, hlisted⟩
    exact Finding.mem_collect_iff.2 ⟨hfile, .inr ⟨p, htells⟩⟩

/-! ## Who picks parameters -/

/-- The rules that may pick one parameter of a name and leave another one. -/
def Pass.singling : List Pass :=
  [.foreignOverrides, .entryPoints, .markedTests, .publicApi, .objcAccessible]

/-- The only passes that pick parameters, unless a type has them as members. -/
theorem Pass.mem_of_picks_parameter (hl : l.Indexed) (hp : l.IsParameter p)
    (howner : pass = .propertyWrappers ∨ pass = .assets → ∀ a x r, l.declaration? a = some x →
      x.kind.isType = true → p ∉ l.membersWhere a r)
    (hpick : p ∈ pass.picks s l) :
    pass ∈ .directives :: .patterns :: .unusedParameters :: singling := by
  -- what is found by its kind is no parameter
  have hkinds : ∀ {kinds : List Kind}, .parameter ∉ kinds → p ∉ l.declarationsOfKinds kinds := by
    intro kinds hnot hmem
    obtain ⟨x, hx, hk⟩ := hl.mem_declarationsOfKinds.1 hmem
    rw [hp.kind hx] at hk
    exact hnot hk
  cases pass with
  | directives | patterns | unusedParameters | foreignOverrides | entryPoints | markedTests | publicApi
  | objcAccessible => decide
  | dynamicMembers | stringInterpolation =>
      obtain ⟨x, hx, hrule⟩ := mem_declIdsWhere.1 hpick
      rw [hp.kind hx] at hrule
      cases hrule
  | propertyWrappers =>
      obtain ⟨a, ha, hmember⟩ := List.mem_flatMap.1 hpick
      obtain ⟨x, hx, hrule⟩ := mem_declIdsWhere.1 ha
      exact absurd hmember (howner (.inl rfl) a x _ hx (Bool.and_eq_true_iff.1 hrule).1)
  | resultBuilders =>
      obtain ⟨a, -, hmember⟩ := List.mem_flatMap.1 hpick
      obtain ⟨-, y, -, -, hy, hrule⟩ := mem_membersWhere.1 hmember
      rw [hp.kind hy] at hrule
      cases hrule
  | previews =>
      have hpick : p ∈ Retention.previews s l := hpick
      unfold Retention.previews at hpick
      split at hpick
      · exact absurd (List.mem_of_mem_filter hpick) (hkinds (by decide))
      · cases hpick
  | testCases =>
      obtain ⟨a, ha, hpick⟩ := List.mem_flatMap.1 hpick
      rcases List.mem_cons.1 hpick with rfl | hmember
      · exact absurd (List.mem_of_mem_filter ha) (hkinds (by decide))
      · obtain ⟨-, y, -, -, hy, hrule⟩ := mem_membersWhere.1 hmember
        rw [Retention.isTestHook, hp.kind hy] at hrule
        cases hrule
  | assets =>
      obtain ⟨asset, -, hpick⟩ := List.mem_flatMap.1 hpick
      obtain ⟨a, ha, hpick⟩ := List.mem_flatMap.1 hpick
      have ha := List.mem_of_mem_filter ha
      have hself : p ≠ a := by
        rintro rfl
        exact hkinds (by decide) ha
      obtain ⟨x, hx, hk⟩ := hl.mem_declarationsOfKinds.1 ha
      have htype : ∀ kind ∈ [Kind.classType, .structType], kind.isType = true := by decide
      split at hpick
      · have hmember := (List.mem_cons.1 hpick).resolve_left hself
        exact absurd hmember (howner (.inr rfl) a x _ hx (htype _ hk))
      · exact absurd (List.mem_singleton.1 hpick) hself
  | _ => cases hpick

/-! ## What is retained of them -/

/-- A name that the settings retain, with its argument labels or without. -/
def Settings.RetainsName (s : Settings) (n : String) : Prop :=
  n ≠ "" ∧ (s.retains (String.ofList (n.toList.takeWhile (· != '('))) = true ∨ s.retains n = true)

theorem Retention.mem_patterns :
    p ∈ patterns s l ↔ ∃ y, l.declaration? p = some y ∧ s.RetainsName y.nameText := by
  rw [patterns, mem_declIdsWhere]
  refine exists_congr fun y => and_congr_right fun _ => ?_
  rw [Bool.and_eq_true, Bool.or_eq_true, bne_iff_ne]
  rfl

/-- `SingledOut s g p`: what retains a parameter and need not retain another one of its name. -/
inductive SingledOut (s : Settings) (g : Graph) (p : DeclId) : Prop where
  /-- A directive says to leave it alone, or something around it. -/
  | addressed {a : DeclId} (directive : g.Addressed a) (inside : g.EnclosedBy p a) : SingledOut s g p
  /-- A directive of its function names it. -/
  | named (kept : p ∈ Directives.keptParameters g) : SingledOut s g p
  /-- A rule picks it: for an attribute of its own, for who can see it, or for something foreign that it
  is related to. -/
  | rule {pass : Pass} (single : pass ∈ Pass.singling)
      (picked : p ∈ pass.picks s (whenStarts s g pass)) : SingledOut s g p

/-- When directives are obeyed they say what they said. -/
theorem picks_directives (hg : g.Nested) :
    p ∈ Pass.directives.picks s (whenStarts s g .directives) ↔
      (∃ a, g.Addressed a ∧ g.EnclosedBy p a) ∨ p ∈ Directives.keptParameters g := by
  have hsame := same_whenStarts_directives (s := s) (g := g)
  generalize whenStarts s g .directives = k at hsame
  have hpicks : Pass.directives.picks s k =
      Directives.suppressed g ++ Directives.keptParameters g := by
    cases k
    cases g
    cases hsame.1
    cases hsame.2
    rfl
  rw [hpicks, List.mem_append, Directives.mem_suppressed hg]

theorem Pass.all_cut_propertyWrappers :
    Pass.all = Pass.all.take 14 ++ .propertyWrappers :: Pass.all.drop 15 := rfl

theorem Pass.all_cut_assets : Pass.all = Pass.all.take 21 ++ .assets :: Pass.all.drop 22 := rfl

theorem Pass.all_cut_unusedParameters :
    Pass.all = Pass.all.take 25 ++ .unusedParameters :: Pass.all.drop 26 := rfl

namespace Graph

theorem ListsUnused.congr (H : SameTree g h) (hp : g.ListsUnused f p n) : h.ListsUnused f p n := by
  obtain ⟨x, y, hx, hp, hy, rfl⟩ := hp
  have hf := H f
  rw [hx] at hf
  obtain ⟨x', hx', he⟩ := Option.map_eq_some_iff.1 hf
  obtain ⟨y', hy', hs⟩ := H.exists_declaration hy
  have hparameters : x'.parameters = x.parameters := congrArg (fun e => e.2.2.2) he
  exact ⟨x', y', hx', hparameters ▸ hp, hy', Declaration.nameText_eq_of_signature hs⟩

theorem IsPlainFunction.congr (H : SameTree g h) (hf : g.IsPlainFunction f) : h.IsPlainFunction f := by
  obtain ⟨x, hx, hfunction, hplain⟩ := hf
  obtain ⟨x', hx', hs⟩ := H.exists_declaration hx
  have hk : x'.kind = x.kind := Declaration.kind_eq_of_signature hs
  exact ⟨x', hx', hk ▸ hfunction, hk ▸ hplain⟩

/-- No type has a parameter of a function as a member. -/
theorem ListsUnused.not_mem_membersWhere {a : DeclId} {x : Declaration} {r : Declaration → Bool}
    (hp : h.ListsUnused f p n) (hf : h.IsPlainFunction f) (hh : h.Nested) (hl : l.Nested)
    (H : SameTree l h) (hx : l.declaration? a = some x) (htype : x.kind.isType = true) :
    p ∉ l.membersWhere a r := by
  intro hmember
  obtain ⟨y, -, hy, hlisted, -, -⟩ := hp
  obtain ⟨x', -, hx', hmember, -⟩ := mem_membersWhere.1 hmember
  have hparent : h.parentOf? p = some f :=
    (hh.child_iff f p).1 (mem_childrenOf_iff.2 ⟨y, hy, .inr hlisted⟩)
  have hparent' : l.parentOf? p = some a :=
    (hl.child_iff a p).1 (mem_childrenOf_iff.2 ⟨x', hx', .inl hmember⟩)
  rw [H.parentOf?, hparent'] at hparent
  cases hparent
  obtain ⟨z, hz, hfunction, -⟩ := hf.congr H.symm
  rw [hx] at hz
  cases hz
  revert htype hfunction
  cases x.kind <;> decide

end Graph

section Analysis

variable (hg : g.Ingested) (hnone : (analyse s g).failure = none)

include hg hnone

/-- A parameter is one all along, and under the same name. -/
theorem exists_parameter_whenStarts (hp : (analyse s g).graph.ListsUnused f p n) (pass : Pass) :
    ∃ z, (whenStarts s g pass).declaration? p = some z ∧ z.kind = .parameter ∧ z.nameText = n := by
  obtain ⟨x, y, hx, hlisted, hy, hn⟩ := hp
  have hparameter : (analyse s g).graph.IsParameter p :=
    (reachable_runPasses hg.reachable).listsParameters f x p hx hlisted
  have hlives : Outlives (whenStarts s g pass) (analyse s g).graph :=
    outlives_whenStarts hg.reachable.consistent hnone
  obtain ⟨z, hz, hs⟩ := hlives.declaration p y hy
  refine ⟨z, hz, ?_, ?_⟩
  · rw [← Declaration.kind_eq_of_signature hs, hparameter.kind hy]
  · rw [← Declaration.nameText_eq_of_signature hs, hn]

/-- The patterns of the settings look at the name alone. -/
theorem picks_patterns_iff (hp : (analyse s g).graph.ListsUnused f p n) :
    p ∈ Pass.patterns.picks s (whenStarts s g .patterns) ↔ s.RetainsName n := by
  obtain ⟨z, hz, -, rfl⟩ := exists_parameter_whenStarts hg hnone hp .patterns
  generalize whenStarts s g .patterns = l at hz ⊢
  refine Retention.mem_patterns.trans ⟨?_, fun hretains => ⟨z, hz, hretains⟩⟩
  rintro ⟨z', hz', hretains⟩
  rw [hz] at hz'
  cases hz'
  exact hretains

/-- No other pass picks a parameter of a function. -/
theorem mem_of_picks_listed (hf : (analyse s g).graph.IsPlainFunction f)
    (hp : (analyse s g).graph.ListsUnused f p n) (hpick : p ∈ pass.picks s (whenStarts s g pass)) :
    pass ∈ .directives :: .patterns :: .unusedParameters :: Pass.singling := by
  have hc := hg.reachable.consistent
  have hh : (analyse s g).graph.Consistent := coherent_runPasses hc
  have hl : (whenStarts s g pass).Consistent := coherent_runPasses hc
  obtain ⟨z, hz, hkind, -⟩ := exists_parameter_whenStarts hg hnone hp pass
  refine Pass.mem_of_picks_parameter hl.toIndexed ⟨z, hz, hkind⟩ (fun hcase => ?_) hpick
  -- both passes come after folding, and then the function is what encloses its parameter
  have H : SameTree (whenStarts s g pass) (analyse s g).graph := by
    rcases hcase with rfl | rfl
    · exact sameTree_whenStarts Pass.all_cut_propertyWrappers rfl (by decide) (by decide) hc hnone
    · exact sameTree_whenStarts Pass.all_cut_assets rfl (by decide) (by decide) hc hnone
  exact fun a x r => hp.not_mem_membersWhere hf hh.toNested hl.toNested H

variable (hon : s.detection.unusedParameters = true)

include hon

/-- Families are looked at in the tree of the end. -/
theorem sameTree_whenStarts_unusedParameters :
    SameTree (whenStarts s g .unusedParameters) (analyse s g).graph :=
  sameTree_whenStarts Pass.all_cut_unusedParameters hon (by decide) (by decide)
    hg.reachable.consistent hnone

theorem picks_unusedParameters_iff (hf : (analyse s g).graph.IsPlainFunction f)
    (hp : (analyse s g).graph.ListsUnused f p n) :
    p ∈ Pass.unusedParameters.picks s (whenStarts s g .unusedParameters) ↔
      Stays s (whenStarts s g .unusedParameters) f n := by
  have hc := hg.reachable.consistent
  have hh : (analyse s g).graph.Consistent := coherent_runPasses hc
  have hk : (whenStarts s g .unusedParameters).Consistent := coherent_runPasses hc
  have H := sameTree_whenStarts_unusedParameters hg hnone hon
  generalize whenStarts s g .unusedParameters = k at hk H ⊢
  refine (Parameters.mem_kept hk.toIndexed).trans ⟨?_, fun hstays => ?_⟩
  · rintro ⟨f', n', -, hp', hstays⟩
    obtain ⟨rfl, rfl⟩ := hp.unique hh.toNested (hp'.congr H)
    exact hstays
  · exact ⟨f, n, hf.congr H.symm, hp.congr H.symm, hstays⟩

/-- **Why a parameter that a function does not use is retained in the end.** -/
theorem isRetained_listed_iff (hf : (analyse s g).graph.IsPlainFunction f)
    (hp : (analyse s g).graph.ListsUnused f p n) :
    (analyse s g).graph.isRetained p = true ↔ SingledOut s g p ∨ s.RetainsName n ∨
      Stays s (whenStarts s g .unusedParameters) f n := by
  have hnested := hg.reachable.consistent.toNested
  obtain ⟨x, y, hx, hlisted, hy, -⟩ := id hp
  have hparameter : (analyse s g).graph.IsParameter p :=
    (reachable_runPasses hg.reachable).listsParameters f x p hx hlisted
  rw [isRetained_analyse_iff hg hnone hy (by rw [hparameter.kind hy]; rfl)]
  constructor
  · rintro ⟨pass, -, hpick⟩
    have hpass := mem_of_picks_listed hg hnone hf hp hpick
    simp only [List.mem_cons] at hpass
    rcases hpass with rfl | rfl | rfl | hsingle
    · rcases (picks_directives hnested).1 hpick with ⟨a, ha, hup⟩ | hnamed
      · exact .inl (.addressed ha hup)
      · exact .inl (.named hnamed)
    · exact .inr (.inl ((picks_patterns_iff hg hnone hp).1 hpick))
    · exact .inr (.inr ((picks_unusedParameters_iff hg hnone hon hf hp).1 hpick))
    · exact .inl (.rule hsingle hpick)
  · have hstandard : ∀ pass ∈ Pass.all, pass.isEnabled s.detection = true → pass ∈ standardPasses s :=
      fun pass hmem he => List.mem_filter.2 ⟨hmem, he⟩
    have hsingle : ∀ pass ∈ Pass.singling, pass ∈ Pass.all ∧ pass.isEnabled s.detection = true := by
      simp only [Pass.singling, List.forall_mem_cons]
      exact ⟨⟨by decide, rfl⟩, ⟨by decide, rfl⟩, ⟨by decide, rfl⟩, ⟨by decide, rfl⟩,
        ⟨by decide, rfl⟩, fun _ hmem => absurd hmem List.not_mem_nil⟩
    rintro (hsingled | hname | hstays)
    · cases hsingled with
      | addressed ha hup =>
          exact ⟨.directives, hstandard _ (by decide) rfl,
            (picks_directives hnested).2 (.inl ⟨_, ha, hup⟩)⟩
      | named hnamed =>
          exact ⟨.directives, hstandard _ (by decide) rfl,
            (picks_directives hnested).2 (.inr hnamed)⟩
      | rule hmem hpick =>
          exact ⟨_, hstandard _ (hsingle _ hmem).1 (hsingle _ hmem).2, hpick⟩
    · exact ⟨.patterns, hstandard _ (by decide) rfl, (picks_patterns_iff hg hnone hp).2 hname⟩
    · exact ⟨.unusedParameters, hstandard _ (by decide) hon,
        (picks_unusedParameters_iff hg hnone hon hf hp).2 hstays⟩

end Analysis

/-! ## Families -/

/-- Who is not alone in its family is a function. -/
theorem Graph.SameFamily.isPlainFunction (h : g.SameFamily f m) (hne : m ≠ f) :
    g.IsPlainFunction f := by
  induction h with
  | rel a b hab => exact hab.left
  | refl a => exact absurd rfl hne
  | symm a b hab ih => exact (SameFamily.isPlainFunction_iff hab).1 (ih hne.symm)
  | trans a b c hab hbc ih ih' =>
      by_cases hba : b = a
      · rw [hba] at ih'
        exact ih' hne
      · exact ih hba

/-- In a family that leaves a name unused, what keeps the name in one function keeps it in all. -/
theorem Stays.transfer (hfamily : k.SameFamily f m) (hfree : k.isProtocolMember m = false)
    (hunused : ∀ a, k.SameFamily f a → k.isProtocolMember a = false → ∃ p, k.ListsUnused a p n)
    (hstays : Stays s k m n) : Stays s k f n := by
  cases hstays with
  | outside hm hforeign => exact .outside (hfamily.trans hm) hforeign
  | required on hm hmember => exact .required on (hfamily.trans hm) hmember
  | requirement hmember => rw [hfree] at hmember; cases hmember
  | discarded hn => exact .discarded hn
  | needed hm _ hfree' huses =>
      obtain ⟨p, hp⟩ := hunused _ (hfamily.trans hm) hfree'
      exact absurd hp (huses p)

/-- `ReportsFamilies s g k h`: which unused parameters are reported of `h`, where `k` says what the
families are, and `g` what the directives say. -/
structure ReportsFamilies (s : Settings) (g k h : Graph) : Prop where
  /-- Those of used functions are reported, unless they are hidden or retained. -/
  reports : ∀ f p n, h.ListsUnused f p n →
    (ReportsParameter s h f p ↔ Shows s h f p ∧ h.isRetained p = false)
  /-- Retained are those that are singled out, and those whose name the settings or the family
  retain. -/
  retained : ∀ f p n, h.IsPlainFunction f → h.ListsUnused f p n →
    (h.isRetained p = true ↔ SingledOut s g p ∨ s.RetainsName n ∨ Stays s k f n)
  /-- Where one is reported, every other function of the family that is no requirement leaves the name
  unused, too, and retains it only where it is singled out. -/
  family : ∀ f p n, h.ListsUnused f p n → ReportsParameter s h f p →
    ∀ m, k.SameFamily f m → m ≠ f → k.isProtocolMember m = false →
      (∃ q, h.ListsUnused m q n) ∧
        ∀ q, h.ListsUnused m q n → (h.isRetained q = true ↔ SingledOut s g q)

/-- **What is reported of one function of a family is retained of another one only where it is singled
out there.** -/
theorem reportsFamilies_of_ingested (hg : g.Ingested) (hon : s.detection.unusedParameters = true)
    (hnone : (analyse s g).failure = none) :
    ReportsFamilies s g (whenStarts s g .unusedParameters) (analyse s g).graph := by
  have hh : (analyse s g).graph.Consistent := coherent_runPasses hg.reachable.consistent
  have H := sameTree_whenStarts_unusedParameters hg hnone hon
  refine ⟨fun f p n hp => reportsParameter_iff hh.toNested hon hp,
    fun f p n hf hp => isRetained_listed_iff hg hnone hon hf hp,
    fun f p n hp hreport m hm hne hfree => ?_⟩
  have hf := hm.isPlainFunction hne
  obtain ⟨-, hfreed⟩ := (reportsParameter_iff hh.toNested hon hp).1 hreport
  have hnot : ¬ (SingledOut s g p ∨ s.RetainsName n ∨
      Stays s (whenStarts s g .unusedParameters) f n) := fun hreason => by
    rw [(isRetained_listed_iff hg hnone hon (hf.congr H) hp).2 hreason] at hfreed
    cases hfreed
  have hstays : ¬ Stays s (whenStarts s g .unusedParameters) f n := fun hstays =>
    hnot (.inr (.inr hstays))
  have hunused : ∀ a, (whenStarts s g .unusedParameters).SameFamily f a →
      (whenStarts s g .unusedParameters).isProtocolMember a = false →
      ∃ q, (whenStarts s g .unusedParameters).ListsUnused a q n := by
    intro a ha hafree
    by_cases hself : a = f
    · exact ⟨p, hself ▸ hp.congr H.symm⟩
    · by_contra hnone
      exact hstays (.needed ha hself hafree (not_exists.1 hnone))
  obtain ⟨q, hq⟩ := hunused m hm hfree
  refine ⟨⟨q, hq.congr H⟩, fun q hq => ?_⟩
  have hm' := (hm.isPlainFunction_iff.1 hf).congr H
  rw [isRetained_listed_iff hg hnone hon hm' hq]
  refine or_iff_left ?_
  rintro (hname | hother)
  · exact hnot (.inr (.inl hname))
  · exact hstays (hother.transfer hm hfree hunused)

/-- A method and its override, neither of which uses its parameter.  A directive at the override names
the parameter. -/
def silencedOverride : Document :=
  { fragments := [
      { file := { path := ⟨"Handlers.swift"⟩, modules := .singleton "App" }
        declarations := [
          { kind := .classType, usrs := ["Base"], name := some "Base", line := 1
            declarations := [
              { kind := .instanceMethod, usrs := ["Base.handle"], name := some "handle(event:)", line := 2
                unusedParameters := [
                  { kind := .parameter, usrs := ["Base.handle.event"], name := some "event", line := 2
                    column := 17 }] }] },
          { kind := .classType, usrs := ["Sub"], name := some "Sub", line := 4
            related := [{ kind := .classType, usr := "Base", line := 4, role := .inheritedType }]
            declarations := [
              { kind := .instanceMethod, usrs := ["Sub.handle"], name := some "handle(event:)", line := 6
                modifiers := ["override"], comments := ["swiftdeadcode:ignore:parameters event"]
                related := [{ kind := .instanceMethod, usr := "Base.handle", line := 6 }]
                unusedParameters := [
                  { kind := .parameter, usrs := ["Sub.handle.event"], name := some "event", line := 6
                    column := 26 }] }] }]
        references := [
          { kind := .classType, usr := "Sub", line := 9 },
          { kind := .instanceMethod, usr := "Base.handle", line := 10 }] }] }

/-- The parameter of the method is reported, and the one of the override is singled out. -/
theorem reportsFamilies_of_ingested_silencedOverride :
    let g := (ofDocument silencedOverride).1
    let k := whenStarts {} g .unusedParameters
    let h := (analyse {} g).graph
    ReportsFamilies {} g k h ∧
      (Finding.collect {} h).map (fun e => (e.name, e.location.line)) = [("event", 2)] ∧
      h.isRetained ⟨2⟩ = false ∧ h.isRetained ⟨5⟩ = true ∧ SingledOut {} g ⟨5⟩ := by
  intro g k h
  have hrun : (analyse {} g).failure = none ∧
      (Finding.collect {} h).map (fun e => (e.name, e.location.line)) = [("event", 2)] ∧
      h.isRetained ⟨2⟩ = false ∧ h.isRetained ⟨5⟩ = true ∧ ⟨5⟩ ∈ Directives.keptParameters g := by
    decide +kernel
  obtain ⟨hnone, hfindings, hfree, hretained, hnamed⟩ := hrun
  exact ⟨reportsFamilies_of_ingested (Ingested.empty.ingest silencedOverride) rfl hnone, hfindings,
    hfree, hretained, .named hnamed⟩

/-- **A family does not keep one signature**, though no requirement is in it. -/
theorem not_one_signature_silencedOverride : ¬ ∀ (s : Settings) (g : Graph), g.Ingested →
    s.detection.unusedParameters = true → (analyse s g).failure = none →
    ∀ f p n m q, ReportsParameter s (analyse s g).graph f p → (analyse s g).graph.ListsUnused f p n →
      (whenStarts s g .unusedParameters).SameFamily f m → m ≠ f →
      (whenStarts s g .unusedParameters).isProtocolMember m = false →
      (analyse s g).graph.ListsUnused m q n → (analyse s g).graph.isRetained q = false := by
  intro hall
  have hg : (ofDocument silencedOverride).1.Ingested := Ingested.empty.ingest silencedOverride
  have hone := hall {} _ hg rfl
  have hk : (whenStarts {} (ofDocument silencedOverride).1 .unusedParameters).Consistent :=
    coherent_runPasses hg.reachable.consistent
  have hh : (analyse {} (ofDocument silencedOverride).1).graph.Consistent :=
    coherent_runPasses hg.reachable.consistent
  have hrun : let k := whenStarts {} (ofDocument silencedOverride).1 .unusedParameters
      let h := (analyse {} (ofDocument silencedOverride).1).graph
      (analyse {} (ofDocument silencedOverride).1).failure = none ∧
        (⟨1⟩, ⟨4⟩) ∈ Parameters.links k (Parameters.functions k) ∧ k.isProtocolMember ⟨4⟩ = false ∧
        (⟨2⟩, "event") ∈ Parameters.namedParameters h ⟨1⟩ ∧
        (⟨5⟩, "event") ∈ Parameters.namedParameters h ⟨4⟩ ∧ h.isUsed ⟨1⟩ = true ∧
        h.isIgnored ⟨1⟩ = false ∧ h.isIgnored ⟨2⟩ = false ∧ h.isRetained ⟨2⟩ = false ∧
        h.isRetained ⟨5⟩ = true := by
    decide +kernel
  generalize whenStarts {} (ofDocument silencedOverride).1 .unusedParameters = k at hone hk hrun
  generalize analyse {} (ofDocument silencedOverride).1 = o at hone hh hrun
  obtain ⟨hnone, hlinks, hmember, hbase, hsub, hused, hreported, hshown, hfree, hretained⟩ := hrun
  have hbase := Parameters.mem_namedParameters.1 hbase
  have hreports : ReportsParameter {} o.graph ⟨1⟩ ⟨2⟩ := by
    obtain ⟨-, x, -, -, hx, -⟩ := id hbase
    exact (reportsParameter_iff hh.toNested rfl hbase).2
      ⟨⟨hused, hreported, hshown, x, hx, rfl⟩, hfree⟩
  have hkin := (Parameters.mem_links hk.toIndexed).1 hlinks
  have hfalse := hone hnone ⟨1⟩ ⟨2⟩ "event" ⟨4⟩ ⟨5⟩ hreports hbase (.rel _ _ hkin) (by decide) hmember
    (Parameters.mem_namedParameters.1 hsub)
  rw [hretained] at hfalse
  cases hfalse

end Deadwood

/-
  Narrowing a tier hides nothing from its uses.

  1. **Uses (`UseOf`)** — a declaration is used where it is named, where anything nested in it is, and a
     protocol also where what its extensions bring is.

  2. **Scopes (`SeesModulesOf`, `InFileOf`, `InTopLevelOf`)** — where a reference has to stand to see
     something internal, fileprivate or private.  `Fits` says from them which tier serves every use.

  3. **What is recorded (`Pass.exists_run`)** — a pass judges the extensions last, and each of them gets an
     entry of its own.  So what it records of anything else does not depend on them, not even where it
     gives up on one of them.

  4. **All passes (`hidesNothing_of_stored`)** — one of them records a declaration if and only if it has
     that tier in writing and a narrower one fits.
-/
import Deadwood.Proofs.Access.Signatures
import Deadwood.Proofs.Filing

namespace Deadwood

open Deadwood.Graph RedundantAccess

variable {s : Settings} {g : Graph} {c d : DeclId} {r : RefId} {declared tier : Tier}
  {e : RedundantAccess} {pass : Pass}

namespace Graph

/-! ## Uses and scopes -/

/-- `UseOf g d r`: the reference names `d`, something nested in it, or something nested in a protocol
extension of it. -/
def UseOf (g : Graph) (d : DeclId) (r : RefId) : Prop :=
  ∃ t, g.Names r t ∧ (g.Encloses d t ∨ g.InExtensionOf t d)

/-- `SeesModulesOf g d r`: the file of the reference belongs to no other modules than the file of `d`, or
has one of these opened to its tests. -/
def SeesModulesOf (g : Graph) (d : DeclId) (r : RefId) : Prop :=
  ∃ x y, g.declaration? d = some x ∧ g.reference? r = some y ∧
    ((∀ m ∈ (g.modulesOf y.location.file).toList, m ∈ (g.modulesOf x.location.file).toList) ∨
      ∃ f, g.file? y.location.file = some f ∧ ∃ i ∈ f.imports, i.isTestable = true ∧
        i.module ∈ (g.modulesOf x.location.file).toList)

/-- `InFileOf g d r`: the reference stands in the file of `d`. -/
def InFileOf (g : Graph) (d : DeclId) (r : RefId) : Prop :=
  ∃ x y, g.declaration? d = some x ∧ g.reference? r = some y ∧
    y.location.file.components = x.location.file.components

/-- `InTopLevelOf g d r`: a declaration makes the reference, and its outermost declaration is that of
`d`. -/
def InTopLevelOf (g : Graph) (d : DeclId) (r : RefId) : Prop :=
  ∃ o, r ∈ g.referencesFrom o ∧ g.topLevelAncestor o = g.topLevelAncestor d

/-- `WitnessesAt g d tier`: another declaration, a member of a protocol of that tier or a wider one, has
a structural reference to `d`. -/
def WitnessesAt (g : Graph) (d : DeclId) (tier : Tier) : Prop :=
  ∃ m r x p y, m ≠ d ∧ g.Names r d ∧ g.reference? r = some x ∧ x.isRelated = true ∧
    r ∈ g.referencesFrom m ∧ g.parentOf? m = some p ∧ g.declaration? p = some y ∧
    y.kind = .protocolType ∧ tier.rank ≤ y.access.tier.rank

end Graph

/-- `Fits s g d declared suggested`: every use of `d` still sees it in the suggested tier. -/
inductive Fits (s : Settings) (g : Graph) (d : DeclId) : Tier → Tier → Prop where
  /-- No other module uses it, takes over a body that does, or sees a signature with it. -/
  | toInternal (judged : s.retainPublic = false) (seen : ∀ r, g.UseOf d r → g.SeesModulesOf d r)
      (inlined : hasInlinableCaller g d = false) (exposed : isInExposedSignature g d = false) :
      Fits s g d .publicTier .internalTier
  /-- Every use stands in its file, and all of them inside its outermost declaration. -/
  | toPrivate (seen : ∀ r, g.UseOf d r → g.InFileOf d r)
      (within : ∀ r, g.UseOf d r → g.InTopLevelOf d r) : Fits s g d .internalTier .privateTier
  /-- Every use stands in its file, but not all of them inside its outermost declaration. -/
  | toFileprivate (seen : ∀ r, g.UseOf d r → g.InFileOf d r)
      (beyond : ¬ ∀ r, g.UseOf d r → g.InTopLevelOf d r) : Fits s g d .internalTier .fileprivateTier
  /-- Every use stands inside its outermost declaration. -/
  | within (within : ∀ r, g.UseOf d r → g.InTopLevelOf d r) : Fits s g d .fileprivateTier .privateTier

/-- What is recorded of a declaration whose written tier is wider than its uses need. -/
structure Narrowed (s : Settings) (g : Graph) (d : DeclId) (e : RedundantAccess) : Prop where
  written : ∃ x, g.declaration? d = some x ∧ x.access = ⟨e.declared, true⟩ ∧ x.isImplicit = false ∧
    e.file = x.location.file ∧ e.modules = g.modulesOf x.location.file
  used : g.isUsed d = true
  free : g.isRetained d = false
  unignored : g.isIgnored d = false
  /-- It satisfies no requirement of a protocol of that tier or a wider one. -/
  unwitnessed : ¬ g.WitnessesAt d e.declared
  /-- The syntax of property wrappers does not use it. -/
  unwrapped : isWrapperMember g d = false
  fits : Fits s g d e.declared e.suggested

/-! ## What the verdicts say -/

theorem RedundantAccess.mem_usesOf (hg : g.Filed) : r ∈ usesOf g d ↔ g.UseOf d r := by
  simp only [usesOf, mem_sortedReferences, List.mem_flatMap, List.cons_append, List.mem_cons,
    List.mem_append, mem_descendants, hg.toOwned.mem_referencesTo, hg.toIndexed.mem_protocolExtensions]
  constructor
  · rintro ⟨⟨t, (rfl | ⟨hdown, -⟩ | ⟨x, hx, hdown, hne⟩), hn⟩, -⟩
    · exact ⟨t, hn, .inl (.here (mem_declIds.2 (Reachability.Names.live hn)))⟩
    · exact ⟨t, hn, .inl hdown⟩
    · exact ⟨t, hn, .inr ⟨x, hx, hdown, hne⟩⟩
  · rintro ⟨t, hn, hdown⟩
    obtain ⟨y, -, hy, -⟩ := id hn
    refine ⟨⟨t, ?_, hn⟩, hasReference_of_eq hy⟩
    rcases hdown with hdown | ⟨x, hx, hdown, hne⟩
    · by_cases hself : t = d
      · exact .inl hself
      · exact .inr (.inl ⟨hdown, hself⟩)
    · exact .inr (.inr ⟨x, hx, hdown, hne⟩)

theorem RedundantAccess.satisfiesRequirement_iff (hg : g.Owned) :
    satisfiesRequirement g d tier = true ↔ g.WitnessesAt d tier := by
  simp only [satisfiesRequirement, List.any_eq_true, Bool.and_eq_true, Option.any_eq_true,
    hg.mem_referencesTo, hg.referencingDeclaration?_eq_some_iff, decide_eq_true_eq, isProtocolMember,
    parentDeclaration?, Option.bind_eq_some_iff, beq_iff_eq]
  constructor
  · rintro ⟨r, hn, ⟨x, hx, hrelated⟩, m, hm, ⟨hne, y, ⟨p, hp, hy⟩, hk⟩, y', ⟨p', hp', hy'⟩, hrank⟩
    rw [hp] at hp'
    cases hp'
    rw [hy] at hy'
    cases hy'
    exact ⟨m, r, x, p, y, hne, hn, hx, hrelated, hm, hp, hy, hk, hrank⟩
  · rintro ⟨m, r, x, p, y, hne, hn, hx, hrelated, hm, hp, hy, hk, hrank⟩
    exact ⟨r, hn, ⟨x, hx, hrelated⟩, m, hm, ⟨hne, y, ⟨p, hp, hy⟩, hk⟩, y, ⟨p, hp, hy⟩, hrank⟩

theorem RedundantAccess.isBound_eq_false_iff (hg : g.Owned) :
    isBound g d tier = false ↔ isWrapperMember g d = false ∧ ¬ g.WitnessesAt d tier := by
  rw [isBound, Bool.or_eq_false_iff, ← satisfiesRequirement_iff hg, Bool.not_eq_true]

/-- A use never comes from another module if it sees what its own modules keep to themselves. -/
theorem RedundantAccess.isUsedCrossModule_eq_false_iff (hg : g.Filed) (hd : g.hasDeclaration d = true) :
    isUsedCrossModule g d = false ↔ ∀ r, g.UseOf d r → g.SeesModulesOf d r := by
  obtain ⟨x, hx⟩ := hasDeclaration_iff.1 hd
  have hone : ∀ r, g.UseOf d r → (isCrossModule g d r = false ↔ g.SeesModulesOf d r) := by
    rintro r ⟨t, ⟨y, -, hy, -⟩, -⟩
    have hopened : (g.file? y.location.file).any (fun file =>
        (g.modulesOf x.location.file).toList.any file.importsTestable) = true ↔
        ∃ f, g.file? y.location.file = some f ∧ ∃ i ∈ f.imports, i.isTestable = true ∧
          i.module ∈ (g.modulesOf x.location.file).toList := by
      simp only [Option.any_eq_true, List.any_eq_true, SourceFile.importsTestable, Bool.and_eq_true,
        beq_iff_eq]
      refine exists_congr fun f => and_congr_right fun _ => ?_
      constructor
      · rintro ⟨m, hm, i, hi, htestable, rfl⟩
        exact ⟨i, hi, htestable, hm⟩
      · rintro ⟨i, hi, htestable, hm⟩
        exact ⟨i.module, hm, i, hi, htestable, rfl⟩
    simp only [isCrossModule, SeesModulesOf, hx, hy, Bool.and_eq_false_iff, Bool.not_eq_false',
      hopened, SortedSet.subset, List.all_eq_true, SortedSet.contains_iff, Option.some.injEq,
      exists_eq_left', existsAndEq, true_and]
  rw [isUsedCrossModule, List.any_eq_false]
  simp only [Bool.not_eq_true, mem_usesOf hg]
  exact forall_congr' fun r => forall_congr' fun hr => hone r hr

theorem RedundantAccess.all_inFile_iff (hg : g.Filed) {x : Declaration} (hx : g.declaration? d = some x) :
    ((usesOf g d).all fun r => (g.reference? r).any fun y => y.location.file.same x.location.file) =
      true ↔ ∀ r, g.UseOf d r → g.InFileOf d r := by
  simp only [List.all_eq_true, mem_usesOf hg, Option.any_eq_true, Path.same, beq_iff_eq, InFileOf, hx,
    Option.some.injEq, existsAndEq, true_and]

theorem RedundantAccess.areWithinTopLevel_iff (hg : g.Filed) :
    areWithinTopLevel g d (usesOf g d) = true ↔ ∀ r, g.UseOf d r → g.InTopLevelOf d r := by
  simp only [areWithinTopLevel, List.all_eq_true, mem_usesOf hg, Option.any_eq_true, beq_iff_eq,
    hg.toOwned.referencingDeclaration?_eq_some_iff, InTopLevelOf]

theorem RedundantAccess.suggestForPublic_eq_some_iff (hg : g.Filed) (hd : g.hasDeclaration d = true)
    (hon : s.retainPublic = false) : suggestForPublic g d = some tier ↔
      isBound g d .publicTier = false ∧ Fits s g d .publicTier tier := by
  simp only [suggestForPublic, Option.ite_none_right_eq_some, Bool.and_eq_true, Bool.not_eq_true',
    isUsedCrossModule_eq_false_iff hg hd, Option.some.injEq]
  constructor
  · rintro ⟨⟨⟨⟨hseen, hinlined⟩, hbound⟩, hexposed⟩, rfl⟩
    exact ⟨hbound, .toInternal hon hseen hinlined hexposed⟩
  · rintro ⟨hbound, hfits⟩
    cases hfits with
    | toInternal _ hseen hinlined hexposed => exact ⟨⟨⟨⟨hseen, hinlined⟩, hbound⟩, hexposed⟩, rfl⟩

theorem RedundantAccess.suggestForInternal_eq_some_iff (hg : g.Filed)
    (hd : g.hasDeclaration d = true) : suggestForInternal g d = some tier ↔
      isBound g d .internalTier = false ∧ Fits s g d .internalTier tier := by
  obtain ⟨x, hx⟩ := hasDeclaration_iff.1 hd
  simp only [suggestForInternal, hx, Option.bind_eq_bind, Option.bind_some, bind_guard,
    Option.ite_none_right_eq_some, Option.pure_def, Option.some.injEq, Bool.not_eq_true',
    all_inFile_iff hg hx]
  refine and_congr_right fun _ => ?_
  have hwithin := areWithinTopLevel_iff hg (d := d)
  constructor
  · rintro ⟨hseen, rfl⟩
    split
    · rename_i hall
      exact .toPrivate hseen (hwithin.1 hall)
    · rename_i hnot
      exact .toFileprivate hseen (hwithin.not.1 hnot)
  · intro hfits
    cases hfits with
    | toPrivate hseen hall => exact ⟨hseen, if_pos (hwithin.2 hall)⟩
    | toFileprivate hseen hnot => exact ⟨hseen, if_neg (hwithin.not.2 hnot)⟩

theorem RedundantAccess.suggestForFileprivate_eq_some_iff (hg : g.Filed) :
    suggestForFileprivate g d = some tier ↔
      isBound g d .fileprivateTier = false ∧ Fits s g d .fileprivateTier tier := by
  simp only [suggestForFileprivate, Option.ite_none_right_eq_some, Bool.and_eq_true,
    Bool.not_eq_true', areWithinTopLevel_iff hg, Option.some.injEq]
  constructor
  · rintro ⟨⟨hbound, hwithin⟩, rfl⟩
    exact ⟨hbound, .within hwithin⟩
  · rintro ⟨hbound, hfits⟩
    cases hfits with
    | within hwithin => exact ⟨⟨hbound, hwithin⟩, rfl⟩

/-- What is found out about a candidate that is no extension. -/
theorem RedundantAccess.bind_sentence?_eq_some_iff (hg : g.Filed) (hplain : isExtension g d = false)
    (sameScope : Graph → DeclId → DeclId → Bool) {suggest : Graph → DeclId → Option Tier}
    (hsuggest : g.hasDeclaration d = true → ∀ t, suggest g d = some t ↔
      isBound g d declared = false ∧ Fits s g d declared t) :
    (sentence? declared suggest sameScope g d).bind (entryOf? g declared d) = some e ↔
      e.declared = declared ∧ Narrowed s g d e := by
  have hown : sentence? declared suggest sameScope g d = ownTier? declared suggest g d :=
    if_neg fun h => by rw [hplain] at h; exact Bool.false_ne_true h.2
  rw [hown, Option.bind_eq_some_iff]
  simp only [ownTier?, Option.ite_none_right_eq_some, mem_candidates_iff, entryOf?,
    Option.map_eq_some_iff]
  constructor
  · rintro ⟨t, ⟨⟨⟨⟨x, hx, haccess, hwritten⟩, hused, hfree, hunignored⟩, -⟩, ht⟩, y, hy, rfl⟩
    rw [hx] at hy
    cases hy
    obtain ⟨hbound, hfits⟩ := (hsuggest (hasDeclaration_of_eq hx) t).1 ht
    obtain ⟨hunwrapped, hunwitnessed⟩ := (isBound_eq_false_iff hg.toOwned).1 hbound
    exact ⟨rfl, ⟨x, hx, haccess, hwritten, rfl, rfl⟩, hused, hfree, hunignored, hunwitnessed,
      hunwrapped, hfits⟩
  · rintro ⟨rfl, H⟩
    obtain ⟨x, hx, haccess, hwritten, hfile, hmodules⟩ := H.written
    refine ⟨e.suggested, ⟨⟨⟨⟨x, hx, haccess, hwritten⟩, H.used, H.free, H.unignored⟩, hplain⟩, ?_⟩, x,
      hx, ?_⟩
    · exact (hsuggest (hasDeclaration_of_eq hx) _).2
        ⟨(isBound_eq_false_iff hg.toOwned).2 ⟨H.unwrapped, H.unwitnessed⟩, H.fits⟩
    · obtain ⟨_, _, modules, file⟩ := e
      cases hfile
      cases hmodules
      rfl

/-- **What the passes find out about a declaration that is no extension.** -/
theorem Pass.exists_verdict?_iff (hg : g.Filed) (hplain : isExtension g d = false) :
    (∃ p ∈ Pass.tiers, p.verdict? s g d = some e) ↔ Narrowed s g d e := by
  have hinternal := bind_sentence?_eq_some_iff (s := s) (e := e) hg hplain sameFile
    fun hd _ => suggestForInternal_eq_some_iff hg hd
  have hfileprivate := bind_sentence?_eq_some_iff (s := s) (e := e) hg hplain sameFile
    fun _ _ => suggestForFileprivate_eq_some_iff hg
  simp only [Pass.tiers, List.exists_mem_cons_iff, Pass.verdict?, hinternal, hfileprivate,
    List.not_mem_nil, false_and, exists_false, or_false]
  have hpublic : (if s.retainPublic = true then none
      else (sentence? .publicTier suggestForPublic sameModules g d).bind (entryOf? g .publicTier d)) =
        some e ↔ e.declared = .publicTier ∧ Narrowed s g d e := by
    cases hon : s.retainPublic with
    | true =>
        refine iff_of_false (fun h => by cases h) ?_
        rintro ⟨hdeclared, H⟩
        have hfits := H.fits
        generalize e.declared = t, e.suggested = t' at hdeclared hfits
        cases hfits with
        | toInternal hoff => rw [hon] at hoff; cases hoff
        | _ => cases hdeclared
    | false =>
        rw [if_neg Bool.false_ne_true]
        exact bind_sentence?_eq_some_iff hg hplain sameModules fun hd _ =>
          suggestForPublic_eq_some_iff hg hd hon
  rw [hpublic, ← or_and_right, ← or_and_right]
  refine and_iff_right_of_imp fun H => ?_
  have hfits := H.fits
  generalize e.declared = t, e.suggested = t' at hfits ⊢
  cases hfits <;> simp

/-! ## What the passes record -/

/-- A pass that judges a tier records what it finds out about whatever is no extension, even where it
gives up on an extension. -/
theorem Pass.exists_run (hp : pass ∈ Pass.tiers) : ∃ m, (pass.run s g).graph = g.withAccess m ∧
    ∀ c, isExtension g c = false →
      m.find? c = (pass.verdict? s g c).or (g.redundantAccess.find? c) := by
  have hown : ∀ {declared suggest sameScope c}, isExtension g c = false →
      sentence? declared suggest sameScope g c = ownTier? declared suggest g c := fun hc =>
    if_neg fun h => by rw [hc] at h; exact Bool.false_ne_true h.2
  have hjudge : ∀ declared suggest sameScope, ∃ m,
      (judge g declared suggest sameScope).graph = g.withAccess m ∧ ∀ c, isExtension g c = false →
        m.find? c = ((sentence? declared suggest sameScope g c).bind (entryOf? g declared c)).or
          (g.redundantAccess.find? c) := by
    intro declared suggest sameScope
    obtain ⟨m, hm, hfind⟩ := exists_judge (g := g) declared suggest sameScope
    refine ⟨m, hm, fun c hc => ?_⟩
    rw [hown hc]
    exact hfind c fun h => by rw [hc] at h; exact Bool.false_ne_true h.2
  have hcases : pass = .redundantPublic ∨ pass = .redundantInternal ∨ pass = .redundantFileprivate := by
    simpa [Pass.tiers] using hp
  rcases hcases with rfl | rfl | rfl
  · simp only [run, markPublic, verdict?]
    cases s.retainPublic with
    | true => exact ⟨g.redundantAccess, rfl, fun _ _ => rfl⟩
    | false => exact hjudge .publicTier suggestForPublic sameModules
  · exact hjudge .internalTier suggestForInternal sameFile
  · exact hjudge .fileprivateTier suggestForFileprivate sameFile

/-- **Narrowing a recorded tier hides nothing.** -/
theorem hidesNothing_of_stored (hg : g.Stored) (hnone : g.redundantAccess = ∅) :
    ∃ m, (runPasses s g Pass.tiers).graph = g.withAccess m ∧
      (∀ d e, isExtension g d = false → m.find? d = some e → Narrowed s g d e) ∧
      ((runPasses s g Pass.tiers).failure = none →
        ∀ d e, isExtension g d = false → Narrowed s g d e → m.find? d = some e) := by
  have hsound : ∃ m, (runPasses s g Pass.tiers).graph = g.withAccess m ∧
      ∀ d e, isExtension g d = false → m.find? d = some e →
        ∃ p ∈ Pass.tiers, p.verdict? s g d = some e := by
    refine runPasses_keeps (P := fun k => ∃ m, k = g.withAccess m ∧ ∀ d e, isExtension g d = false →
      m.find? d = some e → ∃ p ∈ Pass.tiers, p.verdict? s g d = some e) ?_ ⟨g.redundantAccess, rfl, ?_⟩
    · rintro _ pass hp ⟨m, rfl, hm⟩
      obtain ⟨m', hm', hfind⟩ := Pass.exists_run (s := s) (g := g.withAccess m) hp
      refine ⟨m', hm', fun d e hplain he => ?_⟩
      have hverdict : pass.verdict? s (g.withAccess m) d = pass.verdict? s g d :=
        Pass.verdict?_withResults
      rw [hfind d hplain, hverdict] at he
      rcases Option.or_eq_some_iff.1 he with hverdict | ⟨-, hold⟩
      · exact ⟨pass, hp, hverdict⟩
      · exact hm d e hplain hold
    · intro d e _ he
      rw [hnone] at he
      cases he
  obtain ⟨m, hm, hfound⟩ := hsound
  refine ⟨m, hm, fun d e hplain he => (Pass.exists_verdict?_iff hg.filed hplain).1 (hfound d e hplain he),
    fun hrun d e hplain H => ?_⟩
  have hunjudged : Unjudged Pass.tiers g :=
    .of_empty (fun p hp => Pass.exists_tier?_of_mem hp) (by decide) hnone
  obtain ⟨m', hm', hall⟩ := (hunjudged.runPasses (s := s)).2 hrun
  have hsame : m = m' := congrArg Graph.redundantAccess (hm.symm.trans hm')
  rw [hsame]
  exact (hall d e).2 (.inr ((Pass.exists_verdict?_iff hg.filed hplain).2 H))

/-- A public class that only its own module uses, an internal class that is used in its file, and a type
with an internal and a fileprivate method for itself.  A method of the type is called from a second
file. -/
def widgets : Document :=
  let method (usr : String) (line : Nat) : DeclarationNode :=
    { kind := .instanceMethod, usrs := [usr], line }
  { fragments := [
      { file := { path := ⟨"Kit.swift"⟩, modules := .singleton "Kit" }
        declarations := [
          { kind := .classType, usrs := ["Widget"], line := 1, accessibility := some .publicTier },
          { kind := .classType, usrs := ["Cell"], line := 3, accessibility := some .internalTier },
          { kind := .structType, usrs := ["Panel"], line := 5
            declarations := [
              { method "Panel.show" 6 with
                references := [
                  { kind := .instanceMethod, usr := "Panel.draw", line := 6 },
                  { kind := .instanceMethod, usr := "Panel.tint", line := 6, column := 9 }] },
              { method "Panel.draw" 7 with accessibility := some .internalTier },
              { method "Panel.tint" 8 with accessibility := some .fileprivateTier }] }]
        references := [{ kind := .classType, usr := "Cell", line := 12 }] },
      { file := { path := ⟨"Main.swift"⟩, modules := .singleton "Kit" }
        references := [
          { kind := .classType, usr := "Widget", line := 1 },
          { kind := .instanceMethod, usr := "Panel.show", line := 2 }] }] }

/-- These widgets, when it is known what is used. -/
def usedWidgets : Graph := (Pass.reachability.run {} (Graph.ofDocument widgets).1).graph

theorem hidesNothing_of_stored_widgets :
    let run := runPasses {} usedWidgets Pass.tiers
    run.failure = none ∧
    run.graph.redundantAccess.entries.map (fun f => (f.1, f.2.declared, f.2.suggested)) =
      [(⟨0⟩, .publicTier, .internalTier), (⟨1⟩, .internalTier, .fileprivateTier),
        (⟨4⟩, .internalTier, .privateTier), (⟨5⟩, .fileprivateTier, .privateTier)] ∧
    ∀ f ∈ run.graph.redundantAccess.entries, Narrowed {} usedWidgets f.1 f.2 := by
  intro run
  have hstored : usedWidgets.Stored := (Stored.empty.ingest widgets).run .reachability {}
  obtain ⟨m, hm, hsound, -⟩ := hidesNothing_of_stored (s := {}) hstored (by decide +kernel)
  have hresults : run.graph.redundantAccess = m := congrArg Graph.redundantAccess hm
  have hplain : ∀ f ∈ run.graph.redundantAccess.entries, isExtension usedWidgets f.1 = false := by
    decide +kernel
  refine ⟨by decide +kernel, by decide +kernel, fun f hf => hsound f.1 f.2 (hplain f hf) ?_⟩
  rw [← hresults]
  exact SortedMap.mem_entries_iff.1 hf

end Deadwood

/-
  What findings tell.

  1. **`Tells`** — a finding is about an import that is not used, or about one declaration, and there
     are five reasons for one: the declaration is unused, it is an unused parameter, a redundant
     protocol, its tier is redundant, or a directive keeps it from being reported.

  2. **`mem_collect_iff`** — these are the findings, no more and no fewer, in files that are not
     excluded.
-/
import Deadwood.Finding
import Deadwood.Proofs.SortedSet
import Deadwood.Proofs.Store.Query

namespace Deadwood

/-- A redundant tier is another matter than being unused. -/
theorem Issue.ne_of_ofTier? {tier : Tier} {issue : Issue} (h : Issue.ofTier? tier = some issue) :
    issue ≠ .unused ∧ issue ≠ .assignOnly := by
  revert h
  cases tier <;> rintro ⟨⟩ <;> decide

namespace Finding

open Deadwood.Graph

/-- `Tells s g f d`: there is the finding `f` about the declaration `d`. -/
inductive Tells (s : Settings) (g : Graph) : Finding → DeclId → Prop where
  /-- It is unused, and of a sort that is reported. -/
  | unused {d : DeclId} {x : Declaration} (hd : d ∈ g.unusedDeclarations)
      (hx : g.declaration? d = some x) (hr : isReportable g d x = true) :
      Tells s g (ofDeclaration x (if g.isMarked .assignOnly d then .assignOnly else .unused)) d
  /-- It is an unused parameter of a used function. -/
  | parameter {function p : DeclId} {y x : Declaration}
      (hon : s.detection.unusedParameters = true) (hused : g.isUsed function = true)
      (hreported : g.isIgnored function = false) (hy : g.declaration? function = some y)
      (hp : p ∈ y.parameters.toList) (hr : g.isRetained p = false) (hi : g.isIgnored p = false)
      (hx : g.declaration? p = some x) :
      Tells s g { ofDeclaration x .unusedParameter with
        message := s!"Parameter '{x.nameText}' of '{y.nameText}' is unused" } p
  /-- It is a redundant protocol. -/
  | proto {d : DeclId} {p : RedundantProtocol} {x : Declaration}
      (hd : g.redundantProtocols.find? d = some p) (hx : g.declaration? d = some x) :
      Tells s g (ofDeclaration x .redundantProtocol) d
  /-- It has a tier that is redundant. -/
  | tier {d : DeclId} {a : RedundantAccess} {x : Declaration} {issue : Issue}
      (hd : g.redundantAccess.find? d = some a) (hx : g.declaration? d = some x)
      (hi : Issue.ofTier? a.declared = some issue) :
      Tells s g { ofDeclaration x issue with
        message := s!"{(ofDeclaration x issue).message}; it could be {a.suggested.label}" } d
  /-- A directive keeps it from being reported, and such declarations are listed. -/
  | suppressed {d : DeclId} {x : Declaration} (hon : s.report.showIgnored = true)
      (hi : g.isIgnored d = true) (hr : g.isRetained d = true) (href : g.isReferenced d = false)
      (hx : g.declaration? d = some x)
      (hk : (!x.isImplicit && !x.kind.isAccessor && !unreportedKinds.contains x.kind) = true) :
      Tells s g { ofDeclaration x .unused with
        severity := .info
        message := s!"{(ofDeclaration x .unused).message} (ignored by directive)" } d

variable {s : Settings} {g : Graph} {f : Finding} {fs : List Finding} {d : DeclId} {x : Declaration}

/-! ## One reason after the other -/

/-- An answer that was looked up and found good. -/
theorem bind_guard_eq_some {α β : Type} {o : Option α} {p : α → Bool} {answer : α → β} {b : β} :
    (do let a ← o
        guard (p a = true)
        return answer a) = some b ↔ ∃ a, o = some a ∧ p a = true ∧ b = answer a := by
  cases o with
  | none => simp
  | some a =>
      by_cases ha : p a = true
      · simpa [ha] using eq_comm
      · simp [ha]

theorem mem_unusedDeclarations : f ∈ unusedDeclarations g ↔ ∃ d ∈ g.unusedDeclarations,
    ∃ x, g.declaration? d = some x ∧ isReportable g d x = true ∧
      f = ofDeclaration x (if g.isMarked .assignOnly d then .assignOnly else .unused) := by
  rw [unusedDeclarations, List.mem_filterMap]
  exact exists_congr fun d => and_congr_right fun _ => bind_guard_eq_some

theorem mem_parametersOf {y : Declaration} : f ∈ parametersOf g y ↔ ∃ p ∈ y.parameters.toList,
    g.isRetained p = false ∧ g.isIgnored p = false ∧ ∃ x, g.declaration? p = some x ∧
      f = { ofDeclaration x .unusedParameter with
        message := s!"Parameter '{x.nameText}' of '{y.nameText}' is unused" } := by
  rw [parametersOf, List.mem_filterMap]
  refine exists_congr fun p => and_congr_right fun _ => ?_
  cases g.declaration? p with
  | none => cases g.isRetained p <;> cases g.isIgnored p <;> simp
  | some x => cases g.isRetained p <;> cases g.isIgnored p <;> simp [eq_comm]

theorem mem_unusedParameters : f ∈ unusedParameters g ↔ ∃ function y, g.isUsed function = true ∧
    g.isIgnored function = false ∧ g.declaration? function = some y ∧ f ∈ parametersOf g y := by
  rw [unusedParameters, List.mem_flatMap]
  refine exists_congr fun function => ?_
  rw [List.mem_filter, Bool.not_eq_true', isUsed, isMarked_iff, Marks.of]
  cases g.declaration? function with
  | none => simp
  | some y => simp [and_assoc]

theorem mem_redundantProtocols : f ∈ redundantProtocols g ↔ ∃ d p x,
    g.redundantProtocols.find? d = some p ∧ g.declaration? d = some x ∧
      f = ofDeclaration x .redundantProtocol := by
  rw [redundantProtocols, List.mem_filterMap]
  refine exists_congr fun d => ?_
  rw [SortedMap.mem_keys_iff]
  cases g.declaration? d with
  | none => simp
  | some x => simp [eq_comm]

theorem mem_redundantTiers : f ∈ redundantTiers g ↔ ∃ d a x issue,
    g.redundantAccess.find? d = some a ∧ g.declaration? d = some x ∧
      Issue.ofTier? a.declared = some issue ∧
      f = { ofDeclaration x issue with
        message := s!"{(ofDeclaration x issue).message}; it could be {a.suggested.label}" } := by
  rw [redundantTiers, List.mem_filterMap, Prod.exists]
  refine exists_congr fun d => exists_congr fun a => ?_
  rw [SortedMap.mem_entries_iff]
  cases g.declaration? d with
  | none => simp
  | some x => cases Issue.ofTier? a.declared <;> simp [eq_comm]

theorem mem_suppressedDeclarations : f ∈ suppressedDeclarations g ↔ ∃ d, (g.isIgnored d = true ∧
    g.isRetained d = true ∧ g.isReferenced d = false) ∧ ∃ x, g.declaration? d = some x ∧
      (!x.isImplicit && !x.kind.isAccessor && !unreportedKinds.contains x.kind) = true ∧
      f = { ofDeclaration x .unused with
        severity := .info
        message := s!"{(ofDeclaration x .unused).message} (ignored by directive)" } := by
  rw [suppressedDeclarations, List.mem_filterMap]
  refine exists_congr fun d => ?_
  rw [bind_guard_eq_some, mem_sortedDeclarations, List.mem_filter, Bool.and_eq_true,
    Bool.not_eq_true', isIgnored, isMarked_iff, Marks.of]
  refine and_congr_left ?_
  rintro ⟨x, hx, -⟩
  exact and_iff_left (hasDeclaration_of_eq hx)

/-! ## All of them -/

theorem mem_insertSorted {f' : Finding} : f ∈ insertSorted f' fs ↔ f = f' ∨ f ∈ fs := by
  induction fs with
  | nil => simp [insertSorted]
  | cons a fs ih =>
      rw [insertSorted]
      split
      · rw [List.mem_cons]
      · rw [List.mem_cons, ih, List.mem_cons, or_left_comm]

/-- Sorting keeps the findings. -/
theorem mem_sort : f ∈ sort fs ↔ f ∈ fs := by
  induction fs with
  | nil => rfl
  | cons a fs ih =>
      have hsort : sort (a :: fs) = insertSorted a (sort fs) := rfl
      rw [hsort, mem_insertSorted, ih, List.mem_cons]

theorem mem_gather_iff : f ∈ gather s g ↔ f ∈ unusedImports g ∨ ∃ d, Tells s g f d := by
  constructor
  · intro hf
    simp only [gather, List.mem_append] at hf
    rcases hf with ((((hf | hf) | hf) | hf) | hf) | hf
    · obtain ⟨d, hd, x, hx, hr, rfl⟩ := mem_unusedDeclarations.1 hf
      exact .inr ⟨d, .unused hd hx hr⟩
    · split at hf
      · rename_i hon
        obtain ⟨function, y, hused, hreported, hy, hf⟩ := mem_unusedParameters.1 hf
        obtain ⟨p, hp, hr, hi, x, hx, rfl⟩ := mem_parametersOf.1 hf
        exact .inr ⟨p, .parameter hon hused hreported hy hp hr hi hx⟩
      · cases hf
    · exact .inl hf
    · obtain ⟨d, p, x, hd, hx, rfl⟩ := mem_redundantProtocols.1 hf
      exact .inr ⟨d, .proto hd hx⟩
    · obtain ⟨d, a, x, issue, hd, hx, hi, rfl⟩ := mem_redundantTiers.1 hf
      exact .inr ⟨d, .tier hd hx hi⟩
    · split at hf
      · rename_i hon
        obtain ⟨d, ⟨hi, hr, href⟩, x, hx, hk, rfl⟩ := mem_suppressedDeclarations.1 hf
        exact .inr ⟨d, .suppressed hon hi hr href hx hk⟩
      · cases hf
  · simp only [gather, List.mem_append]
    rintro (hf | ⟨d, hf⟩)
    · exact .inl (.inl (.inl (.inr hf)))
    · cases hf with
      | unused hd hx hr =>
          exact .inl (.inl (.inl (.inl (.inl (mem_unusedDeclarations.2 ⟨d, hd, _, hx, hr, rfl⟩)))))
      | parameter hon hused hreported hy hp hr hi hx =>
          refine .inl (.inl (.inl (.inl (.inr ?_))))
          rw [if_pos hon]
          exact mem_unusedParameters.2 ⟨_, _, hused, hreported, hy,
            mem_parametersOf.2 ⟨d, hp, hr, hi, _, hx, rfl⟩⟩
      | proto hd hx => exact .inl (.inl (.inr (mem_redundantProtocols.2 ⟨d, _, _, hd, hx, rfl⟩)))
      | tier hd hx hi => exact .inl (.inr (mem_redundantTiers.2 ⟨d, _, _, _, hd, hx, hi, rfl⟩))
      | suppressed hon hi hr href hx hk =>
          refine .inr ?_
          rw [if_pos hon]
          exact mem_suppressedDeclarations.2 ⟨d, ⟨hi, hr, href⟩, _, hx, hk, rfl⟩

/-- **What the findings are**: one for every reason to tell of something, in files that are not
excluded. -/
theorem mem_collect_iff : f ∈ collect s g ↔
    s.excludes f.location.file = false ∧ (f ∈ unusedImports g ∨ ∃ d, Tells s g f d) := by
  rw [collect, mem_sort, List.mem_filter, mem_gather_iff, Bool.not_eq_true', and_comm]

end Finding

end Deadwood

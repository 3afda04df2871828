/-
  Reports with the findings of one issue deleted.

  1. **Sorting (`sort_filter`)** — findings that are level stay in their order, so a report of some of
     the findings is the whole report with the others deleted.

  2. **Groups** — findings are gathered in groups.  Unused imports make one group, redundant tiers make
     another one, and no other group has an issue of theirs.

  3. **Reports (`collect_withAccess`, `collect_withImports`)** — leaving out the results of one tier, or
     all unused imports, deletes the findings of that issue from the report and changes nothing else.
-/
import Deadwood.Proofs.Imports
import Deadwood.Proofs.Report.Telling

namespace Deadwood

open Deadwood.Graph Std

namespace Finding

variable {s : Settings} {g : Graph} {f x : Finding} {fs : List Finding} {p : Finding → Bool}
  {issue : Issue} {tier : Tier}

/-! ## Sorting -/

/-- Findings in order; level ones may stand in any order. -/
def Sorted (fs : List Finding) : Prop := fs.Pairwise fun a b => (compare a.key b.key).isLE

theorem insertSorted_eq_cons (hf : ∀ x ∈ fs, (compare f.key x.key).isLE) :
    insertSorted f fs = f :: fs := by
  cases fs with
  | nil => rfl
  | cons x fs => exact if_pos (hf x List.mem_cons_self)

/-- What comes before the first of a list in order comes before all of them. -/
theorem Sorted.isLE_of_isLE (h : Sorted (x :: fs)) (hf : (compare f.key x.key).isLE) :
    ∀ y ∈ x :: fs, (compare f.key y.key).isLE := by
  intro y hy
  rcases List.mem_cons.1 hy with rfl | hy
  · exact hf
  · exact TransCmp.isLE_trans hf ((List.pairwise_cons.1 h).1 y hy)

theorem Sorted.insertSorted (h : Sorted fs) : Sorted (insertSorted f fs) := by
  induction fs with
  | nil => exact List.pairwise_singleton _ f
  | cons x fs ih =>
      rw [Finding.insertSorted]
      split
      · rename_i hle
        exact List.pairwise_cons.2 ⟨h.isLE_of_isLE hle, h⟩
      · rename_i hgt
        obtain ⟨hx, hfs⟩ := List.pairwise_cons.1 h
        refine List.pairwise_cons.2 ⟨fun y hy => ?_, ih hfs⟩
        rcases mem_insertSorted.1 hy with rfl | hy
        · have hgt : compare y.key x.key = .gt := by simpa using hgt
          rw [OrientedCmp.gt_iff_lt.1 hgt]
          rfl
        · exact hx y hy

theorem sorted_sort : Sorted (sort fs) := by
  induction fs with
  | nil => exact List.Pairwise.nil
  | cons f fs ih => exact ih.insertSorted

/-- Deleting findings from a list in order, before one is inserted or after. -/
theorem filter_insertSorted (h : Sorted fs) : (insertSorted f fs).filter p =
    if p f then insertSorted f (fs.filter p) else fs.filter p := by
  induction fs with
  | nil => rw [insertSorted, List.filter_cons, List.filter_nil, insertSorted]
  | cons x fs ih =>
      rw [insertSorted]
      split
      · rename_i hle
        -- `f` comes before all that stays
        have hcons : insertSorted f ((x :: fs).filter p) = f :: (x :: fs).filter p :=
          insertSorted_eq_cons fun y hy => h.isLE_of_isLE hle y (List.mem_of_mem_filter hy)
        rw [List.filter_cons, hcons]
      · rename_i hgt
        have hrest := ih (List.pairwise_cons.1 h).2
        by_cases hx : p x = true
        · rw [List.filter_cons_of_pos hx, List.filter_cons_of_pos hx, hrest, insertSorted, if_neg hgt]
          split <;> rfl
        · rw [List.filter_cons_of_neg hx, List.filter_cons_of_neg hx, hrest]

/-- **Deleting findings before sorting or after is the same.** -/
theorem sort_filter : sort (fs.filter p) = (sort fs).filter p := by
  induction fs with
  | nil => rfl
  | cons f fs ih =>
      have hsort : ∀ f fs, sort (f :: fs) = insertSorted f (sort fs) := fun _ _ => rfl
      rw [hsort, filter_insertSorted sorted_sort, ← ih, List.filter_cons]
      split <;> rfl

/-- A report of some of the findings that are gathered. -/
theorem collect_of_gather {h : Graph} (hgather : gather s h = (gather s g).filter p) :
    collect s h = (collect s g).filter p := by
  unfold collect
  rw [← sort_filter, hgather, List.filter_comm]

/-! ## Groups -/

/-- Deleting an issue that a list of findings does not have. -/
theorem filter_issue_eq_self (hfs : ∀ f ∈ fs, f.issue ≠ issue) :
    fs.filter (·.issue ≠ issue) = fs :=
  List.filter_eq_self.2 fun f hf => decide_eq_true (hfs f hf)

theorem issue_of_mem_unusedDeclarations (hf : f ∈ unusedDeclarations g) :
    f.issue = .unused ∨ f.issue = .assignOnly := by
  obtain ⟨d, -, x, -, -, rfl⟩ := mem_unusedDeclarations.1 hf
  cases g.isMarked .assignOnly d
  · exact .inl rfl
  · exact .inr rfl

theorem issue_of_mem_unusedParameters (hf : f ∈ unusedParameters g) : f.issue = .unusedParameter := by
  obtain ⟨-, y, -, -, -, hf⟩ := mem_unusedParameters.1 hf
  obtain ⟨p, -, -, -, x, -, rfl⟩ := mem_parametersOf.1 hf
  rfl

theorem issue_of_mem_unusedImports (hf : f ∈ unusedImports g) : f.issue = .unusedImport := by
  obtain ⟨i, -, rfl⟩ := List.mem_map.1 hf
  rfl

theorem issue_of_mem_redundantProtocols (hf : f ∈ redundantProtocols g) :
    f.issue = .redundantProtocol := by
  obtain ⟨d, p, x, -, -, rfl⟩ := mem_redundantProtocols.1 hf
  rfl

theorem issue_of_mem_redundantTiers (hf : f ∈ redundantTiers g) :
    ∃ tier, Issue.ofTier? tier = some f.issue := by
  obtain ⟨d, a, x, issue, -, -, hissue, rfl⟩ := mem_redundantTiers.1 hf
  exact ⟨a.declared, hissue⟩

theorem issue_of_mem_suppressedDeclarations (hf : f ∈ suppressedDeclarations g) :
    f.issue = .unused := by
  obtain ⟨d, -, x, -, -, rfl⟩ := mem_suppressedDeclarations.1 hf
  rfl

/-- The groups other than those for imports and tiers have no issue of an import or a tier. -/
theorem filter_others (hissue : issue = .unusedImport ∨ ∃ tier, Issue.ofTier? tier = some issue) :
    (unusedDeclarations g).filter (·.issue ≠ issue) = unusedDeclarations g ∧
    (unusedParameters g).filter (·.issue ≠ issue) = unusedParameters g ∧
    (redundantProtocols g).filter (·.issue ≠ issue) = redundantProtocols g ∧
    (suppressedDeclarations g).filter (·.issue ≠ issue) = suppressedDeclarations g := by
  have hother : issue ∉ [Issue.unused, .assignOnly, .unusedParameter, .redundantProtocol] := by
    rcases hissue with rfl | ⟨tier, htier⟩
    · decide
    · cases tier <;> cases htier <;> decide
  simp only [List.mem_cons, List.not_mem_nil, or_false, not_or] at hother
  obtain ⟨hunused, hassign, hparameter, hproto⟩ := hother
  refine ⟨filter_issue_eq_self fun f hf => ?_, filter_issue_eq_self fun f hf => ?_,
    filter_issue_eq_self fun f hf => ?_, filter_issue_eq_self fun f hf => ?_⟩
  · rcases issue_of_mem_unusedDeclarations hf with he | he
    · rw [he]; exact Ne.symm hunused
    · rw [he]; exact Ne.symm hassign
  · rw [issue_of_mem_unusedParameters hf]; exact Ne.symm hparameter
  · rw [issue_of_mem_redundantProtocols hf]; exact Ne.symm hproto
  · rw [issue_of_mem_suppressedDeclarations hf]; exact Ne.symm hunused

/-! ## Reports -/

/-- What a report has to say about other things than imports and tiers, with some of its findings about
those. -/
theorem gather_filter {h : Graph}
    (hissue : issue = .unusedImport ∨ ∃ tier, Issue.ofTier? tier = some issue)
    (hunused : unusedDeclarations h = unusedDeclarations g)
    (hparameters : unusedParameters h = unusedParameters g)
    (himports : unusedImports h = (unusedImports g).filter (·.issue ≠ issue))
    (hprotocols : redundantProtocols h = redundantProtocols g)
    (htiers : redundantTiers h = (redundantTiers g).filter (·.issue ≠ issue))
    (hsuppressed : suppressedDeclarations h = suppressedDeclarations g) :
    gather s h = (gather s g).filter (·.issue ≠ issue) := by
  obtain ⟨hf₁, hf₂, hf₃, hf₄⟩ := filter_others (g := g) hissue
  unfold gather
  rw [hunused, hparameters, himports, hprotocols, htiers, hsuppressed]
  simp only [List.filter_append, apply_ite (List.filter _), List.filter_nil, hf₁, hf₂, hf₃, hf₄]

/-- Two tiers do not share an issue. -/
theorem ofTier?_inj {tier' : Tier} (h : Issue.ofTier? tier = some issue)
    (h' : Issue.ofTier? tier' = some issue) : tier = tier' := by
  cases tier <;> cases h <;> cases tier' <;> first | rfl | cases h'

/-- The findings about tiers, where one tier is left out. -/
theorem redundantTiers_withAccess {m : SortedMap DeclId RedundantAccess}
    (hissue : Issue.ofTier? tier = some issue) :
    redundantTiers (g.withAccess (m.restrict fun e => e.2.declared ≠ tier)) =
      (redundantTiers (g.withAccess m)).filter (·.issue ≠ issue) := by
  have hread : ∀ m d, (g.withAccess m).declaration? d = g.declaration? d := fun _ _ => rfl
  have hown : ∀ d issue, (ofDeclaration d issue).issue = issue := fun _ _ => rfl
  unfold redundantTiers
  rw [List.filter_filterMap]
  refine List.filterMap_filter.trans (List.filterMap_congr fun e _ => ?_)
  simp only [hread]
  cases g.declaration? e.1 with
  | none => simp
  | some d =>
      cases hother : Issue.ofTier? e.2.declared with
      | none => simp
      | some other =>
          -- a finding has the issue where its entry has the tier
          have hiff : e.2.declared = tier ↔ other = issue := by
            constructor
            · rintro rfl
              exact Option.some.inj (hother.symm.trans hissue)
            · rintro rfl
              exact ofTier?_inj hother hissue
          by_cases he : other = issue
          · simp [hiff.2 he, Option.filter_some, hown, he]
          · simp [mt hiff.1 he, Option.filter_some, hown, he]

/-- **Leaving out what was found out about one tier** deletes the findings of that issue. -/
theorem collect_withAccess {m : SortedMap DeclId RedundantAccess}
    (hissue : Issue.ofTier? tier = some issue) :
    collect s (g.withAccess (m.restrict fun e => e.2.declared ≠ tier)) =
      (collect s (g.withAccess m)).filter (·.issue ≠ issue) := by
  have himports : ∀ f ∈ unusedImports g, f.issue ≠ issue := by
    intro f hf he
    rw [issue_of_mem_unusedImports hf] at he
    rw [← he] at hissue
    cases tier <;> cases hissue
  exact collect_of_gather (gather_filter (.inr ⟨tier, hissue⟩) rfl rfl
    (filter_issue_eq_self himports).symm rfl (redundantTiers_withAccess hissue) rfl)

/-- **Leaving out the unused imports** deletes the findings of that issue. -/
theorem collect_withImports :
    collect s (g.withImports ∅) = (collect s g).filter (·.issue ≠ .unusedImport) := by
  refine collect_of_gather (gather_filter (.inl rfl) rfl rfl ?_ rfl ?_ rfl)
  · refine (List.filter_eq_nil_iff.2 fun f hf => ?_).symm
    rw [issue_of_mem_unusedImports hf]
    decide
  · refine (filter_issue_eq_self fun f hf => ?_).symm
    obtain ⟨tier, htier⟩ := issue_of_mem_redundantTiers hf
    intro he
    rw [he] at htier
    cases tier <;> cases htier

end Finding

end Deadwood

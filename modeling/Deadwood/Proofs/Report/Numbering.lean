/-
  Reports on graphs that differ in the numbers of their handles only.

  1. **Level findings (`sort_eq_sort_iff`)** — sorting leaves findings with the same key in the order in
     which they were gathered.  So two sorted lists agree exactly where they agree key by key.

  2. **Groups** — unused and suppressed declarations are gathered by their keys, and imports by their
     own order: twins gather the same lists of them.  Unused parameters, redundant protocols and
     redundant tiers are gathered in the order of handles (`numbered`): of those, twins gather the same
     findings in some other order.

  3. **Reports (`reportsAlike_of_renamed`)** — reports on twins have the same findings, in an order that
     may differ only among numbered findings that are level.
-/
import Deadwood.Proofs.Parameters
import Deadwood.Proofs.Renaming.Pipeline
import Deadwood.Proofs.Report.Deletion

namespace Deadwood

open Deadwood.Graph Std

namespace Finding

variable {s : Settings} {g h : Graph} {f : Finding} {fs xs ys : List Finding} {κ : Key}

instance : LawfulEqOrd Key where
  eq_of_compare {a b} h := by
    have h : (compare a.place b.place).then
        ((compare a.code b.code).then (compare a.name b.name)) = .eq := h
    simp only [Ordering.then_eq_eq, Std.compare_eq_iff_eq] at h
    cases a; cases b; simp_all

theorem Key.eq_of_isLE {a b : Key} (hab : (compare a b).isLE) (hba : (compare b a).isLE) : a = b := by
  have heq : compare a b = .eq := OrientedCmp.isLE_antisymm hab hba
  exact LawfulEqCmp.eq_of_compare heq

/-! ## Level findings -/

/-- The findings with a key, in the order in which they stand. -/
def level (κ : Key) (fs : List Finding) : List Finding := fs.filter (·.key = κ)

theorem level_append : level κ (xs ++ ys) = level κ xs ++ level κ ys :=
  List.filter_append xs ys

theorem key_of_mem_level (hf : f ∈ level κ fs) : f.key = κ :=
  of_decide_eq_true (List.mem_filter.1 hf).2

theorem sort_eq_self_of_level (hfs : ∀ f ∈ fs, f.key = κ) : sort fs = fs := by
  induction fs with
  | nil => rfl
  | cons f fs ih =>
      have hsort : sort (f :: fs) = insertSorted f (sort fs) := rfl
      rw [hsort, ih fun x hx => hfs x (List.mem_cons_of_mem f hx)]
      refine insertSorted_eq_cons fun x hx => ?_
      rw [hfs f List.mem_cons_self, hfs x (List.mem_cons_of_mem f hx)]
      simp

/-- Sorting leaves level findings in their order. -/
theorem level_sort : level κ (sort fs) = level κ fs := by
  unfold level
  rw [← sort_filter]
  exact sort_eq_self_of_level fun f hf => key_of_mem_level hf

/-- A sorted list is made up of its level findings. -/
theorem Sorted.eq_of_level (hxs : Sorted xs) (hys : Sorted ys)
    (hlevel : ∀ κ, level κ xs = level κ ys) : xs = ys := by
  have hmem : ∀ xs ys : List Finding, (∀ κ, level κ xs = level κ ys) → ∀ f ∈ xs, f ∈ ys := by
    intro xs ys hlevel f hf
    have hin : f ∈ level f.key xs := List.mem_filter.2 ⟨hf, decide_eq_true rfl⟩
    rw [hlevel] at hin
    exact (List.mem_filter.1 hin).1
  induction xs generalizing ys with
  | nil =>
      refine (List.eq_nil_iff_forall_not_mem.2 fun f hf => ?_).symm
      cases hmem ys [] (fun κ => (hlevel κ).symm) f hf
  | cons x xs ih =>
      cases ys with
      | nil => cases hmem (x :: xs) [] hlevel x List.mem_cons_self
      | cons y ys =>
          obtain ⟨hx, hxs'⟩ := List.pairwise_cons.1 hxs
          obtain ⟨hy, hys'⟩ := List.pairwise_cons.1 hys
          -- the first ones are level, since each comes before all others
          have hkey : x.key = y.key := by
            have hxy : (compare x.key y.key).isLE := by
              have hin := hmem (y :: ys) (x :: xs) (fun κ => (hlevel κ).symm) y List.mem_cons_self
              rcases List.mem_cons.1 hin with rfl | hin
              · simp
              · exact hx y hin
            have hyx : (compare y.key x.key).isLE := by
              have hin := hmem (x :: xs) (y :: ys) hlevel x List.mem_cons_self
              rcases List.mem_cons.1 hin with rfl | hin
              · simp
              · exact hy x hin
            exact Key.eq_of_isLE hxy hyx
          have hfirst := hlevel x.key
          have hcons : ∀ z zs, z.key = x.key → level x.key (z :: zs) = z :: level x.key zs :=
            fun z zs hz => List.filter_cons_of_pos (decide_eq_true hz)
          rw [hcons x xs rfl, hcons y ys hkey.symm] at hfirst
          obtain ⟨rfl, hrest⟩ := List.cons.inj hfirst
          refine congrArg _ (ih hxs' hys' fun κ => ?_)
          by_cases hκ : x.key = κ
          · rw [← hκ, hrest]
          · have hκ' := hlevel κ
            unfold level at hκ' ⊢
            rwa [List.filter_cons_of_neg (by simpa using hκ),
              List.filter_cons_of_neg (by simpa using hκ)] at hκ'

/-- **Sorted lists agree where they agree key by key.** -/
theorem sort_eq_sort_iff : sort xs = sort ys ↔ ∀ κ, level κ xs = level κ ys := by
  constructor
  · intro he κ
    rw [← level_sort, he, level_sort]
  · intro hlevel
    refine sorted_sort.eq_of_level sorted_sort fun κ => ?_
    rw [level_sort, level_sort, hlevel]

theorem perm_insertSorted : (insertSorted f fs).Perm (f :: fs) := by
  induction fs with
  | nil => exact .refl _
  | cons x fs ih =>
      rw [insertSorted]
      split
      · exact .refl _
      · exact (ih.cons x).trans (.swap f x fs)

theorem perm_sort : (sort fs).Perm fs := by
  induction fs with
  | nil => exact .refl _
  | cons f fs ih => exact perm_insertSorted.trans (ih.cons f)

/-- Lists of the same findings have the same keys when they are sorted. -/
theorem map_key_sort (H : xs.Perm ys) : (sort xs).map key = (sort ys).map key := by
  have hperm : ((sort xs).map key).Perm ((sort ys).map key) :=
    ((perm_sort.trans H).trans perm_sort.symm).map key
  have hsorted : ∀ fs : List Finding,
      ((sort fs).map key).Pairwise fun a b => (compare a b).isLE := fun fs =>
    List.pairwise_map.2 sorted_sort
  exact hperm.eq_of_pairwise (fun _ _ _ _ => Key.eq_of_isLE) (hsorted xs) (hsorted ys)

/-! ## Groups -/

/-- The findings of a report that are gathered in the order of handles. -/
def numbered (s : Settings) (g : Graph) : List Finding :=
  ((if s.detection.unusedParameters then unusedParameters g else []) ++ redundantProtocols g ++
    redundantTiers g).filter fun f => !s.excludes f.location.file

section Twins

variable {δ : DeclId ≃ DeclId} {ρ : RefId ≃ RefId} (T : Twin δ ρ g h)
include T

theorem unusedDeclarations_eq : unusedDeclarations h = unusedDeclarations g := by
  have hsorted : h.unusedDeclarations = g.unusedDeclarations.map δ :=
    T.sortedDeclarations fun d _ => by
      simp only [List.mem_filter, T.mem_declIds, isUsed, isIgnored, T.isMarked]
  unfold unusedDeclarations
  rw [hsorted, List.filterMap_map]
  refine List.filterMap_congr fun d _ => ?_
  simp only [Function.comp, T.declaration, T.isMarked]
  cases g.declaration? d with
  | none => rfl
  | some x =>
      have hreported : isReportable h (δ d) (x.rename δ ρ) = isReportable g d x := by
        simp only [isReportable, isRetained, T.isMarked]
        rfl
      simp only [Option.map_some, Option.bind_eq_bind, Option.bind_some, hreported]
      rfl

theorem suppressedDeclarations_eq : suppressedDeclarations h = suppressedDeclarations g := by
  have hsorted : h.sortedDeclarations (h.marks.ignored.toList.filter fun id =>
      h.isRetained id && !h.isReferenced id) = (g.sortedDeclarations
        (g.marks.ignored.toList.filter fun id => g.isRetained id && !g.isReferenced id)).map δ :=
    T.sortedDeclarations fun d _ => by
      have hmark : h.marks.ignored = g.marks.ignored.image δ := T.marks .ignored
      simp only [List.mem_filter, hmark, SortedSet.mem_image_iff δ.injective, isRetained, T.isMarked,
        T.isReferenced]
  unfold suppressedDeclarations
  rw [hsorted, List.filterMap_map]
  refine List.filterMap_congr fun d _ => ?_
  simp only [Function.comp, T.declaration]
  cases g.declaration? d <;> rfl

theorem unusedImports_eq : unusedImports h = unusedImports g := by
  have himports : h.unusedImports = g.unusedImports := T.notes.unusedImports
  rw [unusedImports, himports, unusedImports]

theorem perm_parametersOf (x : Declaration) :
    (parametersOf h (x.rename δ ρ)).Perm (parametersOf g x) := by
  have hperm : (x.rename δ ρ).parameters.toList.Perm (x.parameters.toList.map δ) := by
    refine (List.perm_ext_iff_of_nodup (SortedSet.nodup _)
      (x.parameters.nodup.map δ.injective)).2 fun p => ?_
    obtain ⟨p, rfl⟩ := δ.surjective p
    rw [List.mem_map_of_injective δ.injective, Declaration.mem_parameters_rename]
  refine (hperm.filterMap _).trans (.of_eq ?_)
  rw [List.filterMap_map]
  refine List.filterMap_congr fun p _ => ?_
  simp only [Function.comp, isRetained, isIgnored, T.isMarked, T.declaration]
  cases g.declaration? p <;> rfl

theorem perm_unusedParameters : (unusedParameters h).Perm (unusedParameters g) := by
  have hperm : (h.marks.used.toList.filter (!h.isIgnored ·)).Perm
      ((g.marks.used.toList.filter (!g.isIgnored ·)).map δ) := by
    refine (List.perm_ext_iff_of_nodup (h.marks.used.nodup.filter _)
      ((g.marks.used.nodup.filter _).map δ.injective)).2 fun d => ?_
    obtain ⟨d, rfl⟩ := δ.surjective d
    have hmark : h.marks.used = g.marks.used.image δ := T.marks .used
    rw [List.mem_map_of_injective δ.injective, List.mem_filter, List.mem_filter, hmark,
      SortedSet.mem_image_iff δ.injective, isIgnored, isIgnored, T.isMarked]
  unfold unusedParameters
  refine (hperm.flatMap_right _).trans ?_
  rw [List.flatMap_map]
  refine List.Perm.flatMap_left _ fun d _ => ?_
  simp only [T.declaration]
  cases g.declaration? d with
  | none => exact .refl _
  | some x => exact perm_parametersOf T x

theorem perm_redundantProtocols : (redundantProtocols h).Perm (redundantProtocols g) := by
  have hfind : ∀ d, h.redundantProtocols.find? (δ d) = (g.redundantProtocols.find? d).map (·.rename ρ) :=
    T.notes.redundantProtocols
  have hperm : h.redundantProtocols.keys.Perm (g.redundantProtocols.keys.map δ) := by
    refine (List.perm_ext_iff_of_nodup h.redundantProtocols.nodup_keys
      (g.redundantProtocols.nodup_keys.map δ.injective)).2 fun d => ?_
    obtain ⟨d, rfl⟩ := δ.surjective d
    rw [List.mem_map_of_injective δ.injective, SortedMap.mem_keys_iff, SortedMap.mem_keys_iff, hfind]
    cases g.redundantProtocols.find? d <;> simp
  refine (hperm.filterMap _).trans (.of_eq ?_)
  rw [List.filterMap_map]
  refine List.filterMap_congr fun d _ => ?_
  simp only [Function.comp, T.declaration]
  cases g.declaration? d <;> rfl

theorem perm_redundantTiers : (redundantTiers h).Perm (redundantTiers g) := by
  have hfind : ∀ d, h.redundantAccess.find? (δ d) = g.redundantAccess.find? d :=
    T.notes.redundantAccess
  have hinj : Function.Injective (Prod.map δ (id : RedundantAccess → RedundantAccess)) :=
    δ.injective.prodMap Function.injective_id
  have hnodup : ∀ m : SortedMap DeclId RedundantAccess, m.entries.Nodup := fun m =>
    m.nodup_keys.of_map
  have hperm : h.redundantAccess.entries.Perm (g.redundantAccess.entries.map (Prod.map δ id)) := by
    refine (List.perm_ext_iff_of_nodup (hnodup _) ((hnodup _).map hinj)).2 ?_
    rintro ⟨d, a⟩
    obtain ⟨d, rfl⟩ := δ.surjective d
    have hpair : (δ d, a) = Prod.map δ id (d, a) := rfl
    rw [SortedMap.mem_entries_iff, hfind, hpair, List.mem_map_of_injective hinj,
      SortedMap.mem_entries_iff]
  refine (hperm.filterMap _).trans (.of_eq ?_)
  rw [List.filterMap_map]
  refine List.filterMap_congr fun e _ => ?_
  simp only [Function.comp, Prod.map_fst, Prod.map_snd, id, T.declaration]
  cases g.declaration? e.1 <;> rfl

theorem perm_numbered : (numbered s h).Perm (numbered s g) := by
  refine List.Perm.filter _ (((?_ : List.Perm _ _).append (perm_redundantProtocols T)).append
    (perm_redundantTiers T))
  split
  · exact perm_unusedParameters T
  · exact .refl _

theorem perm_gather : (gather s h).Perm (gather s g) := by
  unfold gather
  rw [unusedDeclarations_eq T, unusedImports_eq T, suppressedDeclarations_eq T]
  refine List.Perm.append_right _ ((List.Perm.append_right _ (List.Perm.append_left _ ?_) |>.append
    (perm_redundantProtocols T)).append (perm_redundantTiers T))
  split
  · exact perm_unusedParameters T
  · exact .refl _

end Twins

/-! ## Reports -/

/-- The issues of findings that are gathered in the order of handles. -/
def numberedIssues : List Issue :=
  [.unusedParameter, .redundantProtocol, .redundantPublic, .redundantInternal, .redundantFileprivate]

theorem issue_mem_of_ofTier? {tier : Tier} {issue : Issue} (h : Issue.ofTier? tier = some issue) :
    issue ∈ numberedIssues := by
  cases tier <;> cases h <;> decide

theorem issue_mem_of_mem_numbered (hf : f ∈ numbered s g) : f.issue ∈ numberedIssues := by
  have hf := (List.mem_filter.1 hf).1
  simp only [List.mem_append] at hf
  rcases hf with (hf | hf) | hf
  · split at hf
    · rw [issue_of_mem_unusedParameters hf]
      decide
    · cases hf
  · rw [issue_of_mem_redundantProtocols hf]
    decide
  · obtain ⟨tier, htier⟩ := issue_of_mem_redundantTiers hf
    exact issue_mem_of_ofTier? htier

/-- `ReportsAlike s g h`: the reports on `g` and `h` have the same findings, and only numbered findings
that are level may stand in a different order. -/
structure ReportsAlike (s : Settings) (g h : Graph) : Prop where
  perm : (collect s h).Perm (collect s g)
  /-- Line by line, the place, the code and the name are the same. -/
  keys : (collect s h).map key = (collect s g).map key
  /-- What is not gathered in the order of handles is listed in one order. -/
  listed : (collect s h).filter (fun f => f.issue ∉ numberedIssues) =
    (collect s g).filter (fun f => f.issue ∉ numberedIssues)
  /-- The reports are the same just where level numbered findings stand in the same order. -/
  exactly : collect s h = collect s g ↔ ∀ κ, level κ (numbered s h) = level κ (numbered s g)
  /-- Level numbered findings that are equal have no order. -/
  definite : (∀ f ∈ numbered s g, ∀ f' ∈ numbered s g, f.key = f'.key → f = f') →
    collect s h = collect s g

/-- Pieces of the same length, between the same others. -/
theorem append_eq_append_iff_of_length {us is ss ps ps' rs rs' ts ts' : List Finding}
    (hp : ps'.length = ps.length) (hr : rs'.length = rs.length) :
    us ++ ps' ++ is ++ rs' ++ ts' ++ ss = us ++ ps ++ is ++ rs ++ ts ++ ss ↔
      ps' ++ rs' ++ ts' = ps ++ rs ++ ts := by
  constructor
  · intro he
    obtain ⟨htail, hts⟩ := List.append_inj ((List.append_left_inj ss).1 he) (by simp [hp, hr])
    obtain ⟨hhead, hrs⟩ := List.append_inj htail (by simp [hp])
    rw [List.append_left_inj, List.append_right_inj] at hhead
    rw [hhead, hrs, hts]
  · intro he
    obtain ⟨hhead, hts⟩ := List.append_inj he (by simp [hp, hr])
    obtain ⟨hps, hrs⟩ := List.append_inj hhead hp
    rw [hps, hrs, hts]

theorem reportsAlike_of_twin {δ : DeclId ≃ DeclId} {ρ : RefId ≃ RefId} (T : Twin δ ρ g h)
    (s : Settings) : ReportsAlike s g h := by
  have hperm : ((gather s h).filter fun f => !s.excludes f.location.file).Perm
      ((gather s g).filter fun f => !s.excludes f.location.file) := (perm_gather T).filter _
  have hexactly : collect s h = collect s g ↔ ∀ κ, level κ (numbered s h) = level κ (numbered s g) := by
    unfold collect
    rw [sort_eq_sort_iff]
    refine forall_congr' fun κ => ?_
    unfold gather numbered
    rw [unusedDeclarations_eq T, unusedImports_eq T, suppressedDeclarations_eq T]
    simp only [List.filter_append, level_append]
    have hlength : ∀ {xs ys : List Finding}, xs.Perm ys →
        (level κ (xs.filter fun f => !s.excludes f.location.file)).length =
          (level κ (ys.filter fun f => !s.excludes f.location.file)).length := fun H =>
      ((H.filter _).filter _).length_eq
    refine append_eq_append_iff_of_length ?_ (hlength (perm_redundantProtocols T))
    split
    · exact hlength (perm_unusedParameters T)
    · rfl
  refine ⟨(perm_sort.trans hperm).trans perm_sort.symm, map_key_sort hperm, ?_, hexactly,
    fun hdefinite => hexactly.2 fun κ => ?_⟩
  · unfold collect
    rw [← sort_filter, ← sort_filter]
    refine congrArg sort ?_
    -- no numbered finding is left
    have hnone : ∀ k : Graph, (numbered s k).filter (fun f => f.issue ∉ numberedIssues) = [] :=
      fun k => List.filter_eq_nil_iff.2 fun f hf => by simp [issue_mem_of_mem_numbered hf]
    have hg := hnone g
    have hh := hnone h
    unfold numbered at hg hh
    simp only [List.filter_append, List.append_eq_nil_iff] at hg hh
    unfold gather
    simp only [List.filter_append, hg, hh, unusedDeclarations_eq T, unusedImports_eq T,
      suppressedDeclarations_eq T]
  · refine ((perm_numbered T).filter _).eq_of_pairwise (fun f f' hf hf' _ _ => ?_)
      (List.pairwise_of_forall fun _ _ => trivial) (List.pairwise_of_forall fun _ _ => trivial)
    obtain ⟨hf, hκ⟩ := List.mem_filter.1 hf
    obtain ⟨hf', hκ'⟩ := List.mem_filter.1 hf'
    exact hdefinite f ((perm_numbered T).mem_iff.1 hf) f' hf'
      ((of_decide_eq_true hκ).trans (of_decide_eq_true hκ').symm)

/-- **Reports do not depend on the numbers of handles**, but for the order of level findings, where
every declaration carries an identifier.  Without identifiers the findings that come by keys have
no order of their own either. -/
theorem reportsAlike_of_renamed {δ : DeclId ≃ DeclId} {ρ : RefId ≃ RefId} (hg : g.Built)
    (hh : h.Built) (hi : g.Identified) (R : Renamed δ ρ g h) (hu : g.Unambiguous) (s : Settings) :
    ReportsAlike s g h := reportsAlike_of_twin (R.twin hg hh hi hu) s

/-! ## Two functions at one place -/

/-- A function with an unused parameter, as a macro puts it where it is used, and a use of it. -/
def expansion (usr name : String) : Fragment :=
  { file := { path := ⟨"a.swift"⟩, modules := .singleton "App" }
    declarations := [
      { kind := .freeFunction, usrs := [usr], name := some name, line := 1
        unusedParameters := [
          { kind := .parameter, usrs := [usr ++ ".x"], name := some "x", line := 1, column := 8 }] }]
    references := [{ kind := .freeFunction, usr := usr, line := 9 }] }

/-- Two functions of one expansion. -/
def expansions : Document :=
  { fragments := [expansion "load" "load(x:)", expansion "loadAsync" "loadAsync(x:)"] }

/-- The same program, where the other function comes first. -/
def expansionsReversed : Document :=
  { fragments := [expansion "loadAsync" "loadAsync(x:)", expansion "load" "load(x:)"] }

/-- The functions change their numbers, and so do their parameters. -/
def exchange : DeclId ≃ DeclId := (Equiv.swap ⟨0⟩ ⟨2⟩).trans (Equiv.swap ⟨1⟩ ⟨3⟩)

theorem exchange_of_le {d : DeclId} (hd : 4 ≤ d.index) : exchange d = d := by
  have hfirst : Equiv.swap (⟨0⟩ : DeclId) ⟨2⟩ d = d :=
    swap_eq_of_le DeclId.index (by decide) (by decide) hd
  have hsecond : Equiv.swap (⟨1⟩ : DeclId) ⟨3⟩ d = d :=
    swap_eq_of_le DeclId.index (by decide) (by decide) hd
  rw [exchange, Equiv.trans_apply, hfirst, hsecond]

/-- Ingestion notes nothing that has to be renamed. -/
theorem renamed_notes {δ : DeclId ≃ DeclId} {ρ : RefId ≃ RefId} (hg : g.Ingested) (hh : h.Ingested)
    (hfiles : h.files = g.files) (hexports : h.exports = g.exports) (hassets : h.assets = g.assets) :
    Notes.Renamed δ ρ g.notes h.notes where
  marks mark := by
    have hgm : g.notes.marks = {} := hg.marks
    have hhm : h.notes.marks = {} := hh.marks
    rw [hgm, hhm]
    cases mark <;> rfl
  folded d := by
    have hgf : g.notes.folded = ∅ := congrArg Notes.folded hg.unjudged
    have hhf : h.notes.folded = ∅ := congrArg Notes.folded hh.unjudged
    rw [hgf, hhf]
    rfl
  redundantProtocols d := by
    have hgp : g.notes.redundantProtocols = ∅ := congrArg Notes.redundantProtocols hg.unjudged
    have hhp : h.notes.redundantProtocols = ∅ := congrArg Notes.redundantProtocols hh.unjudged
    rw [hgp, hhp]
    rfl
  redundantAccess d := by
    have hga : g.notes.redundantAccess = ∅ := congrArg Notes.redundantAccess hg.unjudged
    have hha : h.notes.redundantAccess = ∅ := congrArg Notes.redundantAccess hh.unjudged
    rw [hga, hha]
    rfl
  unusedImports := (congrArg Notes.unusedImports hh.unjudged).trans
    (congrArg Notes.unusedImports hg.unjudged).symm
  files := hfiles
  exports := hexports
  assets := hassets

theorem renamed_expansionsReversed : Renamed exchange (Equiv.swap ⟨0⟩ ⟨1⟩)
    (ofDocument expansions).1 (ofDocument expansionsReversed).1 where
  declaration := declaration_of_lt (n := 4) (by decide +kernel) (by decide +kernel)
    (fun _ hd => exchange_of_le hd) (by decide +kernel)
  reference := reference_of_lt (n := 2) (by decide +kernel) (by decide +kernel)
    (fun _ hr => swap_eq_of_le RefId.index (by decide) (by decide) hr) (by decide +kernel)
  roots := by decide +kernel
  rootReferences := by decide +kernel
  notes := renamed_notes (Ingested.empty.ingest expansions) (Ingested.empty.ingest expansionsReversed)
    (by decide +kernel) (by decide +kernel) (by decide +kernel)

/-- The graphs at the end of their analyses. -/
theorem exists_renamed_analyse_expansions : ∃ ρ : RefId ≃ RefId, Renamed exchange ρ
    (analyse {} (ofDocument expansions).1).graph (analyse {} (ofDocument expansionsReversed).1).graph := by
  have hnone : (analyse {} (ofDocument expansions).1).failure = none := by decide +kernel
  have T : Twin exchange (Equiv.swap ⟨0⟩ ⟨1⟩) (ofDocument expansions).1
      (ofDocument expansionsReversed).1 :=
    ⟨renamed_expansionsReversed, (reachable_ofDocument expansions).consistent,
      (reachable_ofDocument expansionsReversed).consistent, by decide +kernel⟩
  obtain ⟨ρ, -, T'⟩ := (T.follows_analyse {}).2 hnone
  exact ⟨ρ, T'.toRenamed⟩

theorem unambiguous_analyse_expansions :
    (analyse {} (ofDocument expansions).1).graph.Unambiguous := by decide +kernel

/-- What a report says of the two parameters comes in the order of the functions. -/
theorem messages_expansions :
    (collect {} (analyse {} (ofDocument expansions).1).graph).map message =
        ["Parameter 'x' of 'load(x:)' is unused", "Parameter 'x' of 'loadAsync(x:)' is unused"] ∧
      (collect {} (analyse {} (ofDocument expansionsReversed).1).graph).map message =
        ["Parameter 'x' of 'loadAsync(x:)' is unused", "Parameter 'x' of 'load(x:)' is unused"] := by
  decide +kernel

/-- The two reports on the same expansion. -/
theorem reportsAlike_of_renamed_expansions :
    ReportsAlike {} (analyse {} (ofDocument expansions).1).graph
      (analyse {} (ofDocument expansionsReversed).1).graph := by
  obtain ⟨ρ, R⟩ := exists_renamed_analyse_expansions
  have hg : (analyse {} (ofDocument expansions).1).graph.Reachable :=
    reachable_runPasses (reachable_ofDocument expansions)
  have hh : (analyse {} (ofDocument expansionsReversed).1).graph.Reachable :=
    reachable_runPasses (reachable_ofDocument expansionsReversed)
  exact reportsAlike_of_renamed hg.built hh.built hg.consistent.identified R
    unambiguous_analyse_expansions {}

/-- They are not the same, though nothing but numbers differs between the graphs. -/
theorem not_collect_eq_expansions :
    (analyse {} (ofDocument expansions).1).failure = none ∧
      (∃ ρ : RefId ≃ RefId, Renamed exchange ρ (analyse {} (ofDocument expansions).1).graph
        (analyse {} (ofDocument expansionsReversed).1).graph) ∧
      (analyse {} (ofDocument expansions).1).graph.Unambiguous ∧
      collect {} (analyse {} (ofDocument expansionsReversed).1).graph ≠
        collect {} (analyse {} (ofDocument expansions).1).graph := by
  refine ⟨by decide +kernel, exists_renamed_analyse_expansions, unambiguous_analyse_expansions,
    fun he => ?_⟩
  obtain ⟨hone, hother⟩ := messages_expansions
  rw [he, hone] at hother
  exact absurd hother (by decide)

end Finding

end Deadwood

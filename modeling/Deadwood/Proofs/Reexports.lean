/-
  Which imports contribute nothing.

  1. **The closure (`mem_closure_iff`)** — the modules that an import brings in are those that a chain
     of modules, each passing the next one on, leads to.  The search stays among the modules that
     something passes on, and so it misses none.

  2. **The verdict (`isUnused_iff`, `Idle`)** — an import is idle when it is not passed on itself, its
     module has files, its file is not in the module, and no reference in the file leads into a
     module that it brings in.

  3. **Two readings of "passes on"** — what is recorded for a module counts in the search only when the
     module has files (`PassesOn`), while a chain may well lead through modules that have none
     (`Reexports`).  So an import that brings in something by such a chain only is found idle
     (`not_idle_umbrella`), and no other one is found wrongly (`judgesImports_of_stored`).
-/
import Deadwood.Proofs.Filing
import Deadwood.Proofs.Toggles

namespace Deadwood

open Relation Std

namespace Graph

variable {g h : Graph} {file : SourceFile} {i : ImportStatement} {l : Location} {m n : String}
  {path : Path} {s : Settings}

/-- Some file is compiled into the module. -/
def HasFiles (g : Graph) (m : String) : Prop := ∃ f ∈ g.files.values, m ∈ f.modules.toList

/-- A file of the module passes another one on. -/
def ImportsOn (g : Graph) (m n : String) : Prop :=
  ∃ f ∈ g.files.values, m ∈ f.modules.toList ∧ ∃ i ∈ f.imports, i.isExported = true ∧ i.module = n

/-- A module passes another one on: it is recorded so, or one of its files does. -/
def Reexports (g : Graph) (m n : String) : Prop :=
  n ∈ (g.exportedModules m).toList ∨ g.ImportsOn m n

/-- A module passes another one on, where a record counts only when the module has files. -/
def PassesOn (g : Graph) (m n : String) : Prop :=
  (g.HasFiles m ∧ n ∈ (g.exportedModules m).toList) ∨ g.ImportsOn m n

/-- A reference in the file leads to a declaration in a file of the module. -/
def RefersInto (g : Graph) (path : Path) (m : String) : Prop :=
  ∃ r x d y, g.reference? r = some x ∧ x.location.file.same path = true ∧
    g.declaration? d = some y ∧ x.usr ∈ y.usrs.toList ∧ m ∈ (g.modulesOf y.location.file).toList

/-- An import statement that contributes nothing to its file; `passes` says which modules pass
which ones on. -/
structure Idle (passes : String → String → Prop) (g : Graph) (file : SourceFile)
    (i : ImportStatement) : Prop where
  /-- It is not there for others. -/
  plain : i.isExported = false
  /-- The module is part of the program. -/
  known : g.HasFiles i.module
  /-- The file is not. -/
  foreign : i.module ∉ file.modules.toList
  /-- Nothing in the file leads into a module that it brings in. -/
  useless : ∀ m, ReflTransGen passes i.module m → ¬ g.RefersInto file.path m

/-- An unused import of the module is recorded at the place. -/
def RecordsImport (g : Graph) (m : String) (l : Location) : Prop :=
  ∃ u ∈ g.unusedImports.toList, u.module = m ∧ u.location.place = l.place

/-! ## Modules -/

theorem mem_indexedModules : m ∈ g.indexedModules.toList ↔ g.HasFiles m := by
  have hfold : ∀ (files : List SourceFile) (all : SortedSet String),
      m ∈ (files.foldl (fun all file => all.union file.modules) all).toList ↔
        m ∈ all.toList ∨ ∃ f ∈ files, m ∈ f.modules.toList := by
    intro files
    induction files with
    | nil => simp
    | cons f files ih =>
        intro all
        rw [List.foldl_cons, ih, SortedSet.mem_union, List.exists_mem_cons_iff, or_assoc]
  exact (hfold g.files.values ∅).trans (by simp [HasFiles])

theorem mem_passedOn : n ∈ Imports.passedOn g m ↔ g.PassesOn m n := by
  have himports : n ∈ (g.files.values.filter fun file => file.modules.contains m).flatMap
      (fun file => (file.imports.filter (·.isExported)).map (·.module)) ↔ g.ImportsOn m n := by
    simp only [List.mem_flatMap, List.mem_filter, List.mem_map, SortedSet.contains_iff, ImportsOn,
      and_assoc]
  rw [Imports.passedOn, List.mem_append, himports, PassesOn, ← mem_indexedModules]
  by_cases hm : m ∈ g.indexedModules.toList
  · simp [hm]
  · simp [hm]

theorem mem_exportTargets (hn : g.PassesOn m n) : n ∈ Imports.exportTargets g := by
  rw [Imports.exportTargets, List.mem_append, List.mem_flatMap, List.mem_flatMap]
  rcases hn with ⟨-, hn⟩ | ⟨f, hf, -, i, hi, -, rfl⟩
  · cases hs : g.exports.find? m with
    | none => simp [exportedModules, Index.get, hs] at hn
    | some names =>
        have hvalue : names ∈ g.exports.values :=
          List.mem_map.2 ⟨(m, names), SortedMap.mem_entries_iff.2 hs, rfl⟩
        exact .inl ⟨names, hvalue, by simpa [exportedModules, Index.get, hs] using hn⟩
  · exact .inr ⟨f, hf, List.mem_map.2 ⟨i, hi, rfl⟩⟩

/-- **The closure of a module** is what chains of modules that pass on lead to. -/
theorem mem_closure_iff : n ∈ Imports.closure g m ↔ ReflTransGen g.PassesOn m n := by
  have hpasses : (fun a b => b ∈ Imports.passedOn g a) = g.PassesOn := by
    funext a b
    exact propext mem_passedOn
  rw [Imports.closure, mem_explore_iff, ← hpasses]
  simp only [List.mem_singleton, exists_eq_left]
  exact reaches_iff_reflTransGen (by simp) fun a b hb => by
    simp [mem_exportTargets (mem_passedOn.1 hb)]

theorem mem_referredModules (hg : g.Indexed) :
    m ∈ (Imports.referredModules g path).toList ↔ g.RefersInto path m := by
  -- one turn adds the modules of the file that a declaration stands in
  have hfold : ∀ (turn : SortedSet String → DeclId → SortedSet String),
      (∀ all d, m ∈ (turn all d).toList ↔ m ∈ all.toList ∨
        ∃ y, g.declaration? d = some y ∧ m ∈ (g.modulesOf y.location.file).toList) →
      ∀ (ids : List DeclId) (all : SortedSet String), m ∈ (ids.foldl turn all).toList ↔
        m ∈ all.toList ∨
          ∃ d ∈ ids, ∃ y, g.declaration? d = some y ∧ m ∈ (g.modulesOf y.location.file).toList := by
    intro turn hturn ids
    induction ids with
    | nil => simp
    | cons d ids ih =>
        intro all
        rw [List.foldl_cons, ih, hturn, List.exists_mem_cons_iff, or_assoc]
  refine (hfold _ (fun all d => ?_) _ ∅).trans ?_
  · cases g.declaration? d <;> simp
  simp only [SortedSet.toList_empty, List.not_mem_nil, false_or, List.mem_flatMap,
    hg.mem_declarationsWithUsr, List.mem_filterMap, mem_refIdsWhere, Option.map_eq_some_iff,
    RefersInto]
  constructor
  · rintro ⟨d, ⟨usr, ⟨r, ⟨x, hx, hfile⟩, z, hz, rfl⟩, y, hy, hu⟩, w, hw, hm⟩
    rw [hx] at hz
    rw [hy] at hw
    cases hz
    cases hw
    exact ⟨r, x, d, y, hx, hfile, hy, hu, hm⟩
  · rintro ⟨r, x, d, y, hx, hfile, hy, hu, hm⟩
    exact ⟨d, ⟨x.usr, ⟨r, ⟨x, hx, hfile⟩, x, hx, rfl⟩, y, hy, hu⟩, y, hy, hm⟩

/-! ## The verdict -/

/-- **The verdict on an import statement.** -/
theorem isUnused_iff (hg : g.Indexed) :
    Imports.isUnused g file i = true ↔ Idle g.PassesOn g file i := by
  have hclosure : ((Imports.closure g i.module).all fun module =>
      !(Imports.referredModules g file.path).contains module) = true ↔
        ∀ m, ReflTransGen g.PassesOn i.module m → ¬ g.RefersInto file.path m := by
    simp only [List.all_eq_true, mem_closure_iff, Bool.not_eq_true', ← mem_referredModules hg,
      ← SortedSet.contains_iff, Bool.not_eq_true]
  have hforeign : (!file.modules.contains i.module) = true ↔ i.module ∉ file.modules.toList := by
    rw [← SortedSet.contains_iff, Bool.not_eq_true', Bool.not_eq_true]
  rw [Imports.isUnused, Bool.and_eq_true, Bool.and_eq_true, Bool.and_eq_true, hclosure, hforeign,
    SortedSet.contains_iff, mem_indexedModules, Bool.not_eq_true']
  constructor
  · rintro ⟨⟨⟨hplain, hknown⟩, hforeign⟩, huseless⟩
    exact ⟨hplain, hknown, hforeign, huseless⟩
  · rintro ⟨hplain, hknown, hforeign, huseless⟩
    exact ⟨⟨⟨hplain, hknown⟩, hforeign⟩, huseless⟩

theorem UnusedImport.compare_eq_iff {u v : UnusedImport} :
    compare u v = .eq ↔ u.module = v.module ∧ u.location.place = v.location.place := by
  show (compare u.module v.module).then (compare u.location.place v.location.place) = .eq ↔ _
  rw [Ordering.then_eq_eq, Std.compare_eq_iff_eq, Std.compare_eq_iff_eq]

theorem contains_unusedImports :
    g.unusedImports.contains ⟨m, l⟩ = true ↔ g.RecordsImport m l := by
  simp only [SortedSet.contains, List.any_eq_true, beq_iff_eq, UnusedImport.compare_eq_iff,
    RecordsImport]
  exact exists_congr fun u => and_congr_right fun _ => and_congr eq_comm eq_comm

/-- Recording imports one after the other. -/
theorem recordsImport_foldl (found : List UnusedImport) :
    (found.foldl recordUnusedImport g).RecordsImport m l ↔
      g.RecordsImport m l ∨ ∃ u ∈ found, u.module = m ∧ u.location.place = l.place := by
  induction found generalizing g with
  | nil => simp
  | cons u found ih =>
      have hone : (g.recordUnusedImport u).RecordsImport m l ↔
          (u.module = m ∧ u.location.place = l.place) ∨ g.RecordsImport m l := by
        rw [← contains_unusedImports, ← contains_unusedImports]
        refine SortedSet.contains_insert.trans (or_congr_left ?_)
        rw [UnusedImport.compare_eq_iff]
        exact and_congr eq_comm eq_comm
      rw [List.foldl_cons, ih, hone, List.exists_mem_cons_iff]
      tauto

/-- Where what passes on agrees along every chain, so does what is idle. -/
theorem Idle.congr {passes passes' : String → String → Prop}
    (hsame : ∀ m n, ReflTransGen passes i.module m → passes m n → passes' m n)
    (h : Idle passes' g file i) : Idle passes g file i where
  plain := h.plain
  known := h.known
  foreign := h.foreign
  useless m hm := by
    refine h.useless m ?_
    induction hm with
    | refl => exact .refl
    | tail hm hn ih => exact ih.tail (hsame _ _ hm hn)

theorem PassesOn.reexports (h : g.PassesOn m n) : g.Reexports m n := h.imp_left And.right

/-- What judging the imports of a graph does. -/
structure JudgesImports (g h : Graph) : Prop where
  /-- An import is recorded, by module and place, when it was recorded before or some file has it
  and it is idle. -/
  recorded : ∀ m l, h.RecordsImport m l ↔ g.RecordsImport m l ∨
    ∃ file ∈ g.files.values, ∃ i ∈ file.imports, i.module = m ∧
      (file.importLocation i).place = l.place ∧ Idle g.PassesOn g file i
  /-- None is missed that contributes nothing, whatever chains count. -/
  complete : ∀ file ∈ g.files.values, ∀ i ∈ file.imports, Idle g.Reexports g file i →
    h.RecordsImport i.module (file.importLocation i)
  /-- None is found wrongly where every module has files that records lead on from. -/
  sound : ∀ file ∈ g.files.values, ∀ i ∈ file.imports,
    (∀ m, ReflTransGen g.Reexports i.module m → (g.exportedModules m).toList ≠ [] → g.HasFiles m) →
    (Idle g.PassesOn g file i ↔ Idle g.Reexports g file i)
  /-- Everything else is as it was. -/
  rest : h.withImports g.unusedImports = g

/-- **Which imports are recorded**, after every history. -/
theorem judgesImports_of_stored (hg : g.Stored) :
    (Pass.unusedImports.run s g).fault = none ∧
      JudgesImports g (Pass.unusedImports.run s g).graph := by
  have hindexed : g.Indexed := hg.filed.toIndexed
  have hrecorded : ∀ m l, (Imports.markUnused g).RecordsImport m l ↔ g.RecordsImport m l ∨
      ∃ file ∈ g.files.values, ∃ i ∈ file.imports, i.module = m ∧
        (file.importLocation i).place = l.place ∧ Idle g.PassesOn g file i := by
    intro m l
    rw [Imports.markUnused, recordsImport_foldl]
    refine or_congr_right ?_
    simp only [Imports.unused, List.mem_flatMap, List.mem_map, List.mem_filter, isUnused_iff hindexed]
    constructor
    · rintro ⟨u, ⟨file, hfile, i, ⟨hi, hidle⟩, rfl⟩, hm, hl⟩
      exact ⟨file, hfile, i, hi, hm, hl, hidle⟩
    · rintro ⟨file, hfile, i, hi, hm, hl, hidle⟩
      exact ⟨_, ⟨file, hfile, i, ⟨hi, hidle⟩, rfl⟩, hm, hl⟩
  have hless : ∀ {file i}, Idle g.Reexports g file i → Idle g.PassesOn g file i :=
    Idle.congr fun _ _ _ hn => hn.reexports
  refine ⟨rfl, hrecorded, fun file hfile i hi hidle => ?_, fun file _ i _ hfiles => ?_, ?_⟩
  · exact (hrecorded _ _).2 (.inr ⟨file, hfile, i, hi, rfl, rfl, hless hidle⟩)
  · refine ⟨Idle.congr fun m n hm hn => ?_, hless⟩
    exact hn.imp_left fun hn => ⟨hfiles m hm (List.ne_nil_of_mem hn), hn⟩
  · obtain ⟨u, hu⟩ := Imports.exists_markUnused (g := g)
    have hrun : (Pass.unusedImports.run s g).graph = g.withImports u := hu
    rw [hrun, withImports_withImports, withImports_unusedImports]

/-! ## Two programs -/

/-- `Facade` passes `Core` on with an exported import, and is recorded to be passed on by `Core`. -/
def facade : Document :=
  { fragments := [
      { file := { path := ⟨"app.swift"⟩, modules := .singleton "App"
                  imports := [{ module := "Facade", line := 1 }, { module := "Tools", line := 2 },
                    { module := "UIKit", line := 3 }] }
        references := [{ kind := .freeFunction, usr := "run", line := 5 }] },
      { file := { path := ⟨"facade.swift"⟩, modules := .singleton "Facade"
                  imports := [{ module := "Core", isExported := true, line := 1 }] } },
      { file := { path := ⟨"core.swift"⟩, modules := .ofList ["Core", "Kernel"] }
        declarations := [{ kind := .freeFunction, usrs := ["run"], line := 1 }] },
      { file := { path := ⟨"tools.swift"⟩, modules := .singleton "Tools" } }]
    moduleExports := (∅ : SortedMap String (List String)).insert "Core" ["Facade"] }

/-- Of the three imports of the application, the one of a known module that leads to nothing is
recorded. -/
theorem judgesImports_of_stored_facade :
    let g := (ofDocument facade).1
    let h := (Pass.unusedImports.run {} g).graph
    ((Pass.unusedImports.run {} g).fault = none ∧ JudgesImports g h) ∧
      h.unusedImports.toList.map (fun u => (u.module, u.location.line)) = [("Tools", 2)] := by
  have hstored : (ofDocument facade).1.Stored := .ingest .empty facade
  exact ⟨judgesImports_of_stored hstored, by decide +kernel⟩

/-- A reference in a file leads into a module, as far as this can be computed. -/
theorem refersInto_of_any {r : RefId} {d : DeclId}
    (hany : (g.reference? r).any (fun x => x.location.file.same path &&
      (g.declaration? d).any fun y => y.usrs.contains x.usr &&
        (g.modulesOf y.location.file).contains m) = true) : g.RefersInto path m := by
  cases hx : g.reference? r with
  | none => simp [hx] at hany
  | some x =>
      cases hy : g.declaration? d with
      | none => simp [hx, hy] at hany
      | some y =>
          simp only [hx, hy, Option.any_some, Bool.and_eq_true, SortedSet.contains_iff] at hany
          exact ⟨r, x, d, y, hx, hany.1, hy, hany.2.1, hany.2.2⟩

/-- `Kit` passes a framework on that is not part of the program, and the framework passes `Store` on,
which is. -/
def umbrella : Document :=
  { fragments := [
      { file := { path := ⟨"app.swift"⟩, modules := .singleton "App"
                  imports := [{ module := "Kit", line := 1 }] }
        references := [{ kind := .classType, usr := "Shelf", line := 3 }] },
      { file := { path := ⟨"kit.swift"⟩, modules := .singleton "Kit" } },
      { file := { path := ⟨"store.swift"⟩, modules := .singleton "Store" }
        declarations := [{ kind := .classType, usrs := ["Shelf"], line := 1 }] }]
    moduleExports := ((∅ : SortedMap String (List String)).insert "Kit" ["Umbrella"]).insert
      "Umbrella" ["Store"] }

/-- The import of `Kit` is recorded, though it brings in `Store` and the file uses `Store`. -/
theorem not_idle_umbrella :
    let g := (ofDocument umbrella).1
    let h := (Pass.unusedImports.run {} g).graph
    g.unusedImports = ∅ ∧ ∃ file ∈ g.files.values, ∃ i ∈ file.imports,
      h.RecordsImport i.module (file.importLocation i) ∧ ¬ Idle g.Reexports g file i := by
  intro g h
  have hnone : g.unusedImports = ∅ := by decide +kernel
  have hjudged : ∃ file ∈ g.files.values, ∃ i ∈ file.imports, i.module = "Kit" ∧
      h.unusedImports.contains ⟨i.module, file.importLocation i⟩ = true ∧
      ((g.reference? ⟨0⟩).any fun x => x.location.file.same file.path &&
        (g.declaration? ⟨0⟩).any fun y => y.usrs.contains x.usr &&
          (g.modulesOf y.location.file).contains "Store") = true := by decide +kernel
  obtain ⟨file, hfile, i, hi, hkit, hrecorded, hrefers⟩ := hjudged
  have hfirst : g.Reexports "Kit" "Umbrella" := .inl (by decide +kernel)
  have hsecond : g.Reexports "Umbrella" "Store" := .inl (by decide +kernel)
  refine ⟨hnone, file, hfile, i, hi, contains_unusedImports.1 hrecorded, fun hidle => ?_⟩
  exact hidle.useless "Store" (hkit ▸ (ReflTransGen.single hfirst).tail hsecond)
    (refersInto_of_any hrefers)

end Graph

end Deadwood

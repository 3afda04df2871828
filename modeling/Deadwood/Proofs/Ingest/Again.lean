/-
  A document that is ingested again.

  1. **`Document.Unshared`** — no two nodes share an identifier, and unused parameters say that they are
     parameters.  Then every declaration is what a single node says, and the graph is legible
     (`legible_ofDocument`).

  2. **Standing fragments** — what was merged stands in the graph for good, so the trees of a fragment
     that is merged again change nothing, and its file only gains modules (`merge_again`).

  3. **Result (`ingest_again`)** — so the same document leaves the graph as it is, and one that compiles
     its files into other modules adds these modules and nothing else.
-/
import Deadwood.Proofs.Ingest.Presence
import Deadwood.Proofs.Ingest.Schedule

namespace Deadwood

open Std Deadwood.Graph

/-! ## Documents whose nodes share no identifier -/

/-- No two declaration nodes carry the same identifier, and every unused parameter is called a
parameter. -/
structure Document.Unshared (doc : Document) : Prop where
  identifiers : (doc.fragments.flatMap Fragment.nodes).Pairwise fun m n =>
    ∀ usr ∈ m.usrs, usr ≠ "" → usr ∉ n.usrs
  parameters : ∀ n ∈ doc.fragments.flatMap Fragment.nodes, ∀ p ∈ n.unusedParameters,
    p.kind = .parameter

namespace Graph

/-- Fragments that share no identifiers with each other or with the graph keep it under construction,
one after the other. -/
theorem Budding.foldl_merge {g : Graph} {fs : List PreparedFragment} (hg : g.Budding)
    (hnew : Newcomers ∅ g (fs.flatMap PreparedFragment.symbols)) :
    (fs.foldl Graph.merge g).Budding := by
  induction fs generalizing g with
  | nil => exact hg
  | cons f fs ih =>
      rw [List.flatMap_cons] at hnew
      exact ih (hg.merge_newcomers hnew.of_append_left)
        (hnew.of_append_right fun usr hc => carries_merge hc)

/-- The symbols of a document whose nodes share no identifier. -/
theorem newcomers_of_unshared {doc : Document} (hdoc : doc.Unshared) :
    Newcomers ∅ ∅ ((doc.fragments.map (·.prepare.1)).flatMap PreparedFragment.symbols) := by
  obtain ⟨hwithin, hbetween⟩ := List.pairwise_flatMap.1 hdoc.identifiers
  have hempty : ∀ (s : Symbol), ∀ usr ∈ s.usrs.toList, ¬ (∅ : Graph).Carries usr := by
    rintro s usr - ⟨d, x, hx, -⟩
    simp at hx
  refine ⟨fun s hs => ?_, fun s _ => hempty s, fun s _ => hempty s, ?_⟩
  · obtain ⟨_, hf, hs⟩ := List.mem_flatMap.1 hs
    obtain ⟨f, -, rfl⟩ := List.mem_map.1 hf
    exact identified_prepare f s hs
  · refine List.pairwise_flatMap.2 ⟨fun _ hp => ?_, ?_⟩
    · obtain ⟨f, hf, rfl⟩ := List.mem_map.1 hp
      exact (neat_prepare (hwithin f hf)).apart
    · rw [List.pairwise_map]
      exact hbetween.imp disjoint_prepare

/-- **The graph of a document whose nodes share no identifier is legible.** -/
theorem legible_ofDocument {doc : Document} (hdoc : doc.Unshared) : (ofDocument doc).1.Legible := by
  have hbudding := budding_empty.foldl_merge (newcomers_of_unshared hdoc)
  have hlegible : ((doc.fragments.map (·.prepare.1)).foldl Graph.merge ∅).Legible :=
    ⟨⟨hbudding.consistent.toIndexed, hbudding.consistent.toOwned⟩, hbudding.unambiguous,
      hbudding.distinct⟩
  rw [ofDocument_eq, addMetadata_eq]
  exact hlegible.of_entries rfl rfl rfl rfl rfl rfl

end Graph

/-! ## Parameters -/

namespace DeclarationTree

theorem allWellListed_append {ts us : List DeclarationTree} (hts : AllWellListed ts)
    (hus : AllWellListed us) : AllWellListed (ts ++ us) := by
  induction ts with
  | nil => exact hus
  | cons t ts ih => exact ⟨hts.1, ih hts.2⟩

/-- A prepared tree has the kind of a node. -/
theorem kind_of_mem_prepareDeclarations {path : Path} {ns : List DeclarationNode}
    {t : DeclarationTree} (ht : t ∈ (prepareDeclarations path ns).1) :
    ∃ n ∈ ns, t.symbol.kind = n.kind := by
  induction ns with
  | nil => cases ht
  | cons n ns ih =>
      simp only [prepareDeclarations, List.mem_append, Option.mem_toList] at ht
      rcases ht with ht | ht
      · rw [prepareDeclaration_fst] at ht
        obtain ⟨s, hs, rfl⟩ := Option.map_eq_some_iff.1 ht
        exact ⟨n, by simp, (DeclarationNode.unites_symbol? hs).2.1⟩
      · obtain ⟨m, hm, hkind⟩ := ih ht
        exact ⟨m, by simp [hm], hkind⟩

mutual

theorem wellListed_prepareDeclaration (path : Path) (n : DeclarationNode)
    (hn : ∀ m ∈ n.nodes, ∀ p ∈ m.unusedParameters, p.kind = .parameter) :
    AllWellListed (prepareDeclaration path n).1.toList := by
  obtain ⟨kind, usrs, name, file, line, column, accessibility, accessibilityExplicit, attributes,
    modifiers, comments, isImplicit, isObjcAccessible, declarations, unusedParameters, references,
    related⟩ := n
  simp only [DeclarationNode.nodes, List.mem_cons, List.mem_append, forall_eq_or_imp] at hn
  obtain ⟨hparameters, hnested⟩ := hn
  rw [prepareDeclaration_fst]
  cases hs : DeclarationNode.symbol? _ path with
  | none => trivial
  | some s =>
      refine ⟨⟨fun t ht => ?_, ?_, ?_⟩, trivial⟩
      · obtain ⟨p, hp, hkind⟩ := kind_of_mem_prepareDeclarations ht
        exact hkind.trans (hparameters p hp)
      · exact wellListed_prepareDeclarations path declarations fun m hm => hnested m (.inl hm)
      · exact wellListed_prepareDeclarations path unusedParameters fun m hm => hnested m (.inr hm)

theorem wellListed_prepareDeclarations (path : Path) (ns : List DeclarationNode)
    (hns : ∀ m ∈ DeclarationNode.nodesOf ns, ∀ p ∈ m.unusedParameters, p.kind = .parameter) :
    AllWellListed (prepareDeclarations path ns).1 := by
  cases ns with
  | nil => trivial
  | cons n ns =>
      simp only [DeclarationNode.nodesOf, List.mem_append] at hns
      exact allWellListed_append (wellListed_prepareDeclaration path n fun m hm => hns m (.inl hm))
        (wellListed_prepareDeclarations path ns fun m hm => hns m (.inr hm))

end

end DeclarationTree

/-! ## Standing fragments -/

/-- The trees of the fragment stand in the graph, and its file is known as well as the fragment knows
it. -/
structure PreparedFragment.StandsIn (g : Graph) (f : PreparedFragment) : Prop where
  declarations : DeclarationTree.StandIn g f.declarations
  references : ReferenceTree.StandIn g none f.references
  file : ∃ x, g.files.find? f.file.path.components = some x ∧ x.Includes f.file

/-- The fragment, with its file compiled into other modules. -/
def PreparedFragment.withModules (f : PreparedFragment) (modules : SortedSet String) :
    PreparedFragment := { f with file := { f.file with modules } }

namespace Graph

variable {g h k : Graph} {f : PreparedFragment} {fs : List PreparedFragment}

theorem Retains.standsIn_fragment (H : Retains g h) (hf : f.StandsIn g) : f.StandsIn h where
  declarations := H.standIn _ hf.declarations
  references := H.standIn_references _ hf.references
  file := by
    obtain ⟨x, hx, hfile⟩ := hf.file
    obtain ⟨y, hy, hxy⟩ := H.file _ x hx
    exact ⟨y, hy, hxy.trans hfile⟩

theorem standsIn_merge (hf : DeclarationTree.AllWellListed f.declarations) :
    f.StandsIn (g.merge f) := by
  have hroots : Retains ((g.addFile f.file).mergeDeclarations .member none f.declarations)
      (g.merge f) := Retains.refl.mergeReferences f.references (by simp)
  have hfile : Retains (g.addFile f.file) (g.merge f) :=
    (Retains.refl.mergeDeclarations f.declarations (by simp)).trans hroots
  constructor
  · exact hroots.standIn _ (standIn_mergeDeclarations f.declarations (by simp) (by simp) hf)
  · exact standIn_mergeReferences f.references (by simp)
  · have hadded : ∃ x, (g.addFile f.file).files.find? f.file.path.components = some x ∧
        x.Includes f.file := by
      rw [addFile, SortedMap.find?_alter, if_pos rfl]
      refine ⟨_, rfl, ?_⟩
      cases g.files.find? f.file.path.components with
      | none => exact .refl
      | some x => exact .merge_right
    obtain ⟨x, hx, hincludes⟩ := hadded
    obtain ⟨y, hy, hxy⟩ := hfile.file _ x hx
    exact ⟨y, hy, hxy.trans hincludes⟩

/-- Every fragment that was merged stands in the end. -/
theorem standsIn_foldl_merge
    (hfs : ∀ f ∈ fs, DeclarationTree.AllWellListed f.declarations) :
    Retains g (fs.foldl Graph.merge g) ∧ ∀ f ∈ fs, f.StandsIn (fs.foldl Graph.merge g) := by
  induction fs generalizing g with
  | nil => exact ⟨.refl, by simp⟩
  | cons f fs ih =>
      obtain ⟨hretains, hstand⟩ := ih (g := g.merge f) fun a ha => hfs a (by simp [ha])
      refine ⟨retains_merge.trans hretains, fun a ha => ?_⟩
      rcases List.mem_cons.1 ha with rfl | ha
      · exact hretains.standsIn_fragment (standsIn_merge (hfs a (by simp)))
      · exact hstand a ha

theorem standsIn_ofDocument {doc : Document} (hdoc : doc.Unshared) {a : Fragment}
    (ha : a ∈ doc.fragments) : a.prepare.1.StandsIn (ofDocument doc).1 := by
  have hlisted : ∀ f ∈ doc.fragments.map (·.prepare.1),
      DeclarationTree.AllWellListed f.declarations := by
    intro f hf
    obtain ⟨a, ha, rfl⟩ := List.mem_map.1 hf
    exact DeclarationTree.wellListed_prepareDeclarations _ _ fun m hm =>
      hdoc.parameters m (List.mem_flatMap.2 ⟨a, ha, hm⟩)
  have hmetadata : ∀ k : Graph, Retains k (k.addMetadata doc) := by
    intro k
    rw [addMetadata_eq]
    exact ⟨fun _ x hx => ⟨x, hx, .refl⟩, fun _ x hx => ⟨x, hx, rfl, rfl⟩,
      fun _ x hx => ⟨x, hx, .refl⟩⟩
  rw [ofDocument_eq]
  exact (hmetadata _).standsIn_fragment
    ((standsIn_foldl_merge hlisted).2 _ (List.mem_map.2 ⟨a, ha, rfl⟩))

/-! ## More modules -/

/-- The modules into which some files compile the path with the components. -/
def modulesAt (files : List SourceFile) (components : List Component) : SortedSet String :=
  SortedSet.ofList
    ((files.filter (·.path.components == components)).flatMap (·.modules.toList))

@[simp] theorem mem_modulesAt {files : List SourceFile} {components : List Component} {m : String} :
    m ∈ (modulesAt files components).toList ↔
      ∃ file ∈ files, file.path.components = components ∧ m ∈ file.modules.toList := by
  simp [modulesAt, and_assoc]

/-- From `g` to `h` nothing changed but that each file gained the modules that the files of the list
give. -/
structure GainsModules (g : Graph) (files : List SourceFile) (h : Graph) : Prop where
  rest : { h with files := g.files } = g
  files : ∀ components, h.files.find? components = (g.files.find? components).map fun x =>
    { x with modules := x.modules.union (modulesAt files components) }

namespace GainsModules

variable {files files' : List SourceFile}

theorem nil : GainsModules g [] g where
  rest := rfl
  files components := by
    have hnone : ∀ x : SourceFile, x.modules.union (modulesAt [] components) = x.modules :=
      fun x => SortedSet.union_eq_self (by simp)
    simp [hnone]

theorem append (H : GainsModules g files h) (H' : GainsModules h files' k) :
    GainsModules g (files ++ files') k where
  rest := by
    have hk := congrArg (fun l : Graph => { l with files := g.files }) H'.rest
    exact hk.trans H.rest
  files components := by
    have hunion : ∀ x : SourceFile, (x.modules.union (modulesAt files components)).union
        (modulesAt files' components) =
          x.modules.union (modulesAt (files ++ files') components) := by
      intro x
      refine SortedSet.eq_of_mem_iff fun m => ?_
      simp only [SortedSet.mem_union, mem_modulesAt, List.mem_append, or_and_right, exists_or,
        or_assoc]
    rw [H'.files, H.files, Option.map_map]
    refine congrArg (Option.map · _) (funext fun x => ?_)
    rw [Function.comp_apply, ← hunion]

/-- Modules that are known already make no difference. -/
theorem eq_self (H : GainsModules g files h) (hknown : ∀ components x,
    g.files.find? components = some x → ∀ m ∈ (modulesAt files components).toList,
      m ∈ x.modules.toList) : h = g := by
  have hfiles : h.files = g.files := by
    refine SortedMap.eq_of_find?_eq fun components => ?_
    rw [H.files]
    cases hx : g.files.find? components with
    | none => rfl
    | some x => rw [Option.map_some, SortedSet.union_eq_self (hknown components x hx)]
  have hrest := H.rest
  rwa [← hfiles] at hrest

end GainsModules

/-- A file of which no more is known than that it has some modules. -/
theorem gainsModules_addFile {x y : SourceFile} {modules : SortedSet String}
    (hx : g.files.find? y.path.components = some x) (H : x.Includes y) :
    GainsModules g [{ y with modules }] (g.addFile { y with modules }) where
  rest := rfl
  files components := by
    rw [addFile, SortedMap.find?_alter]
    by_cases hc : components = y.path.components
    · subst hc
      have hmodules : modulesAt [{ y with modules }] y.path.components = modules :=
        SortedSet.eq_of_mem_iff fun m => by simp
      rw [if_pos rfl, hx, hmodules]
      simp only [Option.map_some, Option.getD_some, SourceFile.merge,
        SourceFile.appendNew_eq_self H.imports, SourceFile.appendNew_eq_self H.directives]
    · have hmodules : modulesAt [{ y with modules }] components = ∅ :=
        SortedSet.eq_of_mem_iff fun m => by simp [Ne.symm hc]
      have hnone : ∀ x : SourceFile, x.modules.union ∅ = x.modules :=
        fun x => SortedSet.union_eq_self (by simp)
      simp [hc, hmodules, hnone]

/-- **A fragment that stands is merged again**: its file gains modules, and nothing else happens. -/
theorem merge_again (hg : g.Legible) (hid : f.Identified) (hf : f.StandsIn g)
    (modules : SortedSet String) :
    GainsModules g [(f.withModules modules).file] (g.merge (f.withModules modules)) ∧
      (g.merge (f.withModules modules)).Legible := by
  set file := (f.withModules modules).file
  have hlegible : (g.addFile file).Legible := hg.of_entries rfl rfl rfl rfl rfl rfl
  have hstands : f.StandsIn (g.addFile file) := retains_addFile.standsIn_fragment hf
  have hmerge : g.merge (f.withModules modules) = g.addFile file := by
    have hdeclarations : (g.addFile file).mergeDeclarations .member none f.declarations =
        g.addFile file := mergeDeclarations_eq_self hlegible _ hid hstands.declarations
    have hreferences : (g.addFile file).mergeReferences none f.references = g.addFile file :=
      mergeReferences_eq_self hlegible _ hstands.references
    show ((g.addFile file).mergeDeclarations .member none f.declarations).mergeReferences none
      f.references = g.addFile file
    rw [hdeclarations, hreferences]
  obtain ⟨x, hx, hfile⟩ := hf.file
  rw [hmerge]
  exact ⟨gainsModules_addFile hx hfile, hlegible⟩

theorem foldl_merge_again (hg : g.Legible) (hfs : ∀ f ∈ fs, ∃ a : PreparedFragment, ∃ modules,
    a.Identified ∧ a.StandsIn g ∧ f = a.withModules modules) :
    GainsModules g (fs.map (·.file)) (fs.foldl Graph.merge g) := by
  induction fs generalizing g with
  | nil => exact .nil
  | cons f fs ih =>
      obtain ⟨a, modules, hid, ha, rfl⟩ := hfs f (by simp)
      obtain ⟨hgains, hlegible⟩ := merge_again hg hid ha modules
      refine hgains.append (ih hlegible fun f hf => ?_)
      obtain ⟨b, modules', hid', hb, he⟩ := hfs f (by simp [hf])
      exact ⟨b, modules', hid', retains_merge.standsIn_fragment hb, he⟩

end Graph

/-! ## Metadata -/

/-- What one module passes on, recorded again. -/
theorem mem_get_foldl_names {known : Index String String} {module : String} {names : List String}
    {k a : String} : a ∈ (Index.get
      (names.foldl (fun known name => Index.add known module name) known) k).toList ↔
      k = module ∧ a ∈ names ∨ a ∈ (Index.get known k).toList := by
  induction names generalizing known with
  | nil => simp
  | cons name names ih =>
      rw [List.foldl_cons, ih, Index.get_add, List.mem_cons]
      by_cases hk : k = module
      · simp only [hk, if_true, SortedSet.mem_insert, true_and]
        tauto
      · simp only [hk, if_false, false_and, false_or]

/-- What the entries pass on, and what was known, is known. -/
theorem mem_get_foldl_exports {known : Index String String} {entries : List (String × List String)}
    {k a : String} : a ∈ (Index.get (entries.foldl (fun known e =>
      e.2.foldl (fun known name => Index.add known e.1 name) known) known) k).toList ↔
      (∃ e ∈ entries, k = e.1 ∧ a ∈ e.2) ∨ a ∈ (Index.get known k).toList := by
  induction entries generalizing known with
  | nil => simp
  | cons e entries ih =>
      rw [List.foldl_cons, ih, mem_get_foldl_names]
      simp only [List.mem_cons, exists_eq_or_imp]
      rw [or_left_comm, or_assoc]

/-- Exports that are known are not recorded again. -/
theorem foldl_exports_eq_self {known : Index String String} {entries : List (String × List String)}
    (h : ∀ e ∈ entries, ∀ name ∈ e.2, name ∈ (Index.get known e.1).toList) :
    entries.foldl (fun known e =>
      e.2.foldl (fun known name => Index.add known e.1 name) known) known = known := by
  have hnames : ∀ (module : String) (names : List String),
      (∀ name ∈ names, name ∈ (Index.get known module).toList) →
      names.foldl (fun known name => Index.add known module name) known = known := by
    intro module names hnames
    induction names with
    | nil => rfl
    | cons name names ih =>
        rw [List.foldl_cons, Index.add_eq_self (hnames name (by simp))]
        exact ih fun a ha => hnames a (by simp [ha])
  induction entries with
  | nil => rfl
  | cons e entries ih =>
      rw [List.foldl_cons, hnames e.1 e.2 (h e (by simp))]
      exact ih fun a ha => h a (by simp [ha])

theorem Document.extendExports_again (doc : Document) (known : Index String String) :
    doc.extendExports (doc.extendExports known) = doc.extendExports known :=
  foldl_exports_eq_self fun e he _ hname => mem_get_foldl_exports.2 (.inl ⟨e, he, rfl, hname⟩)

instance : LawfulEqOrd AssetReference where
  eq_of_compare {a b} h := by
    have h : (compare a.name b.name).then (compare a.source.rank b.source.rank) = .eq := h
    simp only [Ordering.then_eq_eq, Std.compare_eq_iff_eq] at h
    have hrank : ∀ s t : AssetSource, s.rank = t.rank → s = t := by
      intro s t
      cases s <;> cases t <;> decide
    obtain ⟨name, source⟩ := a
    obtain ⟨name', source'⟩ := b
    exact congr (congrArg AssetReference.mk h.1) (hrank _ _ h.2)

/-! ## Documents -/

/-- The files of the fragments, in order. -/
def Document.sourceFiles (doc : Document) : List SourceFile :=
  doc.fragments.map (·.file.sourceFile)

/-- The document, without saying into which modules its files are compiled. -/
def Document.withoutModules (doc : Document) : Document :=
  { doc with fragments := doc.fragments.map fun f => { f with file := { f.file with modules := ∅ } } }

namespace Graph

variable {doc doc' : Document}

/-- Documents that differ in modules only have fragments that differ in modules only. -/
theorem exists_withModules (hdoc : doc'.withoutModules = doc.withoutModules) {f : Fragment}
    (hf : f ∈ doc'.fragments) :
    ∃ a ∈ doc.fragments, f.prepare.1 = a.prepare.1.withModules f.file.modules := by
  have hfragments := congrArg Document.fragments hdoc
  have hmem : { f with file := { f.file with modules := ∅ } } ∈ doc.withoutModules.fragments :=
    hfragments ▸ List.mem_map.2 ⟨f, hf, rfl⟩
  obtain ⟨a, ha, he⟩ := List.mem_map.1 hmem
  refine ⟨a, ha, ?_⟩
  obtain ⟨⟨path, modules, imports, comments, directives⟩, declarations, references⟩ := a
  obtain ⟨⟨path', modules', imports', comments', directives'⟩, declarations', references'⟩ := f
  simp only [Fragment.mk.injEq, FileNode.mk.injEq, true_and] at he
  obtain ⟨⟨rfl, rfl, rfl, rfl⟩, rfl, rfl⟩ := he
  rfl

/-- Exports and assets that were recorded are not recorded again. -/
theorem addMetadata_again {g h : Graph} (hdoc : doc'.withoutModules = doc.withoutModules)
    (hexports : h.exports = doc.extendExports g.exports)
    (hassets : h.assets = g.assets.insertAll doc.assetReferences) : h.addMetadata doc' = h := by
  have hmodule : doc'.withoutModules.moduleExports = doc.moduleExports := by rw [hdoc]; rfl
  have hasset : doc'.withoutModules.assetReferences = doc.assetReferences := by rw [hdoc]; rfl
  have hexports' : doc'.extendExports h.exports = h.exports := by
    rw [hexports]
    show doc'.withoutModules.extendExports (doc.extendExports g.exports) = _
    rw [Document.extendExports, hmodule]
    exact doc.extendExports_again g.exports
  have hassets' : doc'.assetReferences.foldl SortedSet.insert h.assets = h.assets := by
    rw [hassets]
    show doc'.withoutModules.assetReferences.foldl SortedSet.insert _ = _
    rw [hasset]
    exact SortedSet.insertAll_eq_self fun a ha => SortedSet.mem_insertAll.2 (.inr ha)
  rw [addMetadata_eq, hexports', hassets']

/-- **A document that was ingested is ingested again, with other modules**: its files gain these, and
nothing else happens. -/
theorem gainsModules_ingest (hdoc : doc.Unshared) (hdoc' : doc'.withoutModules = doc.withoutModules) :
    GainsModules (ofDocument doc).1 doc'.sourceFiles ((ofDocument doc).1.ingest doc').1 := by
  set g := (ofDocument doc).1 with hg
  set h := (doc'.fragments.map (·.prepare.1)).foldl Graph.merge g with hh
  have hgains : GainsModules g doc'.sourceFiles h := by
    have hstanding : ∀ p ∈ doc'.fragments.map (·.prepare.1), ∃ a : PreparedFragment, ∃ modules,
        a.Identified ∧ a.StandsIn g ∧ p = a.withModules modules := by
      intro p hp
      obtain ⟨f, hf, rfl⟩ := List.mem_map.1 hp
      obtain ⟨a, ha, he⟩ := exists_withModules hdoc' hf
      exact ⟨_, _, identified_prepare a, standsIn_ofDocument hdoc ha, he⟩
    have hrun := foldl_merge_again (legible_ofDocument hdoc) hstanding
    rwa [List.map_map] at hrun
  have hmetadata : h.addMetadata doc' = h := by
    have hnotes : h.exports = g.exports ∧ h.assets = g.assets :=
      ⟨(congrArg Graph.exports hgains.rest :), (congrArg Graph.assets hgains.rest :)⟩
    refine addMetadata_again (g := (doc.fragments.map (·.prepare.1)).foldl Graph.merge ∅) hdoc' ?_ ?_
    · rw [hnotes.1, hg, ofDocument_eq, addMetadata_eq]
    · rw [hnotes.2, hg, ofDocument_eq, addMetadata_eq]
      rfl
  have hingest : (g.ingest doc').1 = h.addMetadata doc' := by
    simp only [ingest, List.map_map]
    rfl
  rwa [hingest, hmetadata]

/-- **Ingesting a document again adds nothing but modules**, where no two nodes share an identifier and
the unused parameters are called parameters. -/
theorem ingest_again (hdoc : doc.Unshared) :
    ((ofDocument doc).1.ingest doc).1 = (ofDocument doc).1 ∧
      ∀ doc' : Document, doc'.withoutModules = doc.withoutModules →
        GainsModules (ofDocument doc).1 doc'.sourceFiles ((ofDocument doc).1.ingest doc').1 := by
  refine ⟨(gainsModules_ingest hdoc rfl).eq_self fun components x hx m hm => ?_,
    fun doc' hdoc' => gainsModules_ingest hdoc hdoc'⟩
  obtain ⟨_, hfile, rfl, hmodule⟩ := mem_modulesAt.1 hm
  obtain ⟨f, hf, rfl⟩ := List.mem_map.1 hfile
  obtain ⟨y, hy, hincludes⟩ := (standsIn_ofDocument hdoc hf).file
  have hy : (ofDocument doc).1.files.find? f.file.sourceFile.path.components = some y := hy
  rw [hx] at hy
  cases hy
  exact hincludes.modules m hmodule

/-- A file of a module, reported in two parts.  A class has a method with an unused parameter; the method
makes a use twice, with another one nested in it, and something in it has no identifier. -/
def widget (module : String) : Document :=
  let file : FileNode :=
    { path := ⟨"Widget.swift"⟩, modules := .singleton module
      imports := [{ module := "Foundation", line := 1 }] }
  let use : ReferenceNode :=
    { kind := .structType, usr := "s:Size", line := 5
      references := [{ kind := .initializer, usr := "s:Size.init", line := 5 }] }
  let method : DeclarationNode :=
    { kind := .instanceMethod, usrs := ["s:draw"], name := some "draw(scale:)", line := 4
      accessibility := some .publicTier, comments := ["swiftdeadcode:ignore"]
      unusedParameters := [{ kind := .parameter, usrs := ["s:scale"], line := 4, column := 13 }]
      declarations := [{ kind := .localVariable, line := 6 }]
      references := [use, use] }
  { fragments := [
      { file
        declarations := [
          { kind := .classType, usrs := ["s:Widget", "c:Widget"], name := some "Widget", line := 3
            attributes := ["objc"], isObjcAccessible := true, declarations := [method]
            related := [{ kind := .protocolType, usr := "s:Drawable", line := 3
                          role := .inheritedType }] }] },
      { file := { file with imports := [{ module := "Drawing", line := 2 }] }
        references := [{ kind := .classType, usr := "s:Widget", line := 9 }] }]
    moduleExports := SortedMap.insert ∅ "Drawing" ["Core", "Geometry"]
    assetReferences := [{ name := "Widget", source := .interfaceBuilder }] }

/-- The file in its module once more, and then in another one. -/
theorem ingest_again_widget :
    let g := (ofDocument (widget "App")).1
    let h := (g.ingest (widget "Extension")).1
    (widget "App").Unshared ∧ (g.ingest (widget "App")).1 = g ∧
      (widget "Extension").withoutModules = (widget "App").withoutModules ∧
      GainsModules g (widget "Extension").sourceFiles h ∧
      g.declarationCount = 3 ∧ h.referenceCount = 4 ∧
      (h.modulesOf ⟨"Widget.swift"⟩).toList = ["App", "Extension"] := by
  intro g h
  have hdoc : (widget "App").Unshared := ⟨by decide, by decide⟩
  obtain ⟨hsame, hmodules⟩ := ingest_again hdoc
  exact ⟨hdoc, hsame, rfl, hmodules _ rfl, by decide +kernel, by decide +kernel, by decide +kernel⟩

end Graph

end Deadwood

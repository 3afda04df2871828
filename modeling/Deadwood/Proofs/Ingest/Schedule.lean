/-
  Workers that ingest a document together, and the graph they leave behind.

  1. **`Workshop`** — one worker for each fragment, and the graph they share.  A worker prepares its
     fragment on its own, waits until nobody is in the mutation section, takes up the graph there,
     and puts back the merged one when it leaves.  A schedule is any run of such steps.

  2. **Invariant (`Progress`)** — there is one worker in the section at most, and the graph that it
     took up is the shared one.  So no work is lost: the shared graph is that of the fragments of
     those who have left, in the order in which they left.

  3. **Result (`twin_of_builds`)** — whether the fragments are merged one after the other in some
     order, or by workers on some schedule, the graphs differ in the numbers of their handles only.
-/
import Deadwood.Proofs.Ingest.Order
import Mathlib.Algebra.GroupWithZero.Nat
import Mathlib.Logic.Relation

namespace Deadwood

/-! ## Workers -/

/-- Where a worker is with its fragment. -/
inductive Stage where
  | waiting (f : Fragment)
  | prepared (f : PreparedFragment)
  /-- In the mutation section, with the graph found there. -/
  | merging (found : Graph) (f : PreparedFragment)
  | done

namespace Stage

/-- Whether the worker is in the mutation section. -/
def isMerging : Stage → Bool
  | merging _ _ => true
  | _ => false

/-- What the worker has still to contribute. -/
def fragment? : Stage → Option PreparedFragment
  | waiting f => some f.prepare.1
  | prepared f => some f
  | merging _ f => some f
  | done => none

/-- How many steps the worker has before it. -/
def steps : Stage → Nat
  | waiting _ => 3
  | prepared _ => 2
  | merging _ _ => 1
  | done => 0

end Stage

/-- The shared graph and the workers. -/
structure Workshop where
  graph : Graph
  stages : List Stage

namespace Workshop

/-- No work has been done yet. -/
def start (fs : List Fragment) : Workshop := ⟨∅, fs.map .waiting⟩

/-- One step of one worker. -/
inductive Step : Workshop → Workshop → Prop where
  | prepare {g : Graph} {before after : List Stage} {f : Fragment} :
      Step ⟨g, before ++ .waiting f :: after⟩ ⟨g, before ++ .prepared f.prepare.1 :: after⟩
  | enter {g : Graph} {before after : List Stage} {f : PreparedFragment}
      (free : ∀ s ∈ before ++ after, s.isMerging = false) :
      Step ⟨g, before ++ .prepared f :: after⟩ ⟨g, before ++ .merging g f :: after⟩
  | leave {g found : Graph} {before after : List Stage} {f : PreparedFragment} :
      Step ⟨g, before ++ .merging found f :: after⟩ ⟨found.merge f, before ++ .done :: after⟩

/-- Any number of steps, of whichever workers. -/
abbrev Run : Workshop → Workshop → Prop := Relation.ReflTransGen Step

/-- Every worker is done. -/
def Finished (w : Workshop) : Prop := ∀ s ∈ w.stages, s = .done

/-- What holds along every schedule for the fragments `fs`. -/
structure Progress (fs : List PreparedFragment) (w : Workshop) : Prop where
  /-- The section is for one worker. -/
  exclusive : w.stages.Pairwise fun s t => s.isMerging = true → t.isMerging = false
  /-- The worker in the section works on the shared graph. -/
  current : ∀ found f, .merging found f ∈ w.stages → found = w.graph
  /-- The shared graph is that of the fragments merged so far; the others are still to come. -/
  merged : ∃ order : List PreparedFragment, w.graph = order.foldl Graph.merge ∅ ∧
    (order ++ w.stages.filterMap Stage.fragment?).Perm fs

variable {fs : List PreparedFragment} {v w : Workshop}

theorem progress_start (fs : List Fragment) :
    Progress (fs.map fun f => f.prepare.1) (start fs) where
  exclusive := by
    refine List.pairwise_map.2 (List.pairwise_of_forall fun a b h => ?_)
    cases h
  current found f hf := by
    obtain ⟨a, -, ha⟩ := List.mem_map.1 hf
    cases ha
  merged := by
    refine ⟨[], rfl, ?_⟩
    have he : (start fs).stages.filterMap Stage.fragment? = fs.map fun f => f.prepare.1 := by
      simp [start, List.filterMap_map, Function.comp_def, Stage.fragment?]
    rw [he]
    exact .refl _

/-- **One step of one worker.** -/
theorem Progress.step (H : Progress fs v) (hs : Step v w) : Progress fs w := by
  obtain ⟨hex, hcurrent, order, hg, hp⟩ := H
  cases hs with
  | @prepare g before after f =>
      refine ⟨?_, fun found f' hm => hcurrent found f' ?_, order, hg, ?_⟩
      · simp only [List.pairwise_append, List.pairwise_cons, List.mem_cons] at hex ⊢
        grind [Stage.isMerging]
      · simpa using hm
      · simpa [List.filterMap_append, List.filterMap_cons, Stage.fragment?] using hp
  | @enter g before after f free =>
      -- nobody else is in the section, so the graph found there is the shared one
      refine ⟨?_, fun found f' hm => ?_, order, hg, ?_⟩
      · simp only [List.pairwise_append, List.pairwise_cons, List.mem_append, List.mem_cons]
          at hex free ⊢
        grind
      · simp only [List.mem_append, List.mem_cons] at hm free
        rcases hm with hm | hm | hm
        · cases free _ (.inl hm)
        · cases hm
          rfl
        · cases free _ (.inr hm)
      · simpa [List.filterMap_append, List.filterMap_cons, Stage.fragment?] using hp
  | @leave g found before after f =>
      have hfound : found = g := hcurrent found f (by simp)
      have hothers : ∀ s ∈ before ++ after, s.isMerging = false := by
        simp only [List.pairwise_append, List.pairwise_cons, List.mem_append, List.mem_cons]
          at hex ⊢
        grind [Stage.isMerging]
      refine ⟨?_, fun found' f' hm => ?_, order ++ [f], ?_, ?_⟩
      · simp only [List.pairwise_append, List.pairwise_cons, List.mem_cons] at hex ⊢
        grind [Stage.isMerging]
      · have hm : Stage.merging found' f' ∈ before ++ after := by simpa using hm
        cases hothers _ hm
      · rw [List.foldl_append, ← hg, hfound]
        rfl
      · -- the fragment goes from what is to come to what is merged
        refine List.Perm.trans ?_ hp
        simp only [List.filterMap_append, List.filterMap_cons, Stage.fragment?, List.append_assoc,
          List.singleton_append]
        refine List.Perm.append_left order ?_
        exact List.perm_middle.symm

/-- **Every schedule.** -/
theorem Progress.run (H : Progress fs v) (hr : Run v w) : Progress fs w := by
  induction hr with
  | refl => exact H
  | tail _ hs ih => exact ih.step hs

/-- When all workers are done, the fragments have been merged in some order. -/
theorem Progress.exists_order (H : Progress fs w) (hw : w.Finished) :
    ∃ order : List PreparedFragment, order.Perm fs ∧ w.graph = order.foldl Graph.merge ∅ := by
  obtain ⟨order, hg, hp⟩ := H.merged
  have hnone : w.stages.filterMap Stage.fragment? = [] := by
    refine List.filterMap_eq_nil_iff.2 fun s hs => ?_
    rw [hw s hs]
    rfl
  rw [hnone, List.append_nil] at hp
  exact ⟨order, hp, hg⟩

/-! ## No deadlock -/

/-- **While some worker is not done, some worker can go on**, and less is left to do then. -/
theorem exists_step (hw : ¬ w.Finished) : ∃ v, Step w v ∧
    (v.stages.map Stage.steps).sum < (w.stages.map Stage.steps).sum := by
  obtain ⟨g, stages⟩ := w
  by_cases hmerging : ∃ s ∈ stages, s.isMerging = true
  · obtain ⟨s, hs, hm⟩ := hmerging
    obtain ⟨before, after, rfl⟩ := List.append_of_mem hs
    cases s with
    | merging found f => exact ⟨_, .leave, by simp [Stage.steps]⟩
    | waiting | prepared | done => cases hm
  · -- nobody is in the section: whoever has prepared its fragment may enter
    have hfree : ∀ s ∈ stages, s.isMerging = false := fun s hs => by
      simpa using fun h => hmerging ⟨s, hs, h⟩
    have hleft : ∃ s ∈ stages, s ≠ .done := by
      simpa [Finished] using hw
    obtain ⟨s, hs, hne⟩ := hleft
    obtain ⟨before, after, rfl⟩ := List.append_of_mem hs
    have hothers : ∀ s ∈ before ++ after, s.isMerging = false := fun t ht => by
      refine hfree t ?_
      simp only [List.mem_append, List.mem_cons] at ht ⊢
      exact ht.imp_right .inr
    cases s with
    | waiting f => exact ⟨_, .prepare, by simp [Stage.steps]⟩
    | prepared f => exact ⟨_, .enter hothers, by simp [Stage.steps]⟩
    | merging found f => cases hfree _ hs
    | done => exact absurd rfl hne

/-- Every schedule can be completed. -/
theorem exists_run_finished (w : Workshop) : ∃ v, Run w v ∧ v.Finished := by
  induction hn : (w.stages.map Stage.steps).sum using Nat.strong_induction_on generalizing w with
  | h n ih =>
      by_cases hw : w.Finished
      · exact ⟨w, .refl, hw⟩
      · obtain ⟨v, hs, hlt⟩ := exists_step hw
        obtain ⟨u, hr, hu⟩ := ih _ (hn ▸ hlt) v rfl
        exact ⟨u, .head hs hr, hu⟩

end Workshop

/-! ## Metadata -/

namespace Graph

variable {δ : DeclId ≃ DeclId} {ρ : RefId ≃ RefId} {g h : Graph}

/-- Metadata does not tell twins apart. -/
theorem Twin.addMetadata (T : Twin δ ρ g h) (doc : Document) :
    Twin δ ρ (g.addMetadata doc) (h.addMetadata doc) := by
  have hexports : h.exports = g.exports := T.notes.exports
  have hassets : h.assets = g.assets := T.notes.assets
  rw [addMetadata_eq, addMetadata_eq, hexports, hassets]
  exact
    { declaration := T.declaration
      reference := T.reference
      roots := T.roots
      rootReferences := T.rootReferences
      notes := { T.notes with exports := rfl, assets := rfl }
      left := T.left.of_noted ⟨T.left.marked_live, T.left.recorded⟩ rfl rfl rfl rfl rfl rfl rfl
      right := T.right.of_noted ⟨T.right.marked_live, T.right.recorded⟩ rfl rfl rfl rfl rfl rfl rfl
      unambiguous := T.unambiguous }

end Graph

/-! ## Documents -/

/-- The fragments of a document have different paths; no two of its declaration nodes carry the
same identifier; no two root references of different fragments name the same identifier at the same
place. -/
structure Document.Separate (doc : Document) : Prop where
  paths : doc.fragments.Pairwise fun a b => a.file.path.same b.file.path = false
  identifiers : (doc.fragments.flatMap Fragment.nodes).Pairwise fun m n =>
    ∀ usr ∈ m.usrs, usr ≠ "" → usr ∉ n.usrs
  references : doc.fragments.Pairwise fun a b => ∀ m ∈ a.references, ∀ n ∈ b.references,
    m.usr = n.usr → m.usr ≠ "" → (m.mention a.file.path false).location.place ≠
      (n.mention b.file.path false).location.place

/-- The graphs that can come out of a document: its fragments are merged one after the other, in
some order, or by workers, on some schedule. -/
inductive Document.Builds (doc : Document) : Graph → Prop where
  | sequential {fs : List Fragment} (order : fs.Perm doc.fragments) :
      Builds doc (Graph.ofDocument { doc with fragments := fs }).1
  | parallel {w : Workshop} (run : Workshop.Run (.start doc.fragments) w) (done : w.Finished) :
      Builds doc (w.graph.addMetadata doc)

/-- Nodes that share no identifier make symbols that share none. -/
theorem disjoint_of_symbol? {m n : DeclarationNode} {path path' : Path} {s t : Symbol}
    (hmn : ∀ usr ∈ m.usrs, usr ≠ "" → usr ∉ n.usrs) (hs : m.symbol? path = some s)
    (ht : n.symbol? path' = some t) : ∀ usr ∈ s.usrs.toList, usr ∉ t.usrs.toList := by
  intro usr hus hut
  obtain ⟨hm, hne⟩ := (DeclarationNode.usrs_of_symbol? hs).2 usr hus
  obtain ⟨hn, -⟩ := (DeclarationNode.usrs_of_symbol? ht).2 usr hut
  exact hmn usr hm hne hn

theorem neat_prepare {f : Fragment}
    (hf : f.nodes.Pairwise fun m n => ∀ usr ∈ m.usrs, usr ≠ "" → usr ∉ n.usrs) :
    f.prepare.1.Neat where
  identified := identified_prepare f
  apart := by
    obtain ⟨ns, hns, hsymbols⟩ := symbols_prepare f
    rw [hsymbols, List.pairwise_filterMap]
    exact (hf.sublist hns).imp fun hmn s hs t ht => disjoint_of_symbol? hmn hs ht

/-- Fragments whose nodes share no identifier have symbols that share none. -/
theorem disjoint_prepare {a b : Fragment}
    (hnodes : ∀ m ∈ a.nodes, ∀ n ∈ b.nodes, ∀ usr ∈ m.usrs, usr ≠ "" → usr ∉ n.usrs) :
    ∀ s ∈ a.prepare.1.symbols, ∀ t ∈ b.prepare.1.symbols, ∀ usr ∈ s.usrs.toList,
      usr ∉ t.usrs.toList := by
  intro s hs t ht
  obtain ⟨ms, hms, ha⟩ := symbols_prepare a
  obtain ⟨ns, hns, hb⟩ := symbols_prepare b
  rw [ha] at hs
  rw [hb] at ht
  obtain ⟨m, hm, hms'⟩ := List.mem_filterMap.1 hs
  obtain ⟨n, hn, hnt⟩ := List.mem_filterMap.1 ht
  exact disjoint_of_symbol? (hnodes m (hms.subset hm) n (hns.subset hn)) hms' hnt

theorem apart_prepare {a b : Fragment} (hpath : a.file.path.same b.file.path = false)
    (hnodes : ∀ m ∈ a.nodes, ∀ n ∈ b.nodes, ∀ usr ∈ m.usrs, usr ≠ "" → usr ∉ n.usrs)
    (hreferences : ∀ m ∈ a.references, ∀ n ∈ b.references, m.usr = n.usr → m.usr ≠ "" →
      (m.mention a.file.path false).location.place ≠
        (n.mention b.file.path false).location.place) :
    a.prepare.1.Apart b.prepare.1 where
  file := by
    have hpath : (a.file.path.components == b.file.path.components) = false := hpath
    exact ne_of_beq_false hpath
  symbols := disjoint_prepare hnodes
  references s hs t ht hk := by
    obtain ⟨m, hm, hne, hms⟩ := mention_prepareReferences hs
    obtain ⟨n, hn, -, hnt⟩ := mention_prepareReferences ht
    rw [hms, hnt] at hk
    have hplace := congrArg Mention.Key.place hk
    have husr := congrArg Mention.Key.usr hk
    exact hreferences m hm n hn husr hne hplace

/-- The prepared fragments of a document that is separate may be merged in any order. -/
theorem Document.Separate.admissible {doc : Document} (H : doc.Separate) :
    (∅ : Graph).Admissible (doc.fragments.map fun f => f.prepare.1) := by
  obtain ⟨hwithin, hbetween⟩ := List.pairwise_flatMap.1 H.identifiers
  refine ⟨fun f hf => ?_, fun f _ => Graph.admits_empty, ?_⟩
  · obtain ⟨a, ha, rfl⟩ := List.mem_map.1 hf
    exact neat_prepare (hwithin a ha)
  · rw [List.pairwise_map]
    refine (H.paths.and (hbetween.and H.references)).imp fun h => ?_
    exact apart_prepare h.1 h.2.1 h.2.2

/-- Every graph that can come out of a document has its fragments merged in some order. -/
theorem Document.Builds.exists_order {doc : Document} {g : Graph} (hg : doc.Builds g) :
    ∃ order : List PreparedFragment, order.Perm (doc.fragments.map fun f => f.prepare.1) ∧
      g = (order.foldl Graph.merge ∅).addMetadata doc := by
  cases hg with
  | @sequential fs order =>
      refine ⟨fs.map fun f => f.prepare.1, order.map _, ?_⟩
      simp only [Graph.ofDocument, Graph.ingest, List.map_map, Function.comp_def]
      rfl
  | @parallel w run done =>
      obtain ⟨order, hp, hw⟩ := ((Workshop.progress_start doc.fragments).run run).exists_order done
      exact ⟨order, hp, by rw [hw]⟩

/-- **Ingestion does not depend on the order in which fragments are merged.** -/
theorem Document.twin_of_builds {doc : Document} (hdoc : doc.Separate) {g h : Graph}
    (hg : doc.Builds g) (hh : doc.Builds h) : ∃ δ ρ, Graph.Twin δ ρ g h := by
  obtain ⟨order, hp, rfl⟩ := hg.exists_order
  obtain ⟨order', hp', rfl⟩ := hh.exists_order
  have hadmissible := hdoc.admissible.perm hp.symm
  obtain ⟨-, δ, ρ, T⟩ := Graph.foldl_merge_perm (hp.trans hp'.symm) Graph.budding_empty hadmissible
  exact ⟨δ, ρ, T.addMetadata doc⟩

/-- A type in one file, and in another file a function that uses it, with a parameter that it does
not use. -/
def typeAndCaller : Document :=
  { fragments := [
      { file := { path := ⟨"A.swift"⟩, modules := SortedSet.ofList ["App"] }
        declarations := [{ kind := .structType, usrs := ["s:A"], name := some "A", line := 1 }] },
      { file := { path := ⟨"B.swift"⟩, modules := SortedSet.ofList ["App"] }
        declarations := [{
          kind := .freeFunction, usrs := ["s:f"], name := some "f", line := 1
          unusedParameters := [{ kind := .parameter, usrs := ["s:f.x"], line := 1, column := 8 }]
          references := [{ kind := .structType, usr := "s:A", line := 2 }] }]
        references := [{ kind := .freeFunction, usr := "s:f", line := 5 }] }] }

/-- The two files in their order, in the other one, and as their workers come along. -/
theorem Document.twin_of_builds_typeAndCaller : typeAndCaller.Separate ∧
    (∃ δ ρ, Graph.Twin δ ρ (Graph.ofDocument typeAndCaller).1
      (Graph.ofDocument { typeAndCaller with fragments := typeAndCaller.fragments.reverse }).1) ∧
    ∃ w, Workshop.Run (.start typeAndCaller.fragments) w ∧ w.Finished ∧
      ∃ δ ρ, Graph.Twin δ ρ (Graph.ofDocument typeAndCaller).1
        (w.graph.addMetadata typeAndCaller) := by
  have hdoc : typeAndCaller.Separate := by
    refine ⟨?_, ?_, ?_⟩
    · decide
    · decide
    · decide
  have hfirst : typeAndCaller.Builds (Graph.ofDocument typeAndCaller).1 := .sequential (.refl _)
  obtain ⟨w, hr, hw⟩ := Workshop.exists_run_finished (.start typeAndCaller.fragments)
  exact ⟨hdoc, twin_of_builds hdoc hfirst (.sequential (List.reverse_perm _)), w, hr, hw,
    twin_of_builds hdoc hfirst (.parallel hr hw)⟩

end Deadwood

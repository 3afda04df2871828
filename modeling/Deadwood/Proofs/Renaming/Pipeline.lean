/-
  The analysis does not depend on the numbers of handles, where every declaration has an identifier.

  1. **One pass** (`follows_run`) — twins make a pass give up for the same reason, or it leads to
     twins.  One case per pass, each settled where the pass is.

  2. **A run** (`follows_runPasses`) — by induction over the passes, so the whole analysis of
     renamed graphs fails alike or ends in renamed graphs.

  3. **Identifiers (`not_renamed_overlays`)** — two declarations that stand at one place are told apart
     by their identifiers, and by their numbers where they have none.  Without identifiers the order
     in which two extensions are folded is that of their handles, and so is what is lost on the way.
-/
import Deadwood.Pipeline
import Deadwood.Proofs.Reachability
import Deadwood.Proofs.Renaming.Folding
import Deadwood.Proofs.Renaming.Protocols
import Deadwood.Proofs.Renaming.Redundancy

namespace Deadwood

open Deadwood.Graph

variable {δ : DeclId ≃ DeclId} {ρ : RefId ≃ RefId} {g h : Graph} {s : Settings}

/-- **Every pass leads from twins to twins, or gives up for the same reason.** -/
theorem Pass.follows_run (T : Twin δ ρ g h) (pass : Pass) :
    Outcome.Follows δ ρ g h (pass.run s g) (pass.run s h) := by
  have hretain : ∀ {xs ys : List DeclId}, Mapped δ xs ys →
      Outcome.Follows δ ρ g h (.done (g.retainAll xs)) (.done (h.retainAll ys)) := fun H =>
    .done (T.tracks_markAll .retained H)
  cases pass with
  | unusedImports => exact .done (Imports.tracks_markUnused T)
  | directives => exact .done (Directives.tracks_obey T)
  | cascadeAccess => exact .done (Extensions.tracks_cascadeAccess T)
  | foldExtensions => exact Extensions.follows_foldAll T
  | protocolExtensions => exact Protocols.follows_connectExtensions T
  | conformances => exact .done (Protocols.tracks_invertConformances T)
  | overrides => exact .done (Overrides.tracks_connect T)
  | foreignOverrides => exact hretain (Overrides.mapped_foreign T)
  | enumCases => exact .done (Synthesis.tracks_enumCases T)
  | defaultConstructors => exact .done (Synthesis.tracks_defaultConstructors T)
  | memberwiseInitializers => exact Synthesis.follows_memberwiseInitializers T
  | genericConstructors => exact .done (Synthesis.tracks_genericConstructors T)
  | accessors => exact .done (Synthesis.tracks_accessors T)
  | dynamicMembers => exact hretain (T.mapped_declIdsWhere fun _ => rfl)
  | propertyWrappers => exact hretain (Retention.mapped_membersOfTypesWith T fun _ => rfl)
  | resultBuilders => exact hretain (Retention.mapped_membersOfTypesWith T fun _ => rfl)
  | stringInterpolation => exact hretain (T.mapped_declIdsWhere fun _ => rfl)
  | entryPoints => exact hretain (T.mapped_declIdsWhere fun _ => rfl)
  | previews => exact hretain (Retention.mapped_previews T)
  | testCases => exact hretain (Retention.mapped_testCases T)
  | markedTests => exact hretain (T.mapped_declIdsWhere fun _ => rfl)
  | assets => exact hretain (Retention.mapped_assets T)
  | publicApi => exact hretain (Retention.mapped_publicApi T)
  | objcAccessible => exact hretain (Retention.mapped_objcAccessible T)
  | patterns => exact hretain (T.mapped_declIdsWhere fun _ => rfl)
  | unusedParameters => exact hretain (Parameters.mapped_kept T)
  | assignOnlyProperties => exact .done (AssignOnly.tracks_eliminate T)
  | reachability => exact .done (Reachability.tracks_markUsed T)
  | redundantProtocols => exact .done (RedundantProtocols.tracks_markRedundant T)
  | redundantPublic => exact RedundantAccess.follows_markPublic T
  | redundantInternal => exact RedundantAccess.follows_markInternal T
  | redundantFileprivate => exact RedundantAccess.follows_markFileprivate T

/-- **Every run fails alike, or leads from twins to twins.** -/
theorem follows_runPasses (T : Twin δ ρ g h) (passes : List Pass) :
    (runPasses s h passes).failure = (runPasses s g passes).failure ∧
      ((runPasses s g passes).failure = none →
        Tracks δ ρ g h (runPasses s g passes).graph (runPasses s h passes).graph) := by
  induction passes generalizing ρ g h with
  | nil => exact ⟨rfl, fun _ => .refl T⟩
  | cons pass passes ih =>
      have H := pass.follows_run T (s := s)
      rw [runPasses, runPasses]
      simp only [H.1]
      cases hf : (pass.run s g).fault with
      | some cause => exact ⟨rfl, fun hnone => by cases hnone⟩
      | none =>
          -- the twins after the first pass decide the rest
          have hrest := H.2 hf
          refine ⟨?_, fun hnone => hrest.bind fun ρ' _ T' => (ih T').2 hnone⟩
          obtain ⟨ρ', -, -, -, T'⟩ := hrest
          exact (ih T').1

/-- The analysis leads from twins to twins. -/
theorem Graph.Twin.follows_analyse (T : Twin δ ρ g h) (s : Settings) :
    (analyse s h).failure = (analyse s g).failure ∧
      ((analyse s g).failure = none → ∃ ρ' : RefId ≃ RefId,
        (∀ r, g.hasReference r = true → ρ' r = ρ r) ∧
        Twin δ ρ' (analyse s g).graph (analyse s h).graph) := by
  obtain ⟨hfail, hrun⟩ := follows_runPasses T (standardPasses s) (s := s)
  refine ⟨hfail, fun hnone => ?_⟩
  obtain ⟨ρ', hagree, -, -, T'⟩ := hrun hnone
  refine ⟨ρ', fun r hr => hagree r (index_lt_of_hasReference hr) (index_lt_of_hasReference ?_), T'⟩
  rw [T.hasReference]
  exact hr

theorem Graph.Built.consistent (hg : g.Built) (hi : g.Identified) : g.Consistent :=
  { hg.coherent with identified := fun _ => hi }

/-- Identifiers are not renamed. -/
theorem Graph.Renamed.identified (R : Renamed δ ρ g h) (hi : g.Identified) : h.Identified := by
  intro d x hx
  obtain ⟨c, rfl⟩ := δ.surjective d
  rw [R.declaration] at hx
  obtain ⟨y, hy, rfl⟩ := Option.map_eq_some_iff.1 hx
  exact hi c y hy

/-- Renamed graphs are twins, whatever happened to them, where identifiers tell the declarations
apart. -/
theorem Graph.Renamed.twin (R : Renamed δ ρ g h) (hg : g.Built) (hh : h.Built) (hi : g.Identified)
    (hu : g.Unambiguous) : Twin δ ρ g h :=
  ⟨R, hg.consistent hi, hh.consistent (R.identified hi), hu⟩

/-- **The analysis does not depend on the numbers of handles.**  Take two graphs that differ in the
numbers of their handles only, let every declaration carry an identifier and no identifier be carried
by two.  Then the analysis fails on both for the same reason, or it ends on both, in graphs that again
differ in the numbers of their handles only; the references that were there keep their names. -/
theorem renamed_analyse (hg : g.Built) (hh : h.Built) (hi : g.Identified) (R : Renamed δ ρ g h)
    (hu : g.Unambiguous) (s : Settings) :
    (analyse s h).failure = (analyse s g).failure ∧
      ((analyse s g).failure = none → ∃ ρ' : RefId ≃ RefId,
        (∀ r, g.hasReference r = true → ρ' r = ρ r) ∧
        Renamed δ ρ' (analyse s g).graph (analyse s h).graph) := by
  obtain ⟨hfail, hrun⟩ := (R.twin hg hh hi hu).follows_analyse s
  refine ⟨hfail, fun hnone => ?_⟩
  obtain ⟨ρ', hagree, T'⟩ := hrun hnone
  exact ⟨ρ', hagree, T'.toRenamed⟩

/-! ## Handles that were given out -/

section Issued

variable {n : Nat}

/-- Swapping two handles that were given out leaves the others. -/
theorem swap_eq_of_le {α : Type} [DecidableEq α] (index : α → Nat) {a b x : α} (ha : index a < n)
    (hb : index b < n) (hx : n ≤ index x) : Equiv.swap a b x = x := by
  refine Equiv.swap_apply_of_ne_of_ne ?_ ?_
  · rintro rfl
    omega
  · rintro rfl
    omega

/-- Handles that were not given out need not be looked at. -/
theorem declaration_of_lt (hg : g.declarations.size ≤ n) (hh : h.declarations.size ≤ n)
    (hfix : ∀ d : DeclId, n ≤ d.index → δ d = d)
    (hall : ∀ i < n, h.declaration? (δ ⟨i⟩) = (g.declaration? ⟨i⟩).map (·.rename δ ρ)) (d : DeclId) :
    h.declaration? (δ d) = (g.declaration? d).map (·.rename δ ρ) := by
  rcases Nat.lt_or_ge d.index n with hlt | hge
  · exact hall d.index hlt
  · have hleft : g.declaration? d = none := Arena.get?_eq_none_of_size_le (hg.trans hge)
    have hright : h.declaration? d = none := Arena.get?_eq_none_of_size_le (hh.trans hge)
    rw [hfix d hge, hleft, hright, Option.map_none]

theorem reference_of_lt (hg : g.references.size ≤ n) (hh : h.references.size ≤ n)
    (hfix : ∀ r : RefId, n ≤ r.index → ρ r = r)
    (hall : ∀ i < n, h.reference? (ρ ⟨i⟩) = (g.reference? ⟨i⟩).map (·.rename δ ρ)) (r : RefId) :
    h.reference? (ρ r) = (g.reference? r).map (·.rename δ ρ) := by
  rcases Nat.lt_or_ge r.index n with hlt | hge
  · exact hall r.index hlt
  · have hleft : g.reference? r = none := Arena.get?_eq_none_of_size_le (hg.trans hge)
    have hright : h.reference? r = none := Arena.get?_eq_none_of_size_le (hh.trans hge)
    rw [hfix r hge, hleft, hright, Option.map_none]

end Issued

/-- The functions of `mutualCalls`, entered in the other order. -/
def mutualCallsReversed : Graph :=
  let spot (line : Nat) : Location := ⟨⟨"a.swift"⟩, line, 1⟩
  let ops : List Operation := [
    .addDeclaration { kind := .freeFunction, usrs := .singleton "g", location := spot 5 } none,
    .addReference { kind := .freeFunction, usr := "f", location := spot 6 } (some (.declaration ⟨0⟩)),
    .addDeclaration { kind := .freeFunction, usrs := .singleton "f", location := spot 1 } none,
    .addReference { kind := .freeFunction, usr := "g", location := spot 2 } (some (.declaration ⟨1⟩)),
    .mark .retained ⟨1⟩]
  ops.foldl Operation.apply ∅

theorem reachable_mutualCallsReversed : mutualCallsReversed.Reachable :=
  Reachable.empty.foldl_apply
    ⟨List.cons_ne_nil _ _, trivial, List.cons_ne_nil _ _, trivial, trivial, trivial⟩

theorem renamed_mutualCallsReversed : Renamed (Equiv.swap ⟨0⟩ ⟨1⟩) (Equiv.swap ⟨0⟩ ⟨1⟩)
    Reachability.mutualCalls mutualCallsReversed where
  declaration := declaration_of_lt (n := 2) (by decide +kernel) (by decide +kernel)
    (fun _ hd => swap_eq_of_le DeclId.index (by decide) (by decide) hd) (by decide +kernel)
  reference := reference_of_lt (n := 2) (by decide +kernel) (by decide +kernel)
    (fun _ hr => swap_eq_of_le RefId.index (by decide) (by decide) hr) (by decide +kernel)
  roots := by decide +kernel
  rootReferences := by decide +kernel
  notes :=
    { marks := fun mark => by cases mark <;> decide +kernel
      folded := fun _ => rfl
      redundantProtocols := fun _ => rfl
      redundantAccess := fun _ => rfl
      unusedImports := rfl
      files := rfl
      exports := rfl
      assets := rfl }

theorem renamed_analyse_mutualCalls :
    (analyse {} mutualCallsReversed).failure = none ∧ ∃ ρ' : RefId ≃ RefId,
      (∀ r, Reachability.mutualCalls.hasReference r = true → ρ' r = Equiv.swap ⟨0⟩ ⟨1⟩ r) ∧
      Renamed (Equiv.swap ⟨0⟩ ⟨1⟩) ρ' (analyse {} Reachability.mutualCalls).graph
        (analyse {} mutualCallsReversed).graph := by
  have hnone : (analyse {} Reachability.mutualCalls).failure = none := by decide +kernel
  have hg : Reachability.mutualCalls.Reachable := Reachability.reachable_mutualCalls
  obtain ⟨hfail, hrun⟩ := renamed_analyse hg.built reachable_mutualCallsReversed.built
    hg.consistent.identified renamed_mutualCallsReversed (by decide +kernel) {}
  exact ⟨hfail.trans hnone, hrun hnone⟩

/-! ## Without identifiers -/

theorem renamed_notes_empty : Notes.Renamed δ ρ (∅ : Graph).notes (∅ : Graph).notes where
  marks mark := by cases mark <;> rfl
  folded _ := rfl
  redundantProtocols _ := rfl
  redundantAccess _ := rfl
  unusedImports := rfl
  files := rfl
  exports := rfl
  assets := rfl

/-- A type and two extensions of it at one place, which carry no identifier.  Both call the same
function in the same place, within which the one calls `f` and the other `g`. -/
def overlays (one other : DeclId) : Graph :=
  let spot (line : Nat) : Location := ⟨⟨"a.swift"⟩, line, 1⟩
  let symbol (kind : Kind) (usr : String) (line : Nat) : Symbol :=
    { kind, usrs := .singleton usr, location := spot line }
  let overlay : Symbol := { kind := .structExtension, usrs := ∅, location := spot 10 }
  let base : Mention :=
    { kind := .structType, usr := "T", location := spot 10, role := .extendedType }
  let call (usr : String) (line : Nat) : Mention :=
    { kind := .freeFunction, usr, location := spot line }
  let ops : List Operation := [
    .addDeclaration (symbol .structType "T" 1) none,
    .addDeclaration (symbol .freeFunction "f" 2) none,
    .addDeclaration (symbol .freeFunction "g" 3) none,
    .addDeclaration overlay none, .addDeclaration overlay none,
    .addReference base (some (.declaration one)), .addReference base (some (.declaration other)),
    .addReference (call "print" 11) (some (.declaration one)),
    .addReference (call "print" 11) (some (.declaration other)),
    .addReference (call "f" 12) (some (.reference ⟨2⟩)),
    .addReference (call "g" 12) (some (.reference ⟨3⟩)),
    .addReference { kind := .structType, usr := "T", location := spot 20 } none]
  ops.foldl Operation.apply ∅

theorem built_overlays (one other : DeclId) : (overlays one other).Built :=
  Built.empty.foldl_apply (by simp [Operation.Issued])

theorem notes_overlays {one other : DeclId} : (overlays one other).notes = (∅ : Graph).notes := by
  have hadd : ∀ (k : Graph) (m : Mention) (o : Option Owner),
      (k.addReference m o).1.notes = k.notes := by
    intro k m o
    cases hnew : k.equalReference? m.key o with
    | none => exact notes_addReference hnew
    | some q => rw [addReference_eq_of_some hnew]
  simp only [overlays, List.foldl_cons, List.foldl_nil, Operation.apply, hadd, notes_addDeclaration]

theorem renamed_overlays : Renamed (Equiv.swap ⟨3⟩ ⟨4⟩) (Equiv.refl RefId)
    (overlays ⟨3⟩ ⟨4⟩) (overlays ⟨4⟩ ⟨3⟩) where
  declaration := declaration_of_lt (n := 5) (by decide +kernel) (by decide +kernel)
    (fun _ hd => swap_eq_of_le DeclId.index (by decide) (by decide) hd) (by decide +kernel)
  reference := reference_of_lt (n := 7) (by decide +kernel) (by decide +kernel) (fun _ _ => rfl)
    (by decide +kernel)
  roots := by decide +kernel
  rootReferences := by decide +kernel
  notes := by
    rw [notes_overlays, notes_overlays]
    exact renamed_notes_empty

/-- The extension with the lesser handle is folded first.  Then the type calls the function already,
so the call of the other one goes with what is nested in it: whether `f` or `g` ends up used is a
matter of numbers. -/
theorem not_renamed_overlays :
    (overlays ⟨3⟩ ⟨4⟩).Built ∧ (overlays ⟨4⟩ ⟨3⟩).Built ∧ (overlays ⟨3⟩ ⟨4⟩).Unambiguous ∧
      Renamed (Equiv.swap ⟨3⟩ ⟨4⟩) (Equiv.refl RefId) (overlays ⟨3⟩ ⟨4⟩) (overlays ⟨4⟩ ⟨3⟩) ∧
      (analyse {} (overlays ⟨3⟩ ⟨4⟩)).failure = none ∧
      (analyse {} (overlays ⟨4⟩ ⟨3⟩)).failure = none ∧
      ∀ ρ : RefId ≃ RefId, ¬ Renamed (Equiv.swap ⟨3⟩ ⟨4⟩) ρ (analyse {} (overlays ⟨3⟩ ⟨4⟩)).graph
        (analyse {} (overlays ⟨4⟩ ⟨3⟩)).graph := by
  refine ⟨built_overlays _ _, built_overlays _ _, by decide +kernel, renamed_overlays,
    by decide +kernel, by decide +kernel, fun ρ R => ?_⟩
  have hused : (analyse {} (overlays ⟨4⟩ ⟨3⟩)).graph.marks.used =
      (analyse {} (overlays ⟨3⟩ ⟨4⟩)).graph.marks.used.image (Equiv.swap ⟨3⟩ ⟨4⟩) :=
    R.notes.marks .used
  exact absurd hused (by decide +kernel)

end Deadwood

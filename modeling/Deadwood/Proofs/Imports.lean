/-
  Results about tiers and imports in the course of an analysis.

  1. **Editing** — no operation reads these results, and only recording one changes them: each
     operation gives the same result with other ones (`withResults`).

  2. **Passes (`Pass.run_withResults`)** — so does every pass but those that judge tiers or imports.
     A pass that judges a tier adds to the results about tiers, and gives the same result with other
     unused imports (`Pass.run_withImports`).

  3. **Runs (`runPasses_withImports`)** — and so does every run without the pass that judges imports.
-/
import Deadwood.Proofs.Access.Verdicts
import Deadwood.Proofs.Pipeline

namespace Deadwood

open Deadwood.Graph

namespace Graph

/-- The graph with other unused imports. -/
def withImports (g : Graph) (imports : SortedSet UnusedImport) : Graph :=
  { g with unusedImports := imports }

variable {g : Graph} {c d e t : DeclId} {q r : RefId} {mention : Mention} {mark : Mark}
  {owner : Option Owner} {m : SortedMap DeclId RedundantAccess} {u : SortedSet UnusedImport}

@[simp] theorem withImports_unusedImports : g.withImports g.unusedImports = g := rfl
@[simp] theorem withImports_withImports {v : SortedSet UnusedImport} :
    (g.withImports u).withImports v = g.withImports v := rfl

/-! ## Editing -/

/-- Steps that give the same result with other results, one after the other. -/
theorem foldl_withResults {α : Type} {f : Graph → α → Graph} {xs : List α}
    (hf : ∀ g a, f (g.withResults m u) a = (f g a).withResults m u) :
    xs.foldl f (g.withResults m u) = (xs.foldl f g).withResults m u :=
  List.foldl_hom (withResults · m u) hf

theorem mark_withResults : (g.withResults m u).mark mark d = (g.mark mark d).withResults m u := by
  have hsame : (g.withResults m u).hasDeclaration d = g.hasDeclaration d := rfl
  unfold Graph.mark
  rw [hsame]
  split <;> rfl

theorem markAll_withResults {ids : List DeclId} :
    (g.withResults m u).markAll mark ids = (g.markAll mark ids).withResults m u :=
  foldl_withResults fun _ _ => mark_withResults

theorem linkReference_withResults {related : Bool} :
    (g.withResults m u).linkReference r related owner =
      (g.linkReference r related owner).withResults m u := by
  rcases owner with _ | d | q <;> rfl

theorem unlinkReference_withResults :
    (g.withResults m u).unlinkReference r owner = (g.unlinkReference r owner).withResults m u := by
  rcases owner with _ | d | q <;> rfl

theorem addReference_withResults : (g.withResults m u).addReference mention owner =
    ((g.addReference mention owner).1.withResults m u, (g.addReference mention owner).2) := by
  have hsame : (g.withResults m u).equalReference? mention.key owner =
    g.equalReference? mention.key owner := rfl
  have hfilter : owner.filter (g.withResults m u).hasOwner = owner.filter g.hasOwner := rfl
  unfold addReference
  rw [hsame]
  split
  · rfl
  · dsimp only
    rw [hfilter, linkReference_withResults]
    rfl

theorem addUse_withResults :
    (g.withResults m u).addUse mention d = (g.addUse mention d).withResults m u :=
  congrArg Prod.fst addReference_withResults

theorem takeReference_withResults :
    (g.withResults m u).takeReference r = (g.takeReference r).withResults m u := by
  have hsame : (g.withResults m u).reference? r = g.reference? r := rfl
  unfold takeReference
  rw [hsame]
  split
  · rw [unlinkReference_withResults]
    rfl
  · rfl

theorem removeReference_withResults :
    (g.withResults m u).removeReference r = (g.removeReference r).withResults m u :=
  foldl_withResults fun _ _ => takeReference_withResults

theorem moveReference_withResults :
    (g.withResults m u).moveReference r t = (g.moveReference r t).withResults m u := by
  have hsame : (g.withResults m u).reference? r = g.reference? r := rfl
  have hlive : (g.withResults m u).hasDeclaration t = g.hasDeclaration t := rfl
  have hequal : ∀ key owner, (g.withResults m u).equalReference? key owner =
    g.equalReference? key owner := fun _ _ => rfl
  unfold moveReference
  simp only [hsame, hlive, hequal]
  split
  · split
    · rfl
    · split
      · exact removeReference_withResults
      · rw [unlinkReference_withResults, linkReference_withResults]
        rfl
  · rfl

theorem linkDeclaration_withResults {nesting : Nesting} {parent : Option DeclId} :
    (g.withResults m u).linkDeclaration d nesting parent =
      (g.linkDeclaration d nesting parent).withResults m u := by
  cases parent <;> rfl

theorem unlinkDeclaration_withResults {parent : Option DeclId} :
    (g.withResults m u).unlinkDeclaration d parent =
      (g.unlinkDeclaration d parent).withResults m u := by
  cases parent <;> rfl

theorem moveDeclaration_withResults :
    (g.withResults m u).moveDeclaration d t = (g.moveDeclaration d t).withResults m u := by
  have hsame : (g.withResults m u).declaration? d = g.declaration? d := rfl
  have hlive : (g.withResults m u).hasDeclaration t = g.hasDeclaration t := rfl
  have hparent : (g.withResults m u).parentDeclaration? d = g.parentDeclaration? d := rfl
  unfold moveDeclaration
  simp only [hsame, hlive, hparent]
  split
  · split
    · rw [unlinkDeclaration_withResults, linkDeclaration_withResults]
      rfl
    · rfl
  · rfl

theorem takeDeclaration_withResults :
    (g.withResults m u).takeDeclaration d = (g.takeDeclaration d).withResults m u := by
  have hsame : (g.withResults m u).declaration? d = g.declaration? d := rfl
  unfold takeDeclaration
  rw [hsame]
  split
  · rw [foldl_withResults fun _ _ => removeReference_withResults]
    dsimp only
    rw [unlinkDeclaration_withResults]
    rfl
  · rfl

theorem recordFolded_withResults :
    (g.withResults m u).recordFolded e t = (g.recordFolded e t).withResults m u := rfl

theorem setAccess_withResults {access : Access} :
    (g.withResults m u).setAccess d access = (g.setAccess d access).withResults m u := rfl

theorem removeDeclaration_withResults :
    (g.withResults m u).removeDeclaration d = (g.removeDeclaration d).withResults m u :=
  foldl_withResults fun _ _ => takeDeclaration_withResults

end Graph

/-! ## Passes -/

/-- The outcome of a pass on a graph that was changed. -/
def Outcome.map (f : Graph → Graph) (o : Outcome) : Outcome := { o with graph := f o.graph }

variable {s : Settings} {g : Graph} {c d e t : DeclId} {r : RefId} {ids : List DeclId}
  {m : SortedMap DeclId RedundantAccess} {u : SortedSet UnusedImport}

/-- Going on, or giving up, on a graph that was changed. -/
theorem Outcome.andThen_map {α : Type} (f : Graph → Graph) {answer : Except Fault α}
    {next next' : α → Outcome} (hnext : ∀ a, next' a = (next a).map f) :
    Outcome.andThen (f g) answer next' = (Outcome.andThen g answer next).map f := by
  cases answer with
  | error fault => rfl
  | ok a => exact hnext a

theorem Directives.obey_withResults : obey (g.withResults m u) = (obey g).withResults m u := by
  have hsuppressed : suppressed (g.withResults m u) = suppressed g := rfl
  have hkept : keptParameters (g.withResults m u) = keptParameters g := rfl
  unfold obey Graph.retainAll
  rw [hsuppressed, hkept]
  simp only [markAll_withResults]

namespace Extensions

theorem cascadeAccess_withResults :
    cascadeAccess (g.withResults m u) = (cascadeAccess g).withResults m u := by
  have hinherited : inheritedAccess (g.withResults m u) = inheritedAccess g := rfl
  unfold cascadeAccess
  rw [hinherited]
  exact foldl_withResults fun _ _ => setAccess_withResults

theorem foldInto_withResults {extended : Option RefId} : foldInto (g.withResults m u) e t extended =
    (foldInto g e t extended).map (·.withResults m u) := by
  have hextended : extended.elim (g.withResults m u) (g.withResults m u).removeReference =
      (extended.elim g g.removeReference).withResults m u := by
    cases extended with
    | none => rfl
    | some q => exact removeReference_withResults
  unfold foldInto
  rw [hextended]
  generalize extended.elim g g.removeReference = k
  have hsame : (k.withResults m u).declaration? e = k.declaration? e := rfl
  dsimp only
  rw [hsame]
  split
  · rfl
  · rw [foldl_withResults fun _ _ => moveDeclaration_withResults,
      foldl_withResults fun _ _ => moveReference_withResults, recordFolded_withResults,
      removeDeclaration_withResults]
    rfl

theorem foldOne_withResults :
    foldOne (g.withResults m u) e = (foldOne g e).map (·.withResults m u) := by
  have hsame : (g.withResults m u).declaration? e = g.declaration? e := rfl
  unfold foldOne
  rw [hsame]
  split
  · rfl
  · refine Outcome.andThen_map (·.withResults m u) fun extendedKind =>
      Outcome.andThen_map (·.withResults m u) fun target => ?_
    cases target with
    | none => exact congrArg Outcome.done mark_withResults
    | some t =>
        dsimp only
        split
        · rfl
        · exact Outcome.andThen_map (·.withResults m u) fun _ => foldInto_withResults

theorem foldEach_withResults :
    foldEach (g.withResults m u) ids = (foldEach g ids).map (·.withResults m u) := by
  induction ids generalizing g with
  | nil => rfl
  | cons e ids ih =>
      rw [foldEach, foldEach, foldOne_withResults]
      dsimp only [Outcome.map]
      split
      · rfl
      · exact ih

end Extensions

namespace Protocols

theorem refer_withResults {related : Bool} :
    refer (g.withResults m u) c d related = (refer g c d related).withResults m u := by
  have hsame : (g.withResults m u).declaration? d = g.declaration? d := rfl
  unfold refer
  rw [hsame]
  split
  · exact addUse_withResults
  · rfl

theorem connectOne_withResults :
    connectOne (g.withResults m u) e = (connectOne g e).map (·.withResults m u) := by
  refine Outcome.andThen_map (·.withResults m u) fun target => ?_
  cases target with
  | none => rfl
  | some proto =>
      dsimp only
      rw [refer_withResults]
      exact congrArg Outcome.done (foldl_withResults fun _ _ => refer_withResults)

theorem connectEach_withResults :
    connectEach (g.withResults m u) ids = (connectEach g ids).map (·.withResults m u) := by
  induction ids generalizing g with
  | nil => rfl
  | cons e ids ih =>
      rw [connectEach, connectEach, connectOne_withResults]
      dsimp only [Outcome.map]
      split
      · rfl
      · exact ih

theorem inheritedFor_withResults : inheritedFor (g.withResults m u) c = inheritedFor g c := by
  have hconforming : (g.withResults m u).conformingDeclarations c = g.conformingDeclarations c := by
    unfold conformingDeclarations
    simp only [referencingDeclaration?_withResults]
    rfl
  unfold inheritedFor
  rw [hconforming]
  rfl

theorem insertPair_withResults {pair : DeclId × DeclId} {pairs : List (DeclId × DeclId)} :
    insertPair (g.withResults m u) pair pairs = insertPair g pair pairs := by
  induction pairs with
  | nil => rfl
  | cons p pairs ih =>
      have hle : pairLe (g.withResults m u) pair p = pairLe g pair p := rfl
      rw [insertPair, insertPair, ih, hle]

theorem inheritedImplementations_withResults :
    inheritedImplementations (g.withResults m u) = inheritedImplementations g := by
  have hprotocols : (g.withResults m u).declarationsOfKind .protocolType =
    g.declarationsOfKind .protocolType := rfl
  have hinherited : inheritedFor (g.withResults m u) = inheritedFor g :=
    funext fun _ => inheritedFor_withResults
  have hinsert : insertPair (g.withResults m u) = insertPair g :=
    funext fun _ => funext fun _ => insertPair_withResults
  unfold inheritedImplementations
  rw [hprotocols, hinherited, hinsert]

theorem invertOne_withResults :
    invertOne (g.withResults m u) r = (invertOne g r).withResults m u := by
  have hsame : (g.withResults m u).reference? r = g.reference? r := rfl
  have hnamed : (g.withResults m u).declarationWithUsr? = g.declarationWithUsr? := rfl
  have hmember : (g.withResults m u).isProtocolMember = g.isProtocolMember := rfl
  have hlive : (g.withResults m u).hasDeclaration = g.hasDeclaration := rfl
  have hdefault : ∀ k : Graph, isDefaultImplementation (k.withResults m u) =
    isDefaultImplementation k := fun _ => rfl
  unfold invertOne
  simp only [hsame, hnamed, hmember, hlive, referencingDeclaration?_withResults, refer_withResults,
    hdefault]
  split
  · rfl
  · split
    · rfl
    · exact removeReference_withResults

theorem invertConformances_withResults :
    invertConformances (g.withResults m u) = (invertConformances g).withResults m u := by
  unfold invertConformances
  rw [inheritedImplementations_withResults, foldl_withResults fun _ _ => refer_withResults]
  exact foldl_withResults fun _ _ => invertOne_withResults

end Protocols

theorem Overrides.connectOne_withResults :
    connectOne (g.withResults m u) d = (connectOne g d).withResults m u := by
  have hsame : (g.withResults m u).declaration? d = g.declaration? d := rfl
  have hedges : memberEdges (g.withResults m u) d = memberEdges g d := rfl
  have hmember : (g.withResults m u).isProtocolMember = g.isProtocolMember := rfl
  unfold connectOne
  rw [hsame, hedges, hmember]
  split
  · exact foldl_withResults fun _ _ => addUse_withResults
  · rfl

theorem Overrides.connect_withResults : connect (g.withResults m u) = (connect g).withResults m u :=
  foldl_withResults fun _ _ => connectOne_withResults

namespace Synthesis

theorem referToAll_withResults :
    referToAll (g.withResults m u) d ids = (referToAll g d ids).withResults m u :=
  foldl_withResults fun _ _ => addUse_withResults

theorem enumCases_withResults : enumCases (g.withResults m u) = (enumCases g).withResults m u := by
  refine foldl_withResults fun k d => ?_
  have hproduces : producesCases (k.withResults m u) d = producesCases k d := rfl
  unfold connectCases
  rw [hproduces]
  split
  · exact referToAll_withResults
  · rfl

theorem defaultConstructors_withResults :
    defaultConstructors (g.withResults m u) = (defaultConstructors g).withResults m u :=
  foldl_withResults fun _ _ => referToAll_withResults

theorem genericConstructors_withResults :
    genericConstructors (g.withResults m u) = (genericConstructors g).withResults m u := by
  refine foldl_withResults fun k d => ?_
  have hgeneric : isGeneric (k.withResults m u) d = isGeneric k d := rfl
  rw [hgeneric]
  split
  · exact referToAll_withResults
  · rfl

theorem accessors_withResults : accessors (g.withResults m u) = (accessors g).withResults m u := by
  refine foldl_withResults fun k d => ?_
  have hmembers : ∀ p, addedMembers (k.withResults m u) d p = addedMembers k d p := fun _ => rfl
  have hsame : (k.withResults m u).declaration? = k.declaration? := rfl
  unfold connectAccessors
  simp only [hmembers, hsame]
  split
  · exact referToAll_withResults
  · rfl

theorem connectInitializer_withResults {o : Outcome} :
    connectInitializer c (o.map (·.withResults m u)) d =
      (connectInitializer c o d).map (·.withResults m u) := by
  have hsame : (o.map (·.withResults m u)).graph.declaration? d = o.graph.declaration? d := rfl
  unfold connectInitializer
  rw [hsame]
  split
  · rfl
  · split
    · rfl
    · exact congrArg (fun k => { o with graph := k }) referToAll_withResults

theorem connectInitializers_withResults {o : Outcome} :
    connectInitializers (o.map (·.withResults m u)) d =
      (connectInitializers o d).map (·.withResults m u) :=
  List.foldl_hom (Outcome.map (·.withResults m u)) fun _ _ => connectInitializer_withResults

theorem memberwiseInitializers_withResults :
    memberwiseInitializers (g.withResults m u) =
      (memberwiseInitializers g).map (·.withResults m u) := by
  have hstart : Outcome.done (g.withResults m u) = (Outcome.done g).map (·.withResults m u) := rfl
  unfold memberwiseInitializers
  rw [hstart]
  exact List.foldl_hom (Outcome.map (·.withResults m u)) fun _ _ => connectInitializers_withResults

end Synthesis

theorem AssignOnly.eliminate_withResults :
    eliminate s (g.withResults m u) = (eliminate s g).withResults m u := by
  unfold eliminate
  split
  · rfl
  · refine foldl_withResults fun k d => ?_
    have hcandidate : isCandidate (k.withResults m u) d = isCandidate k d := rfl
    have hreads : reads (k.withResults m u) d = reads k d := rfl
    have hwrites : writes (k.withResults m u) d = writes k d := rfl
    unfold eliminateOne
    rw [hcandidate, hreads, hwrites]
    split
    · rw [foldl_withResults fun _ _ => removeReference_withResults]
      exact mark_withResults
    · rfl

theorem Reachability.markUsed_withResults :
    markUsed (g.withResults m u) = (markUsed g).withResults m u := by
  have herroneous : removeErroneous (g.withResults m u) = (removeErroneous g).withResults m u :=
    foldl_withResults fun _ _ => removeReference_withResults
  have hreachable : ∀ k : Graph, reachable (k.withResults m u) = reachable k := fun _ => rfl
  have hshadowed : ∀ k : Graph, shadowed (k.withResults m u) = shadowed k := fun _ => rfl
  unfold markUsed
  simp only [herroneous, hreachable, markAll_withResults, hshadowed]

theorem RedundantProtocols.markRedundant_withResults :
    markRedundant (g.withResults m u) = (markRedundant g).withResults m u := by
  have hown : isOwnReference (g.withResults m u) = isOwnReference g := by
    funext proto r
    unfold isOwnReference
    rw [referencingDeclaration?_withResults]
    rfl
  have hconformances : conformances? (g.withResults m u) = conformances? g := by
    unfold conformances?
    rw [hown]
    rfl
  have hfound : found (g.withResults m u) = found g := by
    unfold found evaluate
    rw [hconformances]
    rfl
  unfold markRedundant
  rw [hfound]
  refine foldl_withResults fun k f => ?_
  exact markAll_withResults (g := k.recordRedundantProtocol f.1 f.2.1)

/-! ## Tiers -/

namespace RedundantAccess

variable {declared tier : Tier}

theorem record_withImports :
    record (g.withImports u) declared d tier = (record g declared d tier).withImports u := by
  have hsame : (g.withImports u).declaration? d = g.declaration? d := rfl
  unfold record
  rw [hsame]
  split <;> rfl

theorem foldl_record_withImports {found : List (DeclId × Tier)} :
    found.foldl (fun g r => record g declared r.1 r.2) (g.withImports u) =
      (found.foldl (fun g r => record g declared r.1 r.2) g).withImports u :=
  List.foldl_hom (Graph.withImports · u) fun _ _ => record_withImports

theorem judge_withImports {suggest : Graph → DeclId → Option Tier}
    {sameScope : Graph → DeclId → DeclId → Bool}
    (hsuggest : ∀ d, suggest (g.withImports u) d = suggest g d)
    (hscope : ∀ k : Graph, sameScope (k.withImports u) = sameScope k) :
    judge (g.withImports u) declared suggest sameScope =
      (judge g declared suggest sameScope).map (·.withImports u) := by
  have hcandidates : candidates (g.withImports u) declared = candidates g declared := rfl
  have hextension : isExtension (g.withImports u) = isExtension g := rfl
  have hinherited : ∀ k : Graph, inherited (k.withImports u) declared sameScope =
      inherited k declared sameScope := by
    intro k
    unfold inherited
    rw [hscope]
    rfl
  unfold judge
  dsimp only
  rw [hcandidates, hextension]
  simp only [hsuggest, foldl_record_withImports, hinherited]
  exact Outcome.andThen_map (·.withImports u) fun _ => rfl

theorem markPublic_withImports {retainPublic : Bool} :
    markPublic retainPublic (g.withImports u) =
      (markPublic retainPublic g).map (·.withImports u) := by
  unfold markPublic
  split
  · rfl
  · exact judge_withImports (fun _ => suggestForPublic_withResults) fun _ => rfl

end RedundantAccess

/-! ## Runs -/

variable {pass : Pass} {xs : List Pass}

/-- A pass that went through on a graph with other results. -/
theorem Outcome.done_withResults {k k' : Graph} (h : k' = k.withResults m u) :
    Outcome.done k' = (Outcome.done k).map (·.withResults m u) := congrArg Outcome.done h

/-- **A pass that judges neither tiers nor imports does not look at the results about them.** -/
theorem Pass.run_withResults (hp : pass ≠ .unusedImports) (htier : pass.tier? = none) :
    pass.run s (g.withResults m u) = (pass.run s g).map (·.withResults m u) := by
  cases pass with
  | unusedImports => exact absurd rfl hp
  | redundantPublic | redundantInternal | redundantFileprivate => cases htier
  | directives => exact Outcome.done_withResults Directives.obey_withResults
  | cascadeAccess => exact Outcome.done_withResults Extensions.cascadeAccess_withResults
  | foldExtensions => exact Extensions.foldEach_withResults
  | protocolExtensions => exact Protocols.connectEach_withResults
  | conformances => exact Outcome.done_withResults Protocols.invertConformances_withResults
  | overrides => exact Outcome.done_withResults Overrides.connect_withResults
  | enumCases => exact Outcome.done_withResults Synthesis.enumCases_withResults
  | defaultConstructors => exact Outcome.done_withResults Synthesis.defaultConstructors_withResults
  | memberwiseInitializers => exact Synthesis.memberwiseInitializers_withResults
  | genericConstructors => exact Outcome.done_withResults Synthesis.genericConstructors_withResults
  | accessors => exact Outcome.done_withResults Synthesis.accessors_withResults
  | assignOnlyProperties => exact Outcome.done_withResults AssignOnly.eliminate_withResults
  | reachability => exact Outcome.done_withResults Reachability.markUsed_withResults
  | redundantProtocols => exact Outcome.done_withResults RedundantProtocols.markRedundant_withResults
  | foreignOverrides | dynamicMembers | propertyWrappers | resultBuilders | stringInterpolation
  | entryPoints | previews | testCases | markedTests | assets | publicApi | objcAccessible
  | patterns | unusedParameters => exact Outcome.done_withResults markAll_withResults

/-- It does not change them either, since the results that were there are among these others. -/
theorem Pass.redundantAccess_run (hp : pass ≠ .unusedImports) (htier : pass.tier? = none) :
    (pass.run s g).graph.redundantAccess = g.redundantAccess :=
  congrArg (·.graph.redundantAccess)
    (Pass.run_withResults (m := g.redundantAccess) (u := g.unusedImports) hp htier)

/-- **A pass that does not judge imports neither reads nor changes the unused ones.** -/
theorem Pass.run_withImports (hp : pass ≠ .unusedImports) :
    pass.run s (g.withImports u) = (pass.run s g).map (·.withImports u) := by
  cases htier : pass.tier? with
  | none =>
      calc pass.run s (g.withImports u)
          = (pass.run s g).map (·.withResults g.redundantAccess u) := Pass.run_withResults hp htier
        _ = (pass.run s g).map (·.withImports u) := by
          unfold Outcome.map
          rw [← Pass.redundantAccess_run hp htier (s := s)]
          rfl
  | some tier =>
      rcases Pass.tier?_cases htier with ⟨rfl, -⟩ | ⟨rfl, -⟩ | ⟨rfl, -⟩
      · exact RedundantAccess.markPublic_withImports
      · exact RedundantAccess.judge_withImports
          (fun _ => RedundantAccess.suggestForInternal_withResults) fun _ => rfl
      · exact RedundantAccess.judge_withImports
          (fun _ => RedundantAccess.suggestForFileprivate_withResults) fun _ => rfl

/-- **Neither does a run without the pass that judges imports.** -/
theorem runPasses_withImports (hxs : .unusedImports ∉ xs) :
    (runPasses s (g.withImports u) xs).failure = (runPasses s g xs).failure ∧
    (runPasses s (g.withImports u) xs).graph = (runPasses s g xs).graph.withImports u := by
  induction xs generalizing g with
  | nil => exact ⟨rfl, rfl⟩
  | cons pass xs ih =>
      obtain ⟨hpass, hxs⟩ := List.ne_and_not_mem_of_not_mem_cons hxs
      rw [runPasses, runPasses, Pass.run_withImports hpass.symm]
      dsimp only [Outcome.map]
      split
      · exact ⟨rfl, rfl⟩
      · exact ih hxs

end Deadwood

/-
  Passes as series of operations.

  1. **What a pass may do (`Pass.MayDo`)** — every pass may add references.  Few remove some, only
     folding moves or removes declarations, each puts marks and records results of its own sort, and
     no pass adds declarations, identifiers or files.

  2. **What it does (`Pass.evolves_run`)** — every pass is a series of operations that it may do, also
     where it gives up.
-/
import Deadwood.Proofs.Renaming.Redundancy
import Deadwood.Pipeline

namespace Deadwood

open Deadwood.Graph

namespace Graph.Evolves

variable {P : Operation → Prop} {g h : Graph}

/-- The graph of a pass that went through. -/
theorem done (H : Evolves P g h) : Evolves P g (Outcome.done h).graph := H

/-- The graph of a pass that asked for something, and gave up where there was only a fault. -/
theorem andThen {α : Type} {answer : Except Fault α} {next : α → Outcome}
    (hnext : ∀ a, answer = .ok a → Evolves P g (next a).graph) :
    Evolves P g (Outcome.andThen g answer next).graph := by
  cases answer with
  | error fault => exact .refl
  | ok a => exact hnext a rfl

end Graph.Evolves

/-! ## What a pass may do -/

variable {pass : Pass} {g h : Graph} {c d e t : DeclId} {r : RefId} {m : Mention} {s : Settings}

/-- Whether a pass may remove references. -/
def Pass.prunes : Pass → Bool
  | foldExtensions | conformances | assignOnlyProperties | reachability => true
  | _ => false

/-- The marks that a pass may put. -/
def Pass.puts : Pass → List Mark
  | directives => [.retained, .ignored]
  | foldExtensions | foreignOverrides | dynamicMembers | propertyWrappers | resultBuilders
  | stringInterpolation | entryPoints | previews | testCases | markedTests | assets | publicApi
  | objcAccessible | patterns | unusedParameters => [.retained]
  | assignOnlyProperties => [.assignOnly]
  | reachability => [.used, .ignored]
  | redundantProtocols => [.ignored]
  | unusedImports | cascadeAccess | protocolExtensions | conformances | overrides | enumCases
  | defaultConstructors | memberwiseInitializers | genericConstructors | accessors
  | redundantPublic | redundantInternal | redundantFileprivate => []

/-- Only the search marks anything used. -/
theorem Pass.eq_reachability_of_puts (hp : .used ∈ pass.puts) : pass = .reachability := by
  cases pass <;> first | rfl | exact absurd hp (by decide)

/-- Only one pass marks properties as only written. -/
theorem Pass.eq_assignOnlyProperties_of_puts (hp : .assignOnly ∈ pass.puts) :
    pass = .assignOnlyProperties := by
  cases pass <;> first | rfl | exact absurd hp (by decide)

/-- Whether a pass judges accessibility. -/
def Pass.judgesAccess : Pass → Bool
  | redundantPublic | redundantInternal | redundantFileprivate => true
  | _ => false

/-- What a pass may do. -/
def Pass.MayDo (pass : Pass) : Operation → Prop
  | .addReference .. => True
  | .mark mark _ => mark ∈ pass.puts
  | .recordUnusedImport _ => pass = .unusedImports
  | .recordRedundantProtocol .. => pass = .redundantProtocols
  | .recordRedundantAccess .. => pass.judgesAccess = true
  | .removeReference _ => pass.prunes = true
  | .setAccess .. => pass = .cascadeAccess
  | .moveDeclaration .. | .moveReference .. | .removeDeclaration _ | .recordFolded .. =>
      pass = .foldExtensions
  | .addDeclaration .. | .addUnusedParameter .. | .unify .. | .addFile _ | .addModuleExport ..
  | .addAsset _ => False

namespace Graph.Evolves

theorem addUse : Evolves pass.MayDo g (g.addUse m d) :=
  .one (.addReference m (some (.declaration d))) trivial trivial

theorem mark {mark : Mark} (hm : mark ∈ pass.puts) : Evolves pass.MayDo g (g.mark mark d) :=
  .one (.mark mark d) hm trivial

theorem markAll {mark : Mark} (hm : mark ∈ pass.puts) {ids : List DeclId} :
    Evolves pass.MayDo g (g.markAll mark ids) :=
  .foldl fun _ _ _ => .mark hm

theorem removeReference (hp : pass.prunes = true) : Evolves pass.MayDo g (g.removeReference r) :=
  .one (.removeReference r) hp trivial

theorem foldl_removeReference (hp : pass.prunes = true) {ids : List RefId} :
    Evolves pass.MayDo g (ids.foldl Graph.removeReference g) :=
  .foldl fun _ _ _ => removeReference hp

end Graph.Evolves

/-! ## Passes that add references and marks -/

theorem Imports.evolves_markUnused : Evolves Pass.unusedImports.MayDo g (markUnused g) :=
  .foldl fun _ i _ => .one (.recordUnusedImport i) rfl trivial

theorem Directives.evolves_obey : Evolves Pass.directives.MayDo g (obey g) :=
  ((Evolves.markAll (by decide)).trans (.markAll (by decide))).trans (.markAll (by decide))

theorem Overrides.evolves_connectOne : Evolves pass.MayDo g (connectOne g d) := by
  unfold connectOne
  split
  · exact .foldl fun _ _ _ => .addUse
  · exact .refl

theorem Overrides.evolves_connect : Evolves pass.MayDo g (connect g) :=
  .foldl fun _ _ _ => evolves_connectOne

namespace Synthesis

theorem evolves_referToAll {targets : List DeclId} :
    Evolves pass.MayDo g (referToAll g d targets) := .foldl fun _ _ _ => .addUse

theorem evolves_enumCases : Evolves pass.MayDo g (enumCases g) := by
  refine .foldl fun k id _ => ?_
  unfold connectCases
  split
  · exact evolves_referToAll
  · exact .refl

theorem evolves_defaultConstructors : Evolves pass.MayDo g (defaultConstructors g) :=
  .foldl fun _ _ _ => evolves_referToAll

theorem evolves_genericConstructors : Evolves pass.MayDo g (genericConstructors g) := by
  refine .foldl fun k id _ => ?_
  split
  · exact evolves_referToAll
  · exact .refl

theorem evolves_accessors : Evolves pass.MayDo g (accessors g) := by
  refine .foldl fun k id _ => ?_
  unfold connectAccessors
  dsimp only
  split
  · exact evolves_referToAll
  · exact .refl

/-- The graphs of the outcomes along a list. -/
theorem evolves_foldl_outcome {α : Type} {f : Outcome → α → Outcome} {xs : List α} {o : Outcome}
    (hstep : ∀ o a, Evolves pass.MayDo o.graph (f o a).graph) :
    Evolves pass.MayDo o.graph (xs.foldl f o).graph :=
  List.foldlRecOn (motive := fun p : Outcome => Evolves pass.MayDo o.graph p.graph) _ _ .refl
    fun p hp a _ => hp.trans (hstep p a)

theorem evolves_memberwiseInitializers :
    Evolves pass.MayDo g (memberwiseInitializers g).graph := by
  refine evolves_foldl_outcome (o := .done g) fun o owner => ?_
  refine evolves_foldl_outcome fun o initializer => ?_
  unfold connectInitializer
  split
  · exact .refl
  · split
    · exact .refl
    · exact evolves_referToAll

end Synthesis

/-- What shows that a protocol is redundant was found in the graph as it was, and its references
keep their numbers while results are recorded. -/
theorem RedundantProtocols.evolves_markRedundant :
    Evolves Pass.redundantProtocols.MayDo g (markRedundant g) := by
  refine .foldl_of (I := fun k => k.references = g.references) rfl fun k f hf hk => ?_
  obtain ⟨proto, -, hf⟩ := List.mem_filterMap.1 hf
  obtain ⟨result, he, rfl⟩ := Option.map_eq_some_iff.1 hf
  have hsound : (Operation.recordRedundantProtocol proto result).Sound k := fun r hr => by
    rw [hk]
    exact index_lt_of_hasReference (live_of_evaluate he hr)
  have hmay : Pass.redundantProtocols.MayDo (.recordRedundantProtocol proto result) := rfl
  refine ⟨?_, (Evolves.one _ hmay hsound).trans (.markAll (by decide))⟩
  rw [markAll_eq]
  exact hk

theorem RedundantAccess.evolves_judge (hp : pass.judgesAccess = true) {declared : Tier}
    {suggest : Graph → DeclId → Option Tier} {sameScope : Graph → DeclId → DeclId → Bool} :
    Evolves pass.MayDo g (judge g declared suggest sameScope).graph := by
  have hrecords : ∀ (found : List (DeclId × Tier)) (k : Graph),
      Evolves pass.MayDo k (found.foldl (fun g r => record g declared r.1 r.2) k) := by
    refine fun found k => .foldl fun k f _ => ?_
    unfold record
    split
    · exact .one (.recordRedundantAccess f.1 _) hp trivial
    · exact .refl
  exact (hrecords _ g).trans (.andThen fun _ _ => hrecords _ _)

theorem RedundantAccess.evolves_markPublic {retainPublic : Bool} :
    Evolves Pass.redundantPublic.MayDo g (markPublic retainPublic g).graph := by
  unfold markPublic
  split
  · exact .refl
  · exact evolves_judge rfl

/-! ## Passes that remove references -/

namespace Protocols

theorem evolves_refer {isRelated : Bool} : Evolves pass.MayDo g (refer g c d isRelated) := by
  unfold refer
  split
  · exact .addUse
  · exact .refl

theorem evolves_foldl_refer {pairs : List (DeclId × DeclId)} :
    Evolves pass.MayDo g (pairs.foldl (fun g pair => refer g pair.1 pair.2 true) g) :=
  .foldl fun _ _ _ => evolves_refer

theorem evolves_connectOne : Evolves pass.MayDo g (connectOne g d).graph := by
  refine .andThen fun target _ => ?_
  cases target with
  | none => exact .refl
  | some proto => exact evolves_refer.trans evolves_foldl_refer

theorem evolves_connectEach {ids : List DeclId} :
    Evolves pass.MayDo g (connectEach g ids).graph := by
  induction ids generalizing g with
  | nil => exact .refl
  | cons d ids ih =>
      rw [connectEach]
      split
      · exact evolves_connectOne
      · exact evolves_connectOne.trans ih

theorem evolves_invertOne (hp : pass.prunes = true) : Evolves pass.MayDo g (invertOne g r) := by
  unfold invertOne
  dsimp only
  split
  · exact .refl
  · split
    · exact evolves_refer
    · exact evolves_refer.trans (.removeReference hp)

theorem evolves_invertConformances (hp : pass.prunes = true) :
    Evolves pass.MayDo g (invertConformances g) :=
  evolves_foldl_refer.trans (.foldl fun _ _ _ => evolves_invertOne hp)

end Protocols

theorem AssignOnly.evolves_eliminateOne :
    Evolves Pass.assignOnlyProperties.MayDo g (eliminateOne g d) := by
  unfold eliminateOne
  split
  · exact (Evolves.foldl_removeReference rfl).trans (.mark (by decide))
  · exact .refl

theorem AssignOnly.evolves_eliminate :
    Evolves Pass.assignOnlyProperties.MayDo g (eliminate s g) := by
  unfold eliminate
  split
  · exact .refl
  · exact .foldl fun _ _ _ => evolves_eliminateOne

theorem Reachability.evolves_markUsed : Evolves Pass.reachability.MayDo g (markUsed g) :=
  ((Evolves.foldl_removeReference rfl).trans (.markAll (by decide))).trans (.markAll (by decide))

/-! ## Extensions -/

namespace Extensions

theorem evolves_cascadeAccess : Evolves Pass.cascadeAccess.MayDo g (cascadeAccess g) :=
  .foldl fun _ member _ => .one (.setAccess member.1 ⟨member.2, false⟩) rfl trivial

theorem evolves_foldInto {extended : Option RefId} :
    Evolves Pass.foldExtensions.MayDo g (foldInto g e t extended).graph := by
  have hextended : Evolves Pass.foldExtensions.MayDo g (extended.elim g g.removeReference) := by
    cases extended with
    | none => exact .refl
    | some q => exact .removeReference rfl
  have hmembers : ∀ (ids : List DeclId) (k : Graph),
      Evolves Pass.foldExtensions.MayDo k (ids.foldl (fun g m => g.moveDeclaration m t) k) :=
    fun ids k => .foldl fun _ m _ => .one (.moveDeclaration m t) rfl trivial
  have hreferences : ∀ (ids : List RefId) (k : Graph),
      Evolves Pass.foldExtensions.MayDo k (ids.foldl (fun g r => g.moveReference r t) k) :=
    fun ids k => .foldl fun _ r _ => .one (.moveReference r t) rfl trivial
  unfold foldInto
  dsimp only
  -- an extension that is gone by now has nothing to move
  split
  · exact hextended
  · rename_i d _
    have hmoved := (hextended.trans (hmembers d.members.toList _)).trans
      (hreferences d.ownReferences _)
    exact .step (.removeDeclaration e) (.step (.recordFolded e t) hmoved rfl trivial) rfl trivial

theorem evolves_foldOne : Evolves Pass.foldExtensions.MayDo g (foldOne g e).graph := by
  unfold foldOne
  split
  · exact .refl
  · refine .andThen fun extendedKind _ => .andThen fun target _ => ?_
    cases target with
    | none => exact .mark (by decide)
    | some t =>
        dsimp only
        split
        · exact .refl
        · exact .andThen fun _ _ => evolves_foldInto

theorem evolves_foldEach {ids : List DeclId} :
    Evolves Pass.foldExtensions.MayDo g (foldEach g ids).graph := by
  induction ids generalizing g with
  | nil => exact .refl
  | cons e ids ih =>
      rw [foldEach]
      split
      · exact evolves_foldOne
      · exact evolves_foldOne.trans ih

end Extensions

/-! ## Passes and runs -/

/-- **Every pass is a series of operations that it may do**, also where it gives up. -/
theorem Pass.evolves_run : Evolves pass.MayDo g (pass.run s g).graph := by
  cases pass with
  | unusedImports => exact .done Imports.evolves_markUnused
  | directives => exact .done Directives.evolves_obey
  | cascadeAccess => exact .done Extensions.evolves_cascadeAccess
  | foldExtensions => exact Extensions.evolves_foldEach
  | protocolExtensions => exact Protocols.evolves_connectEach
  | conformances => exact .done (Protocols.evolves_invertConformances rfl)
  | overrides => exact .done Overrides.evolves_connect
  | enumCases => exact .done Synthesis.evolves_enumCases
  | defaultConstructors => exact .done Synthesis.evolves_defaultConstructors
  | memberwiseInitializers => exact Synthesis.evolves_memberwiseInitializers
  | genericConstructors => exact .done Synthesis.evolves_genericConstructors
  | accessors => exact .done Synthesis.evolves_accessors
  | assignOnlyProperties => exact .done AssignOnly.evolves_eliminate
  | reachability => exact .done Reachability.evolves_markUsed
  | redundantProtocols => exact .done RedundantProtocols.evolves_markRedundant
  | redundantPublic => exact RedundantAccess.evolves_markPublic
  | redundantInternal => exact RedundantAccess.evolves_judge rfl
  | redundantFileprivate => exact RedundantAccess.evolves_judge rfl
  | foreignOverrides | dynamicMembers | propertyWrappers | resultBuilders | stringInterpolation
  | entryPoints | previews | testCases | markedTests | assets | publicApi | objcAccessible
  | patterns | unusedParameters => exact .done (.markAll (by decide))

theorem Pass.coherent_run {named : Prop} (hg : g.Coherent named) :
    (pass.run s g).graph.Coherent named := evolves_run.coherent hg

end Deadwood

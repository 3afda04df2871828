/-
  No pass leaves a reference without an owner.

  1. **Root references (`RootsWithin`)** — those of the later graph were root references of the earlier
     one.  Removals and moves never make one, and an addition makes one only where its owner is not
     there (`rootsWithin_apply`).

  2. **Owners (`Attaches`)** — a pass that adds references looks their owners up first, and no
     declaration goes while it runs.  So every owner is there when its turn comes.

  3. **Passes (`Pass.rootsWithin_run`)** — whatever the graph, a pass makes no root references.
-/
import Deadwood.Proofs.Evolution
import Deadwood.Proofs.Dispatch.Rewiring
import Deadwood.Proofs.Extensions.Turn

namespace Deadwood

open Deadwood.Graph

namespace Graph

variable {g h k : Graph} {c d e t : DeclId} {q r : RefId} {m : Mention}

/-! ## Root references -/

/-- The root references of `h` were root references of `g`, and say what they said. -/
def RootsWithin (g h : Graph) : Prop :=
  ∀ r m, (h.reference? r).map Reference.bare = some (m, none) →
    (g.reference? r).map Reference.bare = some (m, none)

namespace RootsWithin

theorem refl : RootsWithin g g := fun _ _ hr => hr

theorem trans (H : RootsWithin g h) (H' : RootsWithin h k) : RootsWithin g k := fun r m hr =>
  H r m (H' r m hr)

theorem of_references (hr : h.references = g.references) : RootsWithin g h := fun r m hm => by
  simpa only [reference?, hr] using hm

theorem foldl {α : Type} {f : Graph → α → Graph} {xs : List α}
    (hstep : ∀ k, ∀ a ∈ xs, RootsWithin k (f k a)) : RootsWithin g (xs.foldl f g) :=
  List.foldlRecOn (motive := fun k : Graph => RootsWithin g k) _ _ .refl
    fun k hk a ha => hk.trans (hstep k a ha)

/-- The graph of a pass that went through. -/
theorem done (H : RootsWithin g h) : RootsWithin g (Outcome.done h).graph := H

/-- The graph of a pass that asked for something, and gave up where there was only a fault. -/
theorem andThen {α : Type} {answer : Except Fault α} {next : α → Outcome}
    (hnext : ∀ a, RootsWithin g (next a).graph) :
    RootsWithin g (Outcome.andThen g answer next).graph := by
  cases answer with
  | error fault => exact .refl
  | ok a => exact hnext a

end RootsWithin

/-! ## Removals and moves -/

/-- What is left when a reference is taken out says what it said, of the owner it had. -/
theorem bare_takeReference : ((g.takeReference q).reference? r).map Reference.bare =
    if r = q then none else (g.reference? r).map Reference.bare := by
  unfold takeReference
  cases hq : g.reference? q with
  | none =>
      by_cases hr : r = q
      · simp [hr, hq]
      · rw [if_neg hr]
  | some x =>
      simp only [Graph.reference?, Arena.get?_erase, RefId.index_inj, @eq_comm _ q r]
      by_cases hr : r = q
      · simp [hr]
      · rw [if_neg hr, if_neg hr]
        have hkept := reference?_unlinkReference (g := g) (r := r) (q := q) (o := x.owner)
        rw [Graph.reference?] at hkept
        rw [hkept, Option.map_map]
        refine congrArg (Option.map · _) (funext fun y => ?_)
        rw [Function.comp_apply]
        split <;> rfl

theorem hasDeclaration_takeReference : (g.takeReference q).hasDeclaration d = g.hasDeclaration d := by
  unfold takeReference
  split
  · exact (congrArg Option.isSome declaration?_unlinkReference).trans (by simp [hasDeclaration])
  · rfl

theorem hasDeclaration_removeReference :
    (g.removeReference q).hasDeclaration d = g.hasDeclaration d :=
  List.foldlRecOn (motive := fun k : Graph => k.hasDeclaration d = g.hasDeclaration d) _ _ rfl
    fun _ hk _ _ => hasDeclaration_takeReference.trans hk

theorem rootsWithin_takeReference : RootsWithin g (g.takeReference q) := by
  intro r m hr
  rw [bare_takeReference] at hr
  split at hr
  · cases hr
  · exact hr

theorem rootsWithin_removeReference : RootsWithin g (g.removeReference q) :=
  .foldl fun _ _ _ => rootsWithin_takeReference

/-- A reference that is moved has an owner. -/
theorem rootsWithin_moveReference : RootsWithin g (g.moveReference q t) := by
  obtain he | he | ⟨x, hx, -, -, he⟩ := moveReference_cases g q t <;> rw [he]
  · exact .refl
  · exact rootsWithin_removeReference
  · intro r m hr
    rw [reference?_reowned, Option.map_map] at hr
    rw [← hr]
    cases hy : g.reference? r with
    | none => rfl
    | some y =>
        rw [hy, Option.map_some, Option.some.injEq, Function.comp_apply] at hr
        by_cases hq : q = r
        · simp [hq, Reference.bare] at hr
        · rw [Option.map_some, Option.map_some, Function.comp_apply]
          dsimp only
          rw [if_neg hq]
          split <;> rfl

theorem rootsWithin_takeDeclaration : RootsWithin g (g.takeDeclaration d) := by
  cases hx : g.declaration? d with
  | none => simp only [takeDeclaration, hx]; exact .refl
  | some x =>
      rw [takeDeclaration_eq hx]
      exact RootsWithin.trans (.foldl fun _ _ _ => rootsWithin_removeReference)
        (.of_references references_unlinkDeclaration)

theorem rootsWithin_removeDeclaration : RootsWithin g (g.removeDeclaration d) :=
  .foldl fun _ _ _ => rootsWithin_takeDeclaration

/-! ## Operations -/

/-- An addition says what owns the newcomer, and the owner is there. -/
def Operation.Attached (g : Graph) : Operation → Prop
  | .addReference _ w => ∃ o, w = some o ∧ g.hasOwner o = true
  | _ => True

theorem rootsWithin_addReference {o : Owner} (ho : g.hasOwner o = true) :
    RootsWithin g (g.addReference m (some o)).1 := by
  cases hnew : g.equalReference? m.key (some o) with
  | some q =>
      rw [addReference_eq_of_some hnew]
      exact .refl
  | none =>
      intro r m' hr
      rw [reference?_addReference hnew, filter_hasOwner fun v hv => Option.some.inj hv ▸ ho] at hr
      split at hr
      · simp [Reference.bare] at hr
      · rw [Option.map_map] at hr
        rw [← hr]
        refine congrArg (Option.map · _) (funext fun x => ?_)
        rw [Function.comp_apply]
        split <;> rfl

theorem references_addUsr {usr : String} : (g.addUsr d usr).references = g.references := by
  unfold addUsr
  split <;> rfl

theorem references_unify {s : Symbol} : (g.unify d s).references = g.references :=
  List.foldlRecOn (motive := fun k : Graph => k.references = g.references) s.usrs.toList _ rfl
    fun _ hk _ _ => references_addUsr.trans hk

/-- **One operation makes no root reference**, unless it adds one to nothing. -/
theorem rootsWithin_apply {op : Operation} (hop : op.Attached g) : RootsWithin g (op.apply g) := by
  cases op with
  | addDeclaration s p => exact .of_references references_addDeclaration
  | addUnusedParameter s f =>
      refine .of_references ?_
      rw [Operation.apply, addUnusedParameter_fst]
      exact references_addDeclaration (s := { s with kind := .parameter })
  | unify id s => exact .of_references references_unify
  | moveDeclaration id target => exact .of_references references_moveDeclaration
  | removeDeclaration id => exact rootsWithin_removeDeclaration
  | addReference m w =>
      obtain ⟨o, rfl, ho⟩ := hop
      exact rootsWithin_addReference ho
  | removeReference id => exact rootsWithin_removeReference
  | moveReference id target => exact rootsWithin_moveReference
  | mark mark id =>
      refine .of_references ?_
      rw [Operation.apply, Graph.mark]
      split <;> rfl
  | setAccess | recordRedundantProtocol | recordFolded | recordRedundantAccess | recordUnusedImport
    | addFile | addModuleExport | addAsset => exact .of_references rfl

theorem rootsWithin_mark {mark : Mark} : RootsWithin g (g.mark mark d) := by
  have hattached : (Operation.mark mark d).Attached g := trivial
  exact rootsWithin_apply hattached

theorem rootsWithin_markAll {mark : Mark} {ids : List DeclId} : RootsWithin g (g.markAll mark ids) :=
  .foldl fun _ _ _ => rootsWithin_mark

/-! ## Owners -/

/-- From `g` to `h` no declaration goes, and no root reference comes. -/
structure Attaches (g h : Graph) : Prop where
  live : ∀ d, g.hasDeclaration d = true → h.hasDeclaration d = true
  roots : RootsWithin g h

namespace Attaches

theorem refl : Attaches g g := ⟨fun _ hd => hd, .refl⟩

theorem trans (H : Attaches g h) (H' : Attaches h k) : Attaches g k :=
  ⟨fun d hd => H'.live d (H.live d hd), H.roots.trans H'.roots⟩

theorem addUse (hd : g.hasDeclaration d = true) : Attaches g (g.addUse m d) :=
  ⟨fun _ hc => hasDeclaration_addReference.trans hc, rootsWithin_addReference hd⟩

theorem removeReference : Attaches g (g.removeReference q) :=
  ⟨fun _ hd => hasDeclaration_removeReference.trans hd, rootsWithin_removeReference⟩

/-- Going through a list; what was there at the beginning is there at every step. -/
theorem foldl {α : Type} {f : Graph → α → Graph} {xs : List α}
    (hstep : ∀ k, Attaches g k → ∀ a ∈ xs, Attaches k (f k a)) : Attaches g (xs.foldl f g) :=
  List.foldlRecOn (motive := fun k : Graph => Attaches g k) _ _ .refl
    fun k hk a ha => hk.trans (hstep k hk a ha)

/-- Going through a list with an outcome. -/
theorem foldl_outcome {α : Type} {f : Outcome → α → Outcome} {xs : List α} {o : Outcome}
    (hstep : ∀ p : Outcome, Attaches o.graph p.graph → ∀ a ∈ xs, Attaches p.graph (f p a).graph) :
    Attaches o.graph (xs.foldl f o).graph :=
  List.foldlRecOn (motive := fun p : Outcome => Attaches o.graph p.graph) _ _ .refl
    fun p hp a ha => hp.trans (hstep p hp a ha)

end Attaches

/-- An identifier leads to a declaration that is there. -/
theorem live_of_declarationWithUsr? {usr : String} (hd : g.declarationWithUsr? usr = some d) :
    g.hasDeclaration d = true := by
  unfold declarationWithUsr? at hd
  rcases Option.or_eq_some_iff.1 hd with hd | ⟨-, hd⟩ <;>
    exact (mem_sortedDeclarations.1 (List.mem_of_head? hd)).2

theorem live_of_mem_membersWhere {p : Declaration → Bool} (hc : c ∈ g.membersWhere d p) :
    g.hasDeclaration c = true := by
  obtain ⟨-, y, -, -, hy, -⟩ := mem_membersWhere.1 hc
  exact hasDeclaration_of_eq hy

end Graph

/-! ## Passes that add references -/

variable {g h : Graph} {c d e t : DeclId} {r : RefId} {s : Settings} {pass : Pass}

/-- The declaration of an edge is there. -/
theorem Overrides.live_of_memberEdges {edge : String × Option DeclId} (hedge : edge ∈ memberEdges g c)
    (hd : edge.2 = some d) : g.hasDeclaration d = true := by
  unfold memberEdges at hedge
  split at hedge
  · obtain ⟨r, -, hr⟩ := List.mem_filterMap.1 hedge
    simp only [Option.bind_eq_bind, Option.bind_eq_some_iff, bind_guard,
      Option.ite_none_right_eq_some, Option.pure_def, Option.some.injEq] at hr
    obtain ⟨x, -, -, rfl⟩ := hr
    exact live_of_declarationWithUsr? hd
  · cases hedge

theorem Overrides.attaches_connect : Attaches g (connect g) := by
  refine .foldl fun k _ id _ => ?_
  unfold connectOne
  split
  · refine .foldl fun k' hk' base hbase => .addUse (hk'.live base ?_)
    obtain ⟨edge, hedge, hbase⟩ := List.mem_filterMap.1 (List.mem_filter.1 hbase).1
    exact live_of_memberEdges hedge hbase
  · exact .refl

namespace Synthesis

theorem attaches_referToAll (hd : g.hasDeclaration d = true) {targets : List DeclId} :
    Attaches g (referToAll g d targets) := .foldl fun _ hk _ _ => .addUse (hk.live d hd)

theorem attaches_enumCases : Attaches g (enumCases g) := by
  refine .foldl fun k hk id hid => ?_
  unfold connectCases
  split
  · exact attaches_referToAll (hk.live id (mem_sortedDeclarations.1 hid).2)
  · exact .refl

theorem attaches_defaultConstructors : Attaches g (defaultConstructors g) :=
  .foldl fun _ hk owner howner =>
    attaches_referToAll (hk.live owner (mem_sortedDeclarations.1 howner).2)

theorem attaches_genericConstructors : Attaches g (genericConstructors g) := by
  refine .foldl fun k hk owner howner => ?_
  split
  · exact attaches_referToAll (hk.live owner (mem_sortedDeclarations.1 howner).2)
  · exact .refl

theorem attaches_accessors : Attaches g (accessors g) := by
  refine .foldl fun k hk property hproperty => ?_
  unfold connectAccessors
  dsimp only
  split
  · exact attaches_referToAll (hk.live property (mem_sortedDeclarations.1 hproperty).2)
  · exact .refl

theorem attaches_memberwiseInitializers : Attaches g (memberwiseInitializers g).graph := by
  refine Attaches.foldl_outcome (o := .done g) fun o _ owner _ => ?_
  refine Attaches.foldl_outcome fun p hp initializer hinitializer => ?_
  unfold connectInitializer
  split
  · exact .refl
  · split
    · exact .refl
    · exact attaches_referToAll (hp.live _ (live_of_mem_membersWhere hinitializer))

end Synthesis

namespace Protocols

theorem attaches_refer (hc : g.hasDeclaration c = true) {isRelated : Bool} :
    Attaches g (refer g c d isRelated) := by
  unfold refer
  split
  · exact .addUse hc
  · exact .refl

theorem attaches_foldl_refer {pairs : List (DeclId × DeclId)}
    (hpairs : ∀ pair ∈ pairs, g.hasDeclaration pair.1 = true) :
    Attaches g (pairs.foldl (fun g pair => refer g pair.1 pair.2 true) g) :=
  .foldl fun _ hk pair hpair => attaches_refer (hk.live _ (hpairs pair hpair))

theorem attaches_connectOne : Attaches g (connectOne g e).graph := by
  unfold connectOne
  cases hextended : g.extendedDeclaration e with
  | error fault => exact .refl
  | ok target =>
      cases target with
      | none => exact .refl
      | some proto =>
          refine (attaches_refer (live_of_extendedDeclaration hextended)).trans
            (attaches_foldl_refer fun pair hpair => ?_)
          obtain ⟨requirement, hmember, hpair⟩ := List.mem_filterMap.1 hpair
          simp only [Option.bind_eq_bind, Option.bind_eq_some_iff, Option.pure_def,
            Option.some.injEq] at hpair
          obtain ⟨-, -, -, -, rfl⟩ := hpair
          exact live_of_mem_membersWhere hmember

theorem attaches_connectEach {ids : List DeclId} : Attaches g (connectEach g ids).graph := by
  induction ids generalizing g with
  | nil => exact .refl
  | cons d ids ih =>
      rw [connectEach]
      split
      · exact attaches_connectOne
      · exact attaches_connectOne.trans ih

theorem attaches_invertOne : Attaches g (invertOne g r) := by
  cases hturned : turned? g r with
  | none =>
      rw [invertOne_of_none hturned]
      exact .refl
  | some pair =>
      obtain ⟨x, -, hrequirement, -⟩ := turned?_eq_some_iff.1 hturned
      rw [invertOne_eq, hturned]
      dsimp only
      have hadded : Attaches g (refer g pair.1 pair.2 true) :=
        attaches_refer (live_of_declarationWithUsr? hrequirement)
      split
      · exact hadded
      · exact hadded.trans .removeReference

theorem attaches_invertConformances : Attaches g (invertConformances g) := by
  refine Attaches.trans (attaches_foldl_refer fun pair hpair => ?_)
    (.foldl fun _ _ _ _ => attaches_invertOne)
  obtain ⟨p, -, c, -, -, hby⟩ := mem_inheritedImplementations.1 hpair
  exact live_of_mem_membersWhere (mem_inheritedBy.1 hby).1

end Protocols

/-! ## Folding -/

namespace Extensions

theorem rootsWithin_foldInto {extended : Option RefId} :
    RootsWithin g (foldInto g e t extended).graph := by
  have hextended : RootsWithin g (extended.elim g g.removeReference) := by
    cases extended with
    | none => exact .refl
    | some q => exact rootsWithin_removeReference
  unfold foldInto
  dsimp only
  split
  · exact hextended
  · exact ((hextended.trans (.foldl fun _ _ _ => .of_references references_moveDeclaration)).trans
      (.foldl fun _ _ _ => rootsWithin_moveReference)).trans
      (RootsWithin.trans (.of_references rfl) rootsWithin_removeDeclaration)

theorem rootsWithin_foldOne : RootsWithin g (foldOne g e).graph := by
  unfold foldOne
  split
  · exact .refl
  · refine .andThen fun extendedKind => .andThen fun target => ?_
    cases target with
    | none => exact rootsWithin_mark
    | some t =>
        dsimp only
        split
        · exact .refl
        · exact .andThen fun _ => rootsWithin_foldInto

theorem rootsWithin_foldAll : RootsWithin g (foldAll g).graph := by
  unfold foldAll
  generalize g.declarationsOfKinds Kind.extensions = ids
  induction ids generalizing g with
  | nil => exact .refl
  | cons e ids ih =>
      rw [foldEach]
      split
      · exact rootsWithin_foldOne
      · exact rootsWithin_foldOne.trans ih

end Extensions

/-! ## The other passes -/

theorem Imports.rootsWithin_markUnused : RootsWithin g (markUnused g) :=
  .foldl fun _ _ _ => .of_references rfl

theorem Directives.rootsWithin_obey : RootsWithin g (obey g) :=
  (rootsWithin_markAll.trans rootsWithin_markAll).trans rootsWithin_markAll

theorem Extensions.rootsWithin_cascadeAccess : RootsWithin g (cascadeAccess g) :=
  .foldl fun _ _ _ => .of_references rfl

theorem AssignOnly.rootsWithin_eliminate : RootsWithin g (eliminate s g) := by
  unfold eliminate
  split
  · exact .refl
  · refine .foldl fun k id _ => ?_
    unfold eliminateOne
    split
    · exact RootsWithin.trans (.foldl fun _ _ _ => rootsWithin_removeReference) rootsWithin_mark
    · exact .refl

theorem Reachability.rootsWithin_markUsed : RootsWithin g (markUsed g) :=
  (RootsWithin.trans (.foldl fun _ _ _ => rootsWithin_removeReference) rootsWithin_markAll).trans
    rootsWithin_markAll

theorem RedundantProtocols.rootsWithin_markRedundant : RootsWithin g (markRedundant g) :=
  .foldl fun _ _ _ => RootsWithin.trans (.of_references rfl) rootsWithin_markAll

theorem RedundantAccess.rootsWithin_judge {declared : Tier} {suggest : Graph → DeclId → Option Tier}
    {sameScope : Graph → DeclId → DeclId → Bool} :
    RootsWithin g (judge g declared suggest sameScope).graph := by
  have hrecords : ∀ (found : List (DeclId × Tier)) (k : Graph),
      RootsWithin k (found.foldl (fun g r => record g declared r.1 r.2) k) := by
    refine fun found k => .foldl fun k f _ => ?_
    unfold record
    split
    · exact .of_references rfl
    · exact .refl
  exact (hrecords _ g).trans (.andThen fun _ => hrecords _ _)

theorem RedundantAccess.rootsWithin_markPublic {retainPublic : Bool} :
    RootsWithin g (markPublic retainPublic g).graph := by
  unfold markPublic
  split
  · exact .refl
  · exact rootsWithin_judge

/-- **No pass makes a root reference**, also where it gives up. -/
theorem Pass.rootsWithin_run : RootsWithin g (pass.run s g).graph := by
  cases pass with
  | unusedImports => exact .done Imports.rootsWithin_markUnused
  | directives => exact .done Directives.rootsWithin_obey
  | cascadeAccess => exact .done Extensions.rootsWithin_cascadeAccess
  | foldExtensions => exact Extensions.rootsWithin_foldAll
  | protocolExtensions => exact Protocols.attaches_connectEach.roots
  | conformances => exact .done Protocols.attaches_invertConformances.roots
  | overrides => exact .done Overrides.attaches_connect.roots
  | enumCases => exact .done Synthesis.attaches_enumCases.roots
  | defaultConstructors => exact .done Synthesis.attaches_defaultConstructors.roots
  | memberwiseInitializers => exact Synthesis.attaches_memberwiseInitializers.roots
  | genericConstructors => exact .done Synthesis.attaches_genericConstructors.roots
  | accessors => exact .done Synthesis.attaches_accessors.roots
  | assignOnlyProperties => exact .done AssignOnly.rootsWithin_eliminate
  | reachability => exact .done Reachability.rootsWithin_markUsed
  | redundantProtocols => exact .done RedundantProtocols.rootsWithin_markRedundant
  | redundantPublic => exact RedundantAccess.rootsWithin_markPublic
  | redundantInternal => exact RedundantAccess.rootsWithin_judge
  | redundantFileprivate => exact RedundantAccess.rootsWithin_judge
  | foreignOverrides | dynamicMembers | propertyWrappers | resultBuilders | stringInterpolation
  | entryPoints | previews | testCases | markedTests | assets | publicApi | objcAccessible
  | patterns | unusedParameters => exact .done rootsWithin_markAll

end Deadwood

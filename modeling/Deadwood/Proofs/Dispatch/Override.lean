/-
  A call through a base member keeps every override alive.

  1. **Which members (`IsBase`)** — an override owns a structural reference to the member it overrides.

  2. **One edge each (`linked_connect`)** — overrides are connected one after the other, and each turn
     reads the graph that the turns before it left.  A turn only adds references, so what an override
     says of its base stands until its own turn, and the edge made there stays.

  3. **The run (`isUsed_of_overrides`)** — the search follows the edge, and so along every chain of
     overrides.
-/
import Deadwood.Proofs.Dispatch.Course

namespace Deadwood

open Deadwood.Graph

variable {g h : Graph} {d B D : DeclId} {s : Settings}

namespace Overrides

/-- `IsBase g B D`: the member `D`, no accessor, is an override and owns a structural reference to the
function or variable `B`, which is another declaration and no requirement of a protocol. -/
structure IsBase (g : Graph) (B D : DeclId) : Prop where
  override : ∃ x, g.declaration? D = some x ∧ x.isOverride = true ∧ x.kind.isAccessor = false
  reference : ∃ r y, g.reference? r = some y ∧ y.owner = some (.declaration D) ∧
    y.isRelated = true ∧ (y.kind.isFunction || y.kind.isVariable) = true ∧ g.Names r B
  ne : B ≠ D
  concrete : g.isProtocolMember B = false

/-- More references do not change what an override overrides. -/
theorem IsBase.mono (H : Sparser g h) (I : IsBase g B D) : IsBase h B D where
  override := by
    obtain ⟨x, hx, hmodifier, hk⟩ := I.override
    obtain ⟨x', hx', hs, -⟩ := H.outline.exists_declaration hx
    exact ⟨x', hx', by rw [hs]; exact hmodifier, by rw [hs]; exact hk⟩
  reference := by
    obtain ⟨r, y, hy, ho, hrelated, hk, hnames⟩ := I.reference
    obtain ⟨z, hz, hmention, howner⟩ := H.exists_reference hy
    exact ⟨r, z, hz, howner.trans ho, by rw [hmention]; exact hrelated, by rw [hmention]; exact hk,
      H.names hnames⟩
  ne := I.ne
  concrete := by rw [H.outline.isProtocolMember]; exact I.concrete

/-- The base is among the declarations that the override is found to be related to. -/
theorem IsBase.mem_memberEdges (hg : g.Consistent) (hu : g.Unambiguous) (I : IsBase g B D) :
    B ∈ (memberEdges g D).filterMap (·.2) := by
  obtain ⟨x, hx, -⟩ := I.override
  obtain ⟨r, y, hy, ho, hrelated, hk, y', b, hy', hb, husr⟩ := I.reference
  rw [hy] at hy'
  cases hy'
  have hheld : r ∈ g.heldBy D true := (hg.held_iff D true r).2 ⟨y, hy, ho, hrelated⟩
  obtain ⟨x', hx', hr⟩ := mem_heldBy_iff.1 hheld
  rw [hx] at hx'
  cases hx'
  have hlisted : r ∈ g.sortedReferences x.related.toList :=
    mem_sortedReferences.2 ⟨hr, hasReference_of_eq hy⟩
  refine List.mem_filterMap.2 ⟨(y.usr, some B), ?_, rfl⟩
  unfold memberEdges
  rw [hx]
  refine List.mem_filterMap.2 ⟨r, hlisted, ?_⟩
  rw [hy, Option.bind_eq_bind, Option.bind_some, guard, if_pos hk,
    declarationWithUsr?_eq_some hg.toIndexed hu hb husr]
  rfl

theorem adds_foldl_connectOne {ids : List DeclId} : Adds g (ids.foldl connectOne g) :=
  Evolves.adds .overrides rfl (.foldl fun _ _ _ => evolves_connectOne)

/-- A structural reference from each of some bases to an override makes an edge from each of them. -/
theorem linked_foldl_addUse {x : Declaration} (hx : g.declaration? D = some x)
    (hk : x.kind.isAccessor = false) (hB : g.hasDeclaration B = true) {bases : List DeclId}
    (hmem : B ∈ bases) :
    (bases.foldl (fun g base => g.addUse (x.toSymbol.mention true) base) g).Linked B D := by
  obtain ⟨front, back, rfl⟩ := List.append_of_mem hmem
  rw [List.foldl_append, List.foldl_cons]
  have hadds : ∀ (k : Graph) (ids : List DeclId),
      Adds k (ids.foldl (fun g base => g.addUse (x.toSymbol.mention true) base) k) := fun k ids =>
    Evolves.adds .overrides rfl (.foldl fun _ _ _ => .addUse)
  -- the override is named by what it said before its own turn, and that has not changed
  have hfront := (hadds g front).outline
  obtain ⟨x', hx', hs, -⟩ := hfront.exists_declaration hx
  have hlive : (front.foldl (fun g base => g.addUse (x.toSymbol.mention true) base) g).hasDeclaration B
      = true := by
    rw [hfront.hasDeclaration]
    exact hB
  have hedge := linked_addUse hlive hx' (by rw [hs]; exact hk)
  rw [hs] at hedge
  exact (hadds _ back).linked hedge

/-- The turn of the override makes the edge. -/
theorem IsBase.linked (hg : g.Consistent) (hu : g.Unambiguous) (I : IsBase g B D) :
    (connectOne g D).Linked B D := by
  obtain ⟨x, hx, -, hk⟩ := I.override
  obtain ⟨_, _, -, -, -, -, _, b, -, hb, -⟩ := I.reference
  unfold connectOne
  rw [hx]
  refine linked_foldl_addUse hx hk (hasDeclaration_of_eq hb)
    (List.mem_filter.2 ⟨I.mem_memberEdges hg hu, ?_⟩)
  simp [I.ne, I.concrete]

/-- **Every base member gets an edge to its override.** -/
theorem linked_connect (hg : g.Consistent) (hu : g.Unambiguous) (I : IsBase g B D) :
    (connect g).Linked B D := by
  obtain ⟨x, hx, hmodifier, -⟩ := I.override
  have hD : D ∈ g.declarationsWhere (·.toSymbol.isOverride) :=
    mem_declarationsWhere.2 ⟨x, hx, hmodifier⟩
  unfold connect
  obtain ⟨front, back, hsplit⟩ := List.append_of_mem hD
  rw [hsplit, List.foldl_append, List.foldl_cons]
  -- what the override says of its base stands when its turn comes
  have hfront : Adds g (front.foldl connectOne g) := adds_foldl_connectOne
  have hc : (front.foldl connectOne g).Consistent :=
    Evolves.coherent (P := Pass.overrides.MayDo) (.foldl fun _ _ _ => evolves_connectOne) hg
  exact adds_foldl_connectOne.linked
    ((I.mono hfront.toSparser).linked hc (hfront.outline.unambiguous hu))

end Overrides

/-! ## The run -/

theorem graph_run_overrides : (Pass.overrides.run s g).graph = Overrides.connect g := by
  simp only [Pass.run, Outcome.done]

section Course

variable (hg : g.Consistent) (hu : g.Unambiguous) (hnone : (analyse s g).failure = none)

include hg hu hnone

/-- Where a base member is used in the end, so is a member that overrides it. -/
theorem isUsed_of_isBase (hmarks : g.marks.used = ∅)
    (I : Overrides.IsBase (whenStarts s g .overrides) B D)
    (hused : (analyse s g).graph.isUsed B = true) : (analyse s g).graph.isUsed D = true := by
  have hall : Pass.all = (Pass.preparing ++ [.protocolExtensions, .conformances]) ++ .overrides ::
    (Pass.completing ++ .reachability :: Pass.judging) := rfl
  obtain ⟨hc, hu'⟩ : (whenStarts s g .overrides).Consistent ∧
    (whenStarts s g .overrides).Unambiguous := sound_whenStarts hg hu hnone
  have hrest : Spares {B} (Pass.overrides.run s (whenStarts s g .overrides)).graph
      (whenStarts s g .reachability) :=
    spares_whenStarts_reachability hg hu hnone hall rfl (by decide) (by decide) rfl
  rw [graph_run_overrides] at hrest
  have hlinked := hrest.keeps (Overrides.linked_connect hc hu' I)
  refine (isUsed_of_linked_whenStarts hg hu hnone hmarks hlinked hused).resolve_right fun hbad => ?_
  -- edges of requirements may go before the search, but the base is none
  have hconnect : Adds (whenStarts s g .overrides) (Overrides.connect (whenStarts s g .overrides)) :=
    Overrides.adds_foldl_connectOne
  have hsame := (hconnect.outline.trans hrest.outline).trans (sameOutline_analyse hg hu hnone)
  rw [hsame.isProtocolMember, I.concrete] at hbad
  cases hbad.1

end Course

/-- **A call through a base member keeps every override alive.**  Take an ingested graph in which no
identifier is carried by two declarations, and let the analysis go through.  Where a base member is
used in the end, so is every member along any chain of overrides that starts from it. -/
theorem isUsed_of_overrides (hg : g.Ingested) (hu : g.Unambiguous) (s : Settings)
    (hnone : (analyse s g).failure = none)
    (hchain : Relation.ReflTransGen (Overrides.IsBase (whenStarts s g .overrides)) B D)
    (hused : (analyse s g).graph.isUsed B = true) : (analyse s g).graph.isUsed D = true := by
  have hmarks : g.marks.used = ∅ := congrArg Marks.used hg.marks
  induction hchain with
  | refl => exact hused
  | tail _ I ih => exact isUsed_of_isBase hg.reachable.consistent hu hnone hmarks I ih

/-- A method, a method that overrides it, and one that overrides the second.  Only the first is
called, and nothing refers to the classes of the others. -/
def overrideChain : Document :=
  let run (usr base : String) (line : Nat) : DeclarationNode :=
    { kind := .instanceMethod, usrs := [usr], name := some "run()", line, modifiers := ["override"]
      related := [{ kind := .instanceMethod, usr := base, line }] }
  { fragments := [
      { file := { path := ⟨"Tasks.swift"⟩, modules := .singleton "App" }
        declarations := [
          { kind := .classType, usrs := ["Task"], name := some "Task", line := 1
            declarations := [
              { kind := .instanceMethod, usrs := ["Task.run"], name := some "run()", line := 2 }] },
          { kind := .classType, usrs := ["Job"], name := some "Job", line := 4
            declarations := [run "Job.run" "Task.run" 5]
            related := [{ kind := .classType, usr := "Task", line := 4 }] },
          { kind := .classType, usrs := ["Night"], name := some "Night", line := 7
            declarations := [run "Night.run" "Job.run" 8]
            related := [{ kind := .classType, usr := "Job", line := 7 }] }]
        references := [{ kind := .instanceMethod, usr := "Task.run", line := 10 }] }] }

/-- One step of the chain, from what can be computed. -/
theorem Overrides.isBase_of_any {r : RefId}
    (hD : (g.declaration? D).any (fun x => x.isOverride && !x.kind.isAccessor) = true)
    (hr : (g.reference? r).any (fun y => y.owner = some (.declaration D) && y.isRelated &&
      (y.kind.isFunction || y.kind.isVariable) &&
      (g.declaration? B).any (·.usrs.contains y.usr)) = true)
    (hne : B ≠ D) (hB : g.isProtocolMember B = false) : Overrides.IsBase g B D := by
  obtain ⟨x, hx, hD⟩ := (Option.any_eq_true _ _).1 hD
  obtain ⟨y, hy, hr⟩ := (Option.any_eq_true _ _).1 hr
  simp only [Bool.and_eq_true, decide_eq_true_eq, Option.any_eq_true, Bool.not_eq_true'] at hD hr
  obtain ⟨⟨⟨ho, hrelated⟩, hk⟩, b, hb, husr⟩ := hr
  exact ⟨⟨x, hx, hD.1, hD.2⟩, ⟨r, y, hy, ho, hrelated, hk, y, b, hy, hb, by simpa using husr⟩, hne, hB⟩

theorem isUsed_of_overrides_overrideChain :
    let g := (Graph.ofDocument overrideChain).1
    Relation.ReflTransGen (Overrides.IsBase (whenStarts {} g .overrides)) ⟨1⟩ ⟨5⟩ ∧
      (analyse {} g).graph.isUsed ⟨1⟩ = true ∧ (analyse {} g).graph.isUsed ⟨5⟩ = true := by
  intro g
  have hg : g.Ingested := Graph.Ingested.empty.ingest overrideChain
  have hu : g.Unambiguous := by decide +kernel
  have hrun : (analyse {} g).failure = none ∧ (analyse {} g).graph.isUsed ⟨1⟩ = true := by
    decide +kernel
  have hfirst : Overrides.IsBase (whenStarts {} g .overrides) ⟨1⟩ ⟨3⟩ := by
    refine Overrides.isBase_of_any (r := ⟨0⟩) ?_ ?_ ?_ ?_ <;> decide +kernel
  have hsecond : Overrides.IsBase (whenStarts {} g .overrides) ⟨3⟩ ⟨5⟩ := by
    refine Overrides.isBase_of_any (r := ⟨2⟩) ?_ ?_ ?_ ?_ <;> decide +kernel
  have hchain : Relation.ReflTransGen (Overrides.IsBase (whenStarts {} g .overrides)) ⟨1⟩ ⟨5⟩ :=
    (Relation.ReflTransGen.single hfirst).tail hsecond
  exact ⟨hchain, hrun.2, isUsed_of_overrides hg hu {} hrun.1 hchain hrun.2⟩

end Deadwood

/-
  A call through a requirement keeps its implementations alive.

  1. **Which calls (`Dispatches`)** — a conforming declaration, a member of an extension of the
     protocol, or a member that a class inherits.

  2. **One edge each (`Dispatches.linked`)** — the two passes for protocols make an edge from the
     requirement to each of its implementations, and every later pass up to the search spares it.

  3. **The run (`isUsed_of_dispatches`)** — the search follows the edge, unless it leads into something
     dead.
-/
import Deadwood.Proofs.Dispatch.Connecting
import Deadwood.Proofs.Dispatch.Course

namespace Deadwood

open Deadwood.Graph

variable {g : Graph} {R X : DeclId} {s : Settings}

theorem graph_run_conformances :
    (Pass.conformances.run s g).graph = Protocols.invertConformances g := by
  simp only [Pass.run, Outcome.done]

/-- Extensions are connected right before conformances are turned around. -/
theorem whenStarts_conformances (hnone : (analyse s g).failure = none) :
    (Protocols.connectExtensions (whenStarts s g .protocolExtensions)).fault = none ∧
      whenStarts s g .conformances =
        (Protocols.connectExtensions (whenStarts s g .protocolExtensions)).graph := by
  have hall : Pass.all = Pass.preparing ++ .protocolExtensions ::
    ([] ++ .conformances :: (.overrides :: Pass.completing ++ .reachability :: Pass.judging)) := rfl
  have hcut := analyse_cut hall rfl (by decide) hnone
  have hafter := whenStarts_after hall rfl rfl (by decide) (by decide) hnone
  exact ⟨hcut.2.1, hafter.2⟩

/-- `Dispatches s g R X`: a call through the requirement `R` may run `X`.

Either `X`, which is no requirement itself, owns a structural reference to `R` when conformances are
turned around; or it is the first member of an extension of the protocol of `R` that bears the name of
`R` and can stand for it; or a class satisfies `R` with `X`, which it inherits. -/
inductive Dispatches (s : Settings) (g : Graph) (R X : DeclId) : Prop where
  | conformance {r : RefId} {y : Reference}
      (reference : (whenStarts s g .conformances).reference? r = some y)
      (owner : y.owner = some (.declaration X)) (related : y.isRelated = true)
      (kind : y.kind.isWitness = true) (names : (whenStarts s g .conformances).Names r R)
      (conformer : (whenStarts s g .conformances).isProtocolMember X = false)
  | extensionMember {proto extension : DeclId} {d : Declaration}
      (extended : extension ∈ (whenStarts s g .protocolExtensions).protocolExtensions proto)
      (member : R ∈ (whenStarts s g .protocolExtensions).membersWhere proto fun _ => true)
      (requirement : (whenStarts s g .protocolExtensions).declaration? R = some d)
      (first : (whenStarts s g .protocolExtensions).witness? extension d.nameText d.kind = some X)
  | inherited
      (pair : (R, X) ∈ Protocols.inheritedImplementations (whenStarts s g .conformances))

/-- When the search starts, a requirement has an edge to everything that a call through it may
run. -/
theorem Dispatches.linked (hg : g.Consistent) (hu : g.Unambiguous)
    (hnone : (analyse s g).failure = none)
    (J : Protocols.Joinable (whenStarts s g .reachability) R X) (D : Dispatches s g R X) :
    (whenStarts s g .reachability).Linked R X := by
  have hall : Pass.all = (Pass.preparing ++ [.protocolExtensions]) ++ .conformances ::
    (.overrides :: Pass.completing ++ .reachability :: Pass.judging) := rfl
  obtain ⟨hfault, hstart⟩ := whenStarts_conformances hnone
  have hc₀ : (whenStarts s g .protocolExtensions).Consistent := (sound_whenStarts hg hu hnone).1
  obtain ⟨hc, hu'⟩ : (whenStarts s g .conformances).Consistent ∧
    (whenStarts s g .conformances).Unambiguous := sound_whenStarts hg hu hnone
  -- the outline is the same from the first of the two passes on
  have hconnect : Spares ∅ (whenStarts s g .protocolExtensions) (whenStarts s g .conformances) := by
    rw [hstart]
    exact .of_adds Protocols.adds_connectEach
  have hinvert : Spares ∅ (whenStarts s g .conformances)
      (Protocols.invertConformances (whenStarts s g .conformances)) :=
    Protocols.spares_invertConformances hc hu' fun _ hQ => hQ.elim
  have hrest : Spares {R} (Pass.conformances.run s (whenStarts s g .conformances)).graph
      (whenStarts s g .reachability) :=
    spares_whenStarts_reachability hg hu hnone hall rfl (by decide) (by decide) rfl
  rw [graph_run_conformances] at hrest
  have J₁ := J.congr (hinvert.outline.trans hrest.outline).symm
  have J₀ := J₁.congr hconnect.outline.symm
  refine hrest.keeps ?_
  cases D with
  | @conformance r y hr ho hrelated hkind hnames hX =>
      have howner := ownerOf?_eq_some_iff.2 ⟨y, hr, ho⟩
      exact Protocols.linked_of_claims hc hu' J₁ ⟨howner, hnames, hX⟩ hr hrelated hkind
  | extensionMember hE hR hd hfirst =>
      refine (Protocols.spares_invertConformances hc hu' J₁.only).keeps ?_
      rw [hstart]
      exact Protocols.linked_connectExtensions hc₀ J₀ hE hR hd hfirst hfault
  | inherited hpair => exact Protocols.linked_of_inherited hc hu' J₁ hpair

/-- **A call through a requirement keeps its implementations alive.**  Take an ingested graph in which
no identifier is carried by two declarations, and let the analysis go through.  Where a requirement
is used in the end, so is every implementation that a call through it may run, unless something
around the implementation, other than a protocol, was neither retained nor referred to when the
search started. -/
theorem isUsed_of_dispatches (hg : g.Ingested) (hu : g.Unambiguous) (s : Settings)
    (hnone : (analyse s g).failure = none) {x : Declaration}
    (hR : (analyse s g).graph.isProtocolMember R = true)
    (hX : (analyse s g).graph.declaration? X = some x) (hx : x.kind.isAccessor = false)
    (hdispatch : Dispatches s g R X) (hused : (analyse s g).graph.isUsed R = true) :
    (analyse s g).graph.isUsed X = true ∨
      ∃ a ∈ (whenStarts s g .reachability).ancestors X,
        (∃ y, (whenStarts s g .reachability).declaration? a = some y ∧ y.kind ≠ .protocolType) ∧
        (whenStarts s g .reachability).isRetained a = false ∧
        (whenStarts s g .reachability).isReferenced a = false := by
  have hc := hg.reachable.consistent
  have hmarks : g.marks.used = ∅ := congrArg Marks.used hg.marks
  have J : Protocols.Joinable (whenStarts s g .reachability) R X :=
    Protocols.Joinable.congr (sameOutline_analyse hc hu hnone).symm ⟨hR, x, hX, hx⟩
  have hlinked := hdispatch.linked hc hu hnone J
  refine (isUsed_of_linked_whenStarts hc hu hnone hmarks hlinked hused).imp_right fun hdead => ?_
  obtain ⟨a, ha, hdead⟩ := List.any_eq_true.1 hdead.2
  simp only [Bool.and_eq_true, Bool.not_eq_true'] at hdead
  obtain ⟨⟨hkind, hretained⟩, hreferenced⟩ := hdead
  obtain ⟨y, hy, hkind⟩ := (Option.any_eq_true _ _).1 hkind
  exact ⟨a, ha, ⟨y, hy, by simpa using hkind⟩, hretained, hreferenced⟩

/-- A protocol with one requirement.  An extension implements it by default, one type implements it
itself, and another one inherits an implementation.  Only the requirement is called. -/
def shapes : Document :=
  let draw (usr : String) (line : Nat) (related : List ReferenceNode) : DeclarationNode :=
    { kind := .instanceMethod, usrs := [usr], name := some "draw()", line, related }
  { fragments := [
      { file := { path := ⟨"Shapes.swift"⟩, modules := .singleton "App" }
        declarations := [
          { kind := .protocolType, usrs := ["Shape"], name := some "Shape", line := 1
            declarations := [draw "Shape.draw" 2 []] },
          { kind := .protocolExtension, usrs := ["Shape+"], name := some "Shape", line := 4
            declarations := [draw "Shape+.draw" 5 []]
            references := [{ kind := .protocolType, usr := "Shape", line := 4, role := .extendedType }] },
          { kind := .structType, usrs := ["Square"], name := some "Square", line := 7
            declarations := [draw "Square.draw" 8 [
              { kind := .instanceMethod, usr := "Shape.draw", line := 8 }]]
            related := [{ kind := .protocolType, usr := "Shape", line := 7 }] },
          { kind := .classType, usrs := ["Round"], name := some "Round", line := 10
            declarations := [draw "Round.draw" 11 []] },
          { kind := .classType, usrs := ["Circle"], name := some "Circle", line := 13
            related := [{ kind := .classType, usr := "Round", line := 13 },
              { kind := .protocolType, usr := "Shape", line := 13, column := 20 }] }]
        references := [
          { kind := .structType, usr := "Square", line := 15 },
          { kind := .classType, usr := "Circle", line := 16 },
          { kind := .instanceMethod, usr := "Shape.draw", line := 17 }] }] }

/-- What the requirement may run: the member of the extension, the one of the conforming type, and
the inherited one. -/
theorem dispatches_shapes : ∀ X ∈ ([⟨3⟩, ⟨5⟩, ⟨7⟩] : List DeclId),
    Dispatches {} (Graph.ofDocument shapes).1 ⟨1⟩ X := by
  let g := (Graph.ofDocument shapes).1
  simp only [List.forall_mem_cons, List.not_mem_nil, false_implies, implies_true, and_true]
  refine ⟨?_, ?_, .inherited ?_⟩
  · have hfound : (⟨2⟩ : DeclId) ∈ (whenStarts {} g .protocolExtensions).protocolExtensions ⟨0⟩ ∧
        ⟨1⟩ ∈ (whenStarts {} g .protocolExtensions).membersWhere ⟨0⟩ (fun _ => true) ∧
        ((whenStarts {} g .protocolExtensions).declaration? ⟨1⟩).any (fun d =>
          (whenStarts {} g .protocolExtensions).witness? ⟨2⟩ d.nameText d.kind = some ⟨3⟩) := by
      decide +kernel
    obtain ⟨hE, hmember, hfirst⟩ := hfound
    obtain ⟨d, hd, hfirst⟩ := (Option.any_eq_true _ _).1 hfirst
    exact .extensionMember hE hmember hd (of_decide_eq_true hfirst)
  · have hfound : ((whenStarts {} g .conformances).reference? ⟨1⟩).any (fun y =>
        y.owner = some (.declaration ⟨5⟩) && y.isRelated && y.kind.isWitness &&
          ((whenStarts {} g .conformances).declaration? ⟨1⟩).any (·.usrs.contains y.usr)) = true ∧
        (whenStarts {} g .conformances).isProtocolMember ⟨5⟩ = false := by
      decide +kernel
    obtain ⟨hclaim, hconformer⟩ := hfound
    obtain ⟨y, hy, hclaim⟩ := (Option.any_eq_true _ _).1 hclaim
    simp only [Bool.and_eq_true, decide_eq_true_eq, Option.any_eq_true] at hclaim
    obtain ⟨⟨⟨ho, hrelated⟩, hkind⟩, x, hx, husr⟩ := hclaim
    exact .conformance hy ho hrelated hkind ⟨y, x, hy, hx, by simpa using husr⟩ hconformer
  · decide +kernel

theorem isUsed_of_dispatches_shapes :
    let g := (Graph.ofDocument shapes).1
    (analyse {} g).graph.isUsed ⟨1⟩ = true ∧ ∀ X ∈ ([⟨3⟩, ⟨5⟩, ⟨7⟩] : List DeclId),
      Dispatches {} g ⟨1⟩ X ∧ (analyse {} g).graph.isUsed X = true := by
  intro g
  have hg : g.Ingested := Graph.Ingested.empty.ingest shapes
  have hu : g.Unambiguous := by decide +kernel
  have hrun : (analyse {} g).failure = none ∧ (analyse {} g).graph.isProtocolMember ⟨1⟩ = true ∧
      (analyse {} g).graph.isUsed ⟨1⟩ = true ∧ ∀ X ∈ ([⟨3⟩, ⟨5⟩, ⟨7⟩] : List DeclId),
        ((analyse {} g).graph.declaration? X).any (!·.kind.isAccessor) = true := by
    decide +kernel
  -- nothing around the three implementations is dead
  have hsafe : ∀ X ∈ ([⟨3⟩, ⟨5⟩, ⟨7⟩] : List DeclId),
      ∀ a ∈ (whenStarts {} g .reachability).ancestors X,
        (whenStarts {} g .reachability).isReferenced a = true := by
    decide +kernel
  obtain ⟨hnone, hR, hcalled, hlive⟩ := hrun
  refine ⟨hcalled, fun X hX => ⟨dispatches_shapes X hX, ?_⟩⟩
  obtain ⟨x, hx, hk⟩ := (Option.any_eq_true _ _).1 (hlive X hX)
  refine (isUsed_of_dispatches hg hu {} hnone hR hx (by simpa using hk) (dispatches_shapes X hX)
    hcalled).resolve_right ?_
  rintro ⟨a, ha, -, -, hno⟩
  rw [hsafe X hX a ha] at hno
  cases hno

end Deadwood

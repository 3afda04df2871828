/-
  Edges from requirements and base members to what a call through them may run, and the passes that
  leave such edges alone.

  1. **`Linked`** — a declaration refers structurally to one that is no accessor.  A call through
     the first keeps the second alive along this edge.

  2. **`Adds`** — what nearly every pass does: references, marks other than those of use and
     results are added, and nothing else changes.

  3. **`Spares`** — the outline stays, nothing is marked used, and the edges of the declarations of a
     set stay.  References that are no such edges may go.

  4. **Removal** — two passes before the search remove references.  Turning a conformance around
     removes one that no requirement makes, so it spares the edges of requirements only.  Cleaning
     up after properties that are only written removes references to setters, and no edge leads to
     a setter.
-/
import Deadwood.Proofs.Evolution
import Deadwood.Proofs.Renaming.Pipeline
import Deadwood.Proofs.Store.Sparser

namespace Deadwood

open Deadwood.Graph

namespace Graph

variable {g h k : Graph} {d R X : DeclId} {e r : RefId} {m : Mention} {S : Set DeclId}

/-! ## Edges -/

/-- `Edge g R X e`: through the reference `e`, the declaration `R` refers structurally to `X`, which
is no accessor. -/
def Edge (g : Graph) (R X : DeclId) (e : RefId) : Prop :=
  ∃ y x, g.reference? e = some y ∧ y.owner = some (.declaration R) ∧ y.isRelated = true ∧
    g.declaration? X = some x ∧ x.kind.isAccessor = false ∧ y.usr = x.firstUsr

/-- `Linked g R X`: an edge leads from `R` to `X`. -/
def Linked (g : Graph) (R X : DeclId) : Prop := ∃ e, g.Edge R X e

theorem Edge.ownerOf? (E : g.Edge R X e) : g.ownerOf? e = some (.declaration R) := by
  obtain ⟨y, -, hy, ho, -⟩ := E
  exact ownerOf?_eq_some_iff.2 ⟨y, hy, ho⟩

theorem Edge.live (E : g.Edge R X e) : g.hasReference e = true := by
  obtain ⟨y, -, hy, -⟩ := E
  exact hasReference_of_eq hy

/-- An edge of a consistent graph leads to its target. -/
theorem Edge.names (hg : g.Consistent) (E : g.Edge R X e) : g.Names e X := by
  obtain ⟨y, x, hy, -, -, hx, -, husr⟩ := E
  refine ⟨y, x, hy, hx, ?_⟩
  rw [husr]
  exact Symbol.firstUsr_mem (hg.identified X x hx)

/-- An edge is an edge as long as the outline stays, and its reference. -/
theorem Edge.congr (H : SameOutline g h)
    (hb : (h.reference? e).map Reference.bare = (g.reference? e).map Reference.bare)
    (E : g.Edge R X e) : h.Edge R X e := by
  obtain ⟨y, x, hy, ho, hr, hx, hk, husr⟩ := E
  obtain ⟨x', hx', hs, -⟩ := H.exists_declaration hx
  obtain ⟨y', hy', hmention, howner⟩ := exists_reference_of_bare hb hy
  refine ⟨y', x', hy', howner.trans ho, ?_, hx', ?_, ?_⟩
  · rw [hmention]; exact hr
  · rw [hs]; exact hk
  · rw [hmention, hs]; exact husr

/-- A structural reference to a declaration is an edge, whether it is new or was there. -/
theorem linked_addUse (hR : g.hasDeclaration R = true) {x : Declaration}
    (hx : g.declaration? X = some x) (hk : x.kind.isAccessor = false) :
    (g.addUse (x.toSymbol.mention true) R).Linked R X := by
  cases hnew : g.equalReference? (x.toSymbol.mention true).key (some (.declaration R)) with
  | none =>
      obtain ⟨x', hx', hs, -⟩ :=
        (sameOutline_addUse (m := x.toSymbol.mention true) (d := R)).exists_declaration hx
      refine ⟨g.nextReference,
        { x.toSymbol.mention true with owner := some (.declaration R) }, x', ?_, rfl, rfl, hx', ?_, ?_⟩
      · rw [reference?_addUse hR hnew, if_pos rfl]
      · rw [hs]; exact hk
      · rw [hs]; rfl
  | some q =>
      rw [addUse_of_equal (by rw [hnew]; exact Option.some_ne_none q)]
      obtain ⟨y, hy, ho, hkey⟩ := reference?_of_equalReference? hnew
      exact ⟨q, y, x, hy, ho, congrArg Mention.Key.isRelated hkey, hx, hk,
        congrArg Mention.Key.usr hkey⟩

/-- Which declaration carries which identifier is part of the outline. -/
theorem SameOutline.unambiguous (H : SameOutline g h) (hu : g.Unambiguous) : h.Unambiguous := by
  refine hu.of_usrs fun d y hy => ?_
  obtain ⟨x, hx, hs, -⟩ := H.symm.exists_declaration hy
  exact ⟨x, hx, by rw [hs]⟩

/-- Where no identifier is carried twice, an identifier leads to the declaration that carries it. -/
theorem declarationWithUsr?_eq_some (hg : g.Indexed) (hu : g.Unambiguous) {x : Declaration}
    {usr : String} (hx : g.declaration? R = some x) (husr : usr ∈ x.usrs.toList) :
    g.declarationWithUsr? usr = some R := by
  obtain ⟨d, hd⟩ := hg.exists_declarationWithUsr? hx husr
  obtain ⟨y, hy, hyu⟩ := hg.carries_of_declarationWithUsr? hd
  rw [hd, hu d R y x usr hy hx hyu husr]

/-! ## Changes that only add -/

/-- From `g` to `h` nothing is marked used, and the outline and every reference stay as they were, apart
from what is nested in it. -/
structure Adds (g h : Graph) : Prop extends Sparser g h where
  used : h.marks.used = g.marks.used

namespace Adds

theorem refl : Adds g g := ⟨.refl, rfl⟩

theorem trans (H : Adds g h) (H' : Adds h k) : Adds g k where
  toSparser := H.toSparser.trans H'.toSparser
  used := H'.used.trans H.used

/-- Notes other than the marks of use do not matter. -/
theorem of_entries (hd : h.declarations = g.declarations) (hr : h.references = g.references)
    (hused : h.marks.used = g.marks.used) : Adds g h where
  outline := .of_declaration fun d => by unfold declaration?; rw [hd]
  used := hused
  bare r _ := by unfold reference?; rw [hr]

theorem addReference {o : Option Owner} : Adds g (g.addReference m o).1 where
  outline := sameOutline_addReference
  used := by
    cases hnew : g.equalReference? m.key o with
    | some q => rw [addReference_eq_of_some hnew]
    | none => exact congrArg (fun n => n.marks.used) (notes_addReference hnew)
  bare r hr := bare_addReference hr

theorem markAll {mark : Mark} (hm : mark ≠ .used) (ids : List DeclId) :
    Adds g (g.markAll mark ids) where
  outline := sameOutline_markAll
  used := by
    have hused : (g.markAll mark ids).marks.of .used = g.marks.of .used :=
      SortedSet.eq_of_mem_iff fun d => by simp [mem_marks_markAll, hm]
    exact hused
  bare r _ := by rw [reference?_markAll]

theorem linked (H : Adds g h) (L : g.Linked R X) : h.Linked R X := by
  obtain ⟨e, E⟩ := L
  exact ⟨e, E.congr H.outline (H.bare e E.live)⟩

end Adds

/-! ## Changes that leave edges alone -/

/-- From `g` to `h` the outline stays, nothing is marked used, and the edges of the declarations of
`S` stay. -/
structure Spares (S : Set DeclId) (g h : Graph) : Prop where
  outline : SameOutline g h
  used : h.marks.used = g.marks.used
  linked : ∀ R ∈ S, ∀ X, g.Linked R X → h.Linked R X

namespace Spares

theorem refl : Spares S g g := ⟨.refl, rfl, fun _ _ _ L => L⟩

theorem trans (H : Spares S g h) (H' : Spares S h k) : Spares S g k where
  outline := H.outline.trans H'.outline
  used := H'.used.trans H.used
  linked R hR X L := H'.linked R hR X (H.linked R hR X L)

/-- A single edge stays. -/
theorem keeps (H : Spares {R} g h) (L : g.Linked R X) : h.Linked R X := H.linked R rfl X L

/-- It is enough that the reference of every such edge is still there. -/
theorem of_edges (H : SameOutline g h) (hused : h.marks.used = g.marks.used)
    (hb : ∀ R ∈ S, ∀ X e, g.Edge R X e →
      (h.reference? e).map Reference.bare = (g.reference? e).map Reference.bare) :
    Spares S g h where
  outline := H
  used := hused
  linked R hR X L := by
    obtain ⟨e, E⟩ := L
    exact ⟨e, E.congr H (hb R hR X e E)⟩

theorem of_adds (H : Adds g h) : Spares S g h := ⟨H.outline, H.used, fun _ _ _ => H.linked⟩

/-- Going through a list, where every step keeps what the next one needs. -/
theorem foldl_of {α : Type} {f : Graph → α → Graph} {I : Graph → Prop} {xs : List α} (hI : I g)
    (hstep : ∀ k, ∀ a ∈ xs, I k → I (f k a) ∧ Spares S k (f k a)) : Spares S g (xs.foldl f g) := by
  refine And.right (List.foldlRecOn (motive := fun k : Graph => I k ∧ Spares S g k) xs f ⟨hI, .refl⟩
    fun k hk a ha => ?_)
  obtain ⟨hnext, hone⟩ := hstep k a ha hk.1
  exact ⟨hnext, hk.2.trans hone⟩

/-- References may go, and what is nested in them, where none of them is an edge. -/
theorem foldl_removeReference (hg : g.Owned) {ids : List RefId}
    (hids : ∀ R ∈ S, ∀ X e, g.Edge R X e → e ∉ ids) :
    Spares S g (ids.foldl Graph.removeReference g) := by
  have P := pruned_foldl_removeReference hg ids
  refine .of_edges P.sameOutline (congrArg (fun n => n.marks.used) P.notes)
    fun R hR X e E => P.bare fun hgone => ?_
  obtain ⟨r, hr, hmem⟩ := List.mem_flatMap.1 hgone
  -- an edge belongs to a declaration, so it is not nested in what goes
  have hne : e ≠ r := fun he => hids R hR X e E (he ▸ hr)
  exact not_mem_referenceTree hg E.ownerOf? hne hmem

end Spares

end Graph

/-! ## Passes that add references and marks -/

variable {g h : Graph} {c d p R X : DeclId} {r : RefId} {s : Settings} {S : Set DeclId} {pass : Pass}

/-- Whether a pass only adds references, marks and results. -/
def Pass.isAdding (pass : Pass) : Bool := !pass.prunes && pass ≠ .cascadeAccess

/-- One operation of such a pass. -/
theorem Graph.Adds.apply (hp : pass.isAdding = true) {op : Operation} (hop : pass.MayDo op) :
    Adds g (op.apply g) := by
  simp only [Pass.isAdding, Bool.and_eq_true, Bool.not_eq_true', decide_eq_true_eq] at hp
  obtain ⟨hprunes, haccess⟩ := hp
  have hfold : pass ≠ .foldExtensions := fun he => by rw [he] at hprunes; cases hprunes
  cases op with
  | addReference m owner => exact .addReference
  | mark mark d =>
      refine .markAll ?_ [d]
      rintro rfl
      cases Pass.eq_reachability_of_puts hop
      cases hprunes
  | removeReference id =>
      have hyes : pass.prunes = true := hop
      rw [hprunes] at hyes
      cases hyes
  | setAccess id access => exact absurd hop haccess
  | moveDeclaration | moveReference | removeDeclaration | recordFolded => exact absurd hop hfold
  | recordUnusedImport | recordRedundantProtocol | recordRedundantAccess =>
      exact .of_entries rfl rfl rfl
  | addDeclaration | addUnusedParameter | unify | addFile | addModuleExport | addAsset =>
      exact hop.elim

theorem Graph.Evolves.adds (pass : Pass) (hp : pass.isAdding = true)
    (H : Evolves pass.MayDo g h) : Adds g h := by
  induction H with
  | refl => exact .refl
  | step op _ hop _ ih => exact ih.trans (.apply hp hop)

/-! ## Turning conformances around -/

namespace Protocols

theorem adds_foldl_refer {pairs : List (DeclId × DeclId)} :
    Adds g (pairs.foldl (fun g pair => refer g pair.1 pair.2 true) g) :=
  Evolves.adds .protocolExtensions rfl evolves_foldl_refer

theorem adds_connectEach {ids : List DeclId} : Adds g (connectEach g ids).graph :=
  Evolves.adds .protocolExtensions rfl evolves_connectEach

/-- What goes when a reference is turned around is no edge of a requirement: an implementation
makes it, and requirements are no implementations. -/
theorem spares_dropped (hg : g.Consistent) (hS : ∀ Q ∈ S, g.isProtocolMember Q = true)
    (ht : turned? g r = some (R, c)) {m : Mention} :
    Spares S (g.addUse m R)
      ((dropped g r c).foldl Graph.removeReference (g.addUse m R)) := by
  obtain ⟨z, hz, -, -, hmade, -, hc, -⟩ := turned?_eq_some_iff.1 ht
  have hr := index_lt_of_hasReference (hasReference_of_eq hz)
  have hadded : (g.addUse m R).Consistent := hg.addUse
  have hmade' : (g.addUse m R).referencingDeclaration? r = some c := by
    rw [referencingDeclaration?_addUse hg (requirement_live ht) hr]
    exact hmade
  refine .foldl_removeReference hadded.toOwned fun Q hQ X e E hmem => ?_
  obtain rfl := mem_dropped hmem
  have hne : c ≠ Q := by
    rintro rfl
    rw [hS c hQ] at hc
    cases hc
  have hself : e ∈ (g.addUse m R).referenceTree e := mem_referenceTree.2 (.here (mem_refIds.2 E.live))
  exact ownerOf?_ne_of_referencingDeclaration? hadded.toOwned hmade' hne e hself E.ownerOf?

theorem spares_invertOne (hg : g.Consistent) (hS : ∀ Q ∈ S, g.isProtocolMember Q = true) :
    Spares S g (invertOne g r) := by
  cases ht : turned? g r with
  | none => rw [invertOne_of_none ht]; exact .refl
  | some pair =>
      obtain ⟨R, c⟩ := pair
      obtain ⟨z, hz⟩ := hasDeclaration_iff.1 (conformer_live ht)
      rw [invertOne_of_some ht hz]
      exact (Spares.of_adds .addReference).trans (spares_dropped hg hS ht)

theorem spares_foldl_invertOne (hg : g.Consistent) (hu : g.Unambiguous)
    (hS : ∀ Q ∈ S, g.isProtocolMember Q = true) {ids : List RefId} :
    Spares S g (ids.foldl invertOne g) := by
  refine .foldl_of (I := fun k => k.Consistent ∧ k.Unambiguous ∧
    ∀ Q ∈ S, k.isProtocolMember Q = true) ⟨hg, hu, hS⟩ fun k q _ hk => ?_
  have H := (Remains.refl hk.1 hk.2.1).invertOne (r := q)
  have hone := spares_invertOne hk.1 hk.2.2 (r := q)
  refine ⟨⟨H.consistent, H.unambiguous, fun Q hQ => ?_⟩, hone⟩
  rw [hone.outline.isProtocolMember]
  exact hk.2.2 Q hQ

theorem consistent_refer (hg : g.Consistent) {isRelated : Bool} :
    (refer g c d isRelated).Consistent :=
  Evolves.coherent (P := Pass.protocolExtensions.MayDo) evolves_refer hg

theorem consistent_foldl_refer (hg : g.Consistent) {pairs : List (DeclId × DeclId)} :
    (pairs.foldl (fun g pair => refer g pair.1 pair.2 true) g).Consistent :=
  Evolves.coherent (P := Pass.protocolExtensions.MayDo) evolves_foldl_refer hg

theorem unambiguous_foldl_refer (hu : g.Unambiguous) {pairs : List (DeclId × DeclId)} :
    (pairs.foldl (fun g pair => refer g pair.1 pair.2 true) g).Unambiguous :=
  sameOutline_foldl_refer.unambiguous hu

theorem spares_invertConformances (hg : g.Consistent) (hu : g.Unambiguous)
    (hS : ∀ Q ∈ S, g.isProtocolMember Q = true) : Spares S g (invertConformances g) :=
  (Spares.of_adds adds_foldl_refer).trans
    (spares_foldl_invertOne (consistent_foldl_refer hg) (unambiguous_foldl_refer hu) fun Q hQ => by
      rw [sameOutline_foldl_refer.isProtocolMember]
      exact hS Q hQ)

end Protocols

/-! ## Properties that are only written -/

namespace AssignOnly

/-- A write names a setter. -/
theorem mem_writes (hg : g.Owned) (hr : r ∈ writes g d) :
    ∃ a x, g.declaration? a = some x ∧ x.kind = .setter ∧ g.Names r a := by
  obtain ⟨a, ha, hr⟩ := List.mem_flatMap.1 hr
  unfold accessorsOf at ha
  split at ha
  · obtain ⟨-, ha⟩ := List.mem_filter.1 ha
    obtain ⟨x, hx, hk⟩ := (Option.any_eq_true _ _).1 ha
    exact ⟨a, x, hx, by simpa using hk, hg.mem_referencesTo.1 hr⟩
  · cases ha

theorem spares_eliminateOne (hg : g.Consistent) (hu : g.Unambiguous) :
    Spares S g (eliminateOne g d) := by
  unfold eliminateOne
  split
  · have hwrites : Spares S g ((writes g d).foldl Graph.removeReference g) := by
      refine .foldl_removeReference hg.toOwned fun R _ X e E hmem => ?_
      -- the edge would lead to a setter, and no other declaration carries its identifier
      obtain ⟨a, x, hx, hk, y, x', hy, hx', hmemx⟩ := mem_writes hg.toOwned hmem
      obtain ⟨y', z, hy', hz, hmemz⟩ := E.names hg
      rw [hy] at hy'
      cases hy'
      obtain rfl := hu a X x' z y.usr hx' hz hmemx hmemz
      obtain ⟨_, z', -, -, -, hz', hacc, -⟩ := E
      rw [hx] at hz'
      cases hz'
      rw [hk] at hacc
      cases hacc
    have hmark : Spares S ((writes g d).foldl Graph.removeReference g)
        (((writes g d).foldl Graph.removeReference g).markAll .assignOnly [d]) :=
      .of_adds (.markAll (fun he => by cases he) [d])
    exact hwrites.trans hmark
  · exact .refl

theorem spares_eliminate (hg : g.Consistent) (hu : g.Unambiguous) : Spares S g (eliminate s g) := by
  unfold eliminate
  split
  · exact .refl
  · refine .foldl_of (I := fun k => k.Consistent ∧ k.Unambiguous) ⟨hg, hu⟩ fun k id _ hk => ?_
    obtain ⟨_, -, -, -, T⟩ := tracks_eliminateOne (Twin.refl hk.1 hk.2) (d := id)
    exact ⟨⟨T.left, T.unambiguous⟩, spares_eliminateOne hk.1 hk.2⟩

end AssignOnly

end Deadwood

/-
  Turning conformances around is exact, and when it is stable.

  1. **`Inverts`** — the references that are to be turned: an implementation owns a structural one
     that names its requirement.

  2. **What a second run finds** — every reference that is still a candidate records what is there
     already.  Only the search for inherited members can find something new, and only when a
     requirement came to look like a class: an edge from a requirement to a class reads like a
     clause in which the requirement names its superclass.

  3. **`InvertsExactly`** — what is joined, what goes, what stays, and what running the pass again does.
     Where no requirement is a class or is named as one, it does nothing.
-/
import Deadwood.Proofs.Dispatch.Rewiring
import Deadwood.Proofs.Extensions.Exactness

namespace Deadwood

open Deadwood.Graph

namespace Graph

variable {g : Graph} {a c d p : DeclId}

/-! ## Clauses of classes -/

/-- `Inherits g d r y`: in its inheritance clause, `d` refers to a class. -/
structure Inherits (g : Graph) (d : DeclId) (r : RefId) (y : Reference) : Prop where
  reference : g.reference? r = some y
  owner : y.owner = some (.declaration d)
  clause : isInheritance y = true
  kind : y.kind = .classType

/-- The superclasses that a declaration names. -/
theorem mem_superclassesNamed (hg : g.Owned) :
    a ∈ (g.inheritedTypeReferences d).filterMap (fun r => do
      let reference ← g.reference? r
      guard (reference.kind == .classType)
      let target ← g.explicitDeclarationWithUsr? reference.usr
      guard (target ≠ d)
      return target) ↔
    ∃ r y, Inherits g d r y ∧ g.explicitDeclarationWithUsr? y.usr = some a ∧ a ≠ d := by
  simp only [List.mem_filterMap, Option.bind_eq_bind, Option.bind_eq_some_iff, bind_guard,
    Option.ite_none_right_eq_some, Option.pure_def, Option.some.injEq, beq_iff_eq]
  constructor
  · rintro ⟨r, hr, y, hy, hk, b, hb, hne, rfl⟩
    obtain ⟨ho, hclause⟩ := (mem_inheritedTypeReferences hg hy).1 hr
    exact ⟨r, y, ⟨hy, ho, hclause, hk⟩, hb, hne⟩
  · rintro ⟨r, y, ⟨hy, ho, hclause, hk⟩, hb, hne⟩
    exact ⟨r, (mem_inheritedTypeReferences hg hy).2 ⟨ho, hclause⟩, y, hy, hk, a, hb, hne, rfl⟩

/-- A superclass is named by a reference to a class. -/
theorem named_of_mem_immediateSuperclasses (hg : g.Coherent False) (ha : a ∈ g.immediateSuperclasses d) :
    ∃ r y, g.reference? r = some y ∧ y.kind = .classType ∧ g.Names r a := by
  obtain ⟨r, y, hin, hb, -⟩ := (mem_superclassesNamed hg.toOwned).1 (mem_sortedDeclarations.1 ha).1
  have hcarries : g.declarationWithUsr? y.usr = some a := by rw [declarationWithUsr?, hb]; rfl
  obtain ⟨x, hx, husr⟩ := hg.toIndexed.carries_of_declarationWithUsr? hcarries
  exact ⟨r, y, hin.reference, hin.kind, y, x, hin.reference, hx, husr⟩

theorem mem_conformingDeclarations (hg : g.Owned) : c ∈ g.conformingDeclarations p ↔
    ∃ r y x, g.reference? r = some y ∧ g.Names r p ∧ y.isStructural = true ∧
      g.referencingDeclaration? r = some c ∧ g.declaration? c = some x ∧
      canConform x.kind = true ∧ c ≠ p := by
  simp only [conformingDeclarations, mem_sortedDeclarations, List.mem_filterMap, hg.mem_referencesTo,
    Option.bind_eq_bind, Option.bind_eq_some_iff, bind_guard, Option.ite_none_right_eq_some,
    Option.pure_def, Option.some.injEq, Bool.and_eq_true, decide_eq_true_eq]
  constructor
  · rintro ⟨⟨r, hn, y, hy, hs, c, hc, x, hx, ⟨hk, hne⟩, rfl⟩, -⟩
    exact ⟨r, y, x, hy, hn, hs, hc, hx, hk, hne⟩
  · rintro ⟨r, y, x, hy, hn, hs, hc, hx, hk, hne⟩
    exact ⟨⟨r, hn, y, hy, hs, c, hc, x, hx, ⟨hk, hne⟩, rfl⟩, hasDeclaration_of_eq hx⟩

end Graph

namespace Protocols

variable {g k : Graph} {c d p R X C : DeclId} {q r : RefId} {P : Set (DeclId × DeclId)}
  {G : Set RefId}

/-! ## What is to be turned -/

/-- `Inverts g r R C`: the declaration `C`, which is no requirement, owns a structural reference of a
kind that may satisfy a requirement, and it names the requirement `R`. -/
structure Inverts (g : Graph) (r : RefId) (R C : DeclId) : Prop extends Claims g r R C where
  candidate : Candidate g r
  requirement : g.isProtocolMember R = true

/-- The pass turns just these references. -/
theorem inverts_iff (hg : g.Coherent False) (hu : g.Unambiguous) (hf : g.NestsUses) :
    Inverts g r R C ↔ Candidate g r ∧ turned? g r = some (R, C) := by
  constructor
  · rintro ⟨⟨ho, ⟨y, x, hy, hx, husr⟩, hC⟩, hcandidate, hR⟩
    refine ⟨hcandidate, turned?_eq_some_iff.2 ⟨y, hy, declarationWithUsr?_eq_some hg.toIndexed hu hx
      husr, hR, ?_, ?_, hC, hg.owner_live ho⟩⟩
    · have ho : (g.reference? r).bind (·.owner) = some (.declaration C) := ho
      rw [referencingDeclaration?, ownerWithin, ho]
    · rintro rfl
      rw [hR] at hC
      cases hC
  · rintro ⟨hcandidate, ht⟩
    obtain ⟨y, hy, hnames, hR, hmade, -, hC, -⟩ := turned?_eq_some_iff.1 ht
    obtain ⟨x, hx, husr⟩ := hg.toIndexed.carries_of_declarationWithUsr? hnames
    obtain ⟨y', hy', hrelated, -⟩ := id hcandidate
    exact ⟨⟨hf.ownerOf? hy' hrelated hmade, ⟨y, x, hy, hx, husr⟩, hC⟩, hcandidate, hR⟩

/-! ## Requirements and classes -/

/-- `Requirement g R`: `R` belongs to a protocol, and members of conforming types may satisfy it, or
a structural reference says that one does. -/
def Requirement (g : Graph) (R : DeclId) : Prop :=
  g.isProtocolMember R = true ∧
    ((∃ x, g.declaration? R = some x ∧ x.kind.isWitness = true) ∨ ∃ q, Candidate g q ∧ g.Names q R)

/-- No requirement is a class, or named as one. -/
def NoClassRequired (g : Graph) : Prop :=
  ∀ R, Requirement g R → (∀ x, g.declaration? R = some x → x.kind ≠ .classType) ∧
    ∀ r y, g.reference? r = some y → y.kind = .classType → ¬ g.Names r R

/-- Where references say of what kind the declarations are that they name, no requirement is a
class. -/
theorem noClassRequired_of_namesKinds (hkinds : g.NamesKinds) : NoClassRequired g := by
  rintro R ⟨-, hR⟩
  have hkind : ∀ x, g.declaration? R = some x → x.kind ≠ .classType := by
    intro x hx hclass
    rcases hR with ⟨x', hx', hk⟩ | ⟨q, ⟨y, hy, -, hk⟩, y', x', hy', hx', husr⟩
    · rw [hx] at hx'
      cases hx'
      rw [hclass] at hk
      cases hk
    · rw [hy] at hy'
      cases hy'
      rw [hx] at hx'
      cases hx'
      rw [hkinds q y hy R x hx husr, hclass] at hk
      cases hk
  refine ⟨hkind, fun r y hy hclass ⟨y', x, hy', hx, husr⟩ => hkind x hx ?_⟩
  rw [hy] at hy'
  cases hy'
  rw [← hkinds r y hy R x hx husr, hclass]

/-! ## What a second run finds -/

namespace Rewires

variable (H : Rewires g P G k) (hg : g.Coherent False)
include H

/-- A reference that was given out and is still there stayed. -/
theorem stays {y : Reference} (hy : k.reference? r = some y) (hlt : r.index < g.references.size) :
    Stays g G r := ⟨hlt, fun q hq hmem => by rw [H.gone q hq r hmem] at hy; cases hy⟩

theorem nestsUses (hf : g.NestsUses) : k.NestsUses := by
  intro r y o hy ho
  by_cases hlt : r.index < g.references.size
  · rw [H.kept r (H.stays hy hlt)] at hy
    exact hf r y o hy ho
  · obtain ⟨R, X, x, -, -, rfl⟩ := H.fresh r y (Nat.le_of_not_lt hlt) hy
    cases ho

section Superclasses

variable (hG : ∀ q ∈ G, Candidate g q) (hd : ∀ X, (d, X) ∉ P)
include hg hG hd

/-- A declaration that came to refer to nothing has the clause it had: what went was no reference to
a class. -/
theorem inherits_iff {y : Reference} : Inherits k d r y ↔ Inherits g d r y := by
  constructor
  · rintro ⟨hy, ho, hclause, hk⟩
    refine ⟨?_, ho, hclause, hk⟩
    by_cases hlt : r.index < g.references.size
    · rw [← H.kept r (H.stays hy hlt)]
      exact hy
    · obtain ⟨R, X, x, hp, -, rfl⟩ := H.fresh r y (Nat.le_of_not_lt hlt) hy
      cases ho
      exact absurd hp (hd X)
  · rintro ⟨hy, ho, hclause, hk⟩
    refine ⟨?_, ho, hclause, hk⟩
    rw [H.kept r ⟨index_lt_of_hasReference (hasReference_of_eq hy), fun q hq hmem => ?_⟩]
    · exact hy
    · have howner : g.ownerOf? r = some (.declaration d) := ownerOf?_eq_some_iff.2 ⟨y, hy, ho⟩
      obtain rfl := eq_of_mem_referenceTree hg.toOwned (fun o => by rw [howner]; simp) hmem
      obtain ⟨y', hy', -, hwitness⟩ := hG r hq
      rw [hy] at hy'
      cases hy'
      rw [hk] at hwitness
      cases hwitness

theorem immediateSuperclasses : k.immediateSuperclasses d = g.immediateSuperclasses d := by
  refine H.outline.sortedDeclarations fun a => ?_
  rw [mem_superclassesNamed hg.toOwned, mem_superclassesNamed H.coherent.toOwned]
  simp only [H.inherits_iff hg hG hd,
    H.outline.explicitDeclarationWithUsr? hg.toIndexed H.coherent.toIndexed]

end Superclasses

section Inherited

variable (hG : ∀ q ∈ G, Candidate g q)
  (hclass : ∀ R X x, (R, X) ∈ P → g.declaration? R = some x → x.kind ≠ .classType)
  (hbase : ∀ R X r y, (R, X) ∈ P → g.reference? r = some y → y.kind = .classType → ¬ g.Names r R)
include hg hG hbase

/-- The superclasses of a class are found without passing through a requirement. -/
theorem superclasses (hd : ∀ X, (d, X) ∉ P) : k.superclasses d = g.superclasses d := by
  have hsame : ∀ a, (∀ X, (a, X) ∉ P) → k.immediateSuperclasses a = g.immediateSuperclasses a :=
    fun a ha => H.immediateSuperclasses hg hG ha
  have hclosed : ∀ a, (∀ X, (a, X) ∉ P) → ∀ b ∈ g.immediateSuperclasses a, ∀ X, (b, X) ∉ P := by
    intro a _ b hb X hp
    obtain ⟨r, y, hy, hk, hn⟩ := named_of_mem_immediateSuperclasses hg hb
    exact hbase b X r y hp hy hk hn
  have hnext : explore .breadthFirst k.immediateSuperclasses k.declIds [d] =
      explore .breadthFirst g.immediateSuperclasses k.declIds [d] :=
    explore_congr hsame hclosed fun a ha => by rw [List.mem_singleton.1 ha]; exact hd
  have hnodes : explore .breadthFirst g.immediateSuperclasses k.declIds ([d].map id) =
      (explore .breadthFirst g.immediateSuperclasses g.declIds [d]).map id :=
    explore_map Function.injective_id (fun _ => (List.map_id _).symm) nodup_declIds nodup_declIds
      fun _ => H.outline.mem_declIds
  rw [List.map_id, List.map_id] at hnodes
  rw [Graph.superclasses, Graph.superclasses, hnext, hnodes]

omit hG hbase in
/-- A class that conforms afterwards conformed before. -/
theorem conformingDeclarations (hc : ∀ X, (c, X) ∉ P) (hmem : c ∈ k.conformingDeclarations p) :
    c ∈ g.conformingDeclarations p := by
  obtain ⟨r, y, x, hy, ⟨y', z, hy', hz, husr⟩, hs, hmade, hx, hk, hne⟩ :=
    (mem_conformingDeclarations H.coherent.toOwned).1 hmem
  by_cases hlt : r.index < g.references.size
  · have hr := H.stays hy hlt
    rw [H.kept r hr] at hy hy'
    rw [H.referencingDeclaration? hg hr] at hmade
    obtain ⟨x', hx', hxs, -⟩ := H.outline.symm.exists_declaration hx
    obtain ⟨z', hz', hzs, -⟩ := H.outline.symm.exists_declaration hz
    exact (mem_conformingDeclarations hg.toOwned).2 ⟨r, y, x', hy, ⟨y', z', hy', hz', by
      rw [hzs]; exact husr⟩, hs, hmade, hx', by rw [hxs]; exact hk, hne⟩
  · obtain ⟨R, X, w, hp, -, rfl⟩ := H.fresh r y (Nat.le_of_not_lt hlt) hy
    rw [Graph.referencingDeclaration?, ownerWithin, hy] at hmade
    cases hmade
    exact absurd hp (hc X)

include hclass in
/-- **Nothing new is inherited** where no requirement is a class or is named as one. -/
theorem inherited_of_inherited {pair : DeclId × DeclId} (hmem : pair ∈ inheritedImplementations k) :
    pair ∈ inheritedImplementations g := by
  obtain ⟨p, hp, c, hc, hkind, hby⟩ := mem_inheritedImplementations.1 hmem
  have hkind : (g.declaration? c).any (·.kind == .classType) = true := by
    rw [← H.outline.any_declaration fun x y he => by rw [he]]
    exact hkind
  have hnone : ∀ X, (c, X) ∉ P := by
    obtain ⟨x, hx, hk⟩ := (Option.any_eq_true _ _).1 hkind
    exact fun X hpair => hclass c X x hpair hx (by simpa using hk)
  refine mem_inheritedImplementations.2 ⟨p, ?_, c, H.conformingDeclarations hg hnone hc, hkind, ?_⟩
  · obtain ⟨x, hx, hk⟩ := H.coherent.toIndexed.mem_declarationsOfKinds.1 hp
    obtain ⟨x', hx', hs, -⟩ := H.outline.symm.exists_declaration hx
    exact hg.toIndexed.mem_declarationsOfKinds.2 ⟨x', hx', by rw [hs]; exact hk⟩
  · obtain ⟨R, X⟩ := pair
    obtain ⟨hR, x, hx, hk, hw, hfirst⟩ := mem_inheritedBy.1 hby
    obtain ⟨x', hx', hs, -⟩ := H.outline.symm.exists_declaration hx
    rw [H.outline.membersWhere fun _ _ _ => rfl] at hR
    simp only [H.outline.witness?, H.superclasses hg hG hbase hnone] at hw hfirst
    refine mem_inheritedBy.2 ⟨hR, x', hx', ?_, ?_, ?_⟩ <;> rw [hs]
    · exact hk
    · exact hw
    · exact hfirst

end Inherited

end Rewires

/-! ## Running the pass again -/

theorem foldl_eq_self {α : Type} {f : Graph → α → Graph} {xs : List α} (hf : ∀ a ∈ xs, f g a = g) :
    xs.foldl f g = g := by
  induction xs with
  | nil => rfl
  | cons a xs ih =>
      rw [List.foldl_cons, hf a List.mem_cons_self]
      exact ih fun b hb => hf b (List.mem_cons_of_mem a hb)

/-- What is left to turn records what is there already. -/
theorem invertOne_eq_self (hg : g.Coherent False) (hf : g.NestsUses)
    (hq : Candidate (invertConformances g) q) :
    invertOne (invertConformances g) q = invertConformances g := by
  have H := rewires_invertConformances hg hf
  by_cases hlt : q.index < g.references.size
  · obtain ⟨y, hy, hrelated, hk⟩ := hq
    have hstays := H.stays hy hlt
    have hcandidate : Candidate g q := ⟨y, by rw [← H.kept q hstays]; exact hy, hrelated, hk⟩
    have ht := H.turned? hg hstays
    cases hpair : turned? g q with
    | none => rw [invertOne_of_none (by rw [ht, hpair])]
    | some pair =>
        obtain ⟨R, X⟩ := pair
        have hrefer : refer (invertConformances g) R X true = invertConformances g :=
          (H.records R X (.inr ⟨q, hcandidate, hpair⟩)).refer H.coherent.toOwned
        -- it is still there, so the first run did not take it
        have hdefault : isDefaultImplementation (invertConformances g) X = true := by
          rw [isDefaultImplementation_congr H.outline]
          by_contra hno
          have htaken : q ∈ taken g := (mem_taken hpair).2 (by simpa using hno)
          refine hstays.2 q ⟨hcandidate, htaken⟩ (Graph.mem_referenceTree.2 (.here (mem_refIds.2 ?_)))
          rw [hasReference, ← H.kept q hstays, hy]
          rfl
        rw [invertOne_eq, ht, hpair]
        simp only [hrefer, hdefault, if_true]
  · exact invertOne_of_none (H.turned?_of_fresh (Nat.le_of_not_lt hlt))

/-- **The pass does nothing again exactly where the members that are now inherited are recorded.** -/
theorem invertConformances_again_iff (hg : g.Coherent False) (hf : g.NestsUses) :
    invertConformances (invertConformances g) = invertConformances g ↔
      ∀ R X, (R, X) ∈ inheritedImplementations (invertConformances g) →
        Records (invertConformances g) R X := by
  have H := rewires_invertConformances hg hf
  constructor
  · intro hagain R X hp
    have again := rewires_invertConformances H.coherent (H.nestsUses hf)
    rw [hagain] at again
    exact again.records R X (.inl hp)
  · intro hrecords
    have hadded : (inheritedImplementations (invertConformances g)).foldl
        (fun g pair => refer g pair.1 pair.2 true) (invertConformances g) = invertConformances g :=
      foldl_eq_self fun pair hp => (hrecords pair.1 pair.2 hp).refer H.coherent.toOwned
    rw [invertConformances, hadded]
    refine foldl_eq_self fun q hq => invertOne_eq_self hg hf ?_
    obtain ⟨y, hy, hcandidate⟩ := mem_refIdsWhere.1 (mem_sortedReferences.1 hq).1
    rw [Bool.and_eq_true] at hcandidate
    exact ⟨y, hy, hcandidate⟩

theorem invertConformances_again (hg : g.Coherent False) (hf : g.NestsUses)
    (hclasses : NoClassRequired g) :
    invertConformances (invertConformances g) = invertConformances g := by
  have H := rewires_invertConformances hg hf
  refine (invertConformances_again_iff hg hf).2 fun R X hp => H.records R X (.inl ?_)
  have hrequired : ∀ R X, ((R, X) ∈ inheritedImplementations g ∨
      ∃ q, Candidate g q ∧ turned? g q = some (R, X)) → Requirement g R := by
    rintro R X (hp | ⟨q, hq, ht⟩)
    · obtain ⟨hR, -, hk⟩ := requirement_of_inherited hg hp
      exact ⟨hR, .inl hk⟩
    · obtain ⟨y, hy, hcarries, hR, -⟩ := turned?_eq_some_iff.1 ht
      obtain ⟨x, hx, husr⟩ := hg.toIndexed.carries_of_declarationWithUsr? hcarries
      exact ⟨hR, .inr ⟨q, hq, y, x, hy, hx, husr⟩⟩
  exact H.inherited_of_inherited hg (fun q hq => hq.1)
    (fun R X x hp hx => (hclasses R (hrequired R X hp)).1 x hx)
    (fun R X r y hp hy hk => (hclasses R (hrequired R X hp)).2 r y hy hk) hp

/-! ## Exactness -/

/-- `InvertsExactly g k`: the graph `k` is what turning conformances around is to make of `g`. -/
structure InvertsExactly (g k : Graph) : Prop where
  /-- The requirement comes to refer to the implementation. -/
  joined : ∀ r R C, Inverts g r R C → ∃ e y x, k.reference? e = some y ∧
    y.owner = some (.declaration R) ∧ y.isRelated = true ∧ k.declaration? C = some x ∧
    y.usr = x.firstUsr
  /-- The reference of the implementation goes, unless it implements the requirement by default. -/
  gone : ∀ r R C, Inverts g r R C →
    (k.hasReference r = false ↔ isDefaultImplementation g C = false)
  /-- Whatever is not nested in a reference that goes is what it was. -/
  kept : ∀ r y, g.reference? r = some y → (∀ q R C, Inverts g q R C →
    isDefaultImplementation g C = false → r ∉ g.referenceTree q) → k.reference? r = some y
  /-- Whatever comes is the reference of a requirement to what satisfies it. -/
  came : ∀ e y, g.hasReference e = false → k.reference? e = some y → ∃ R X x,
    ((∃ r, Inverts g r R X) ∨ (R, X) ∈ inheritedImplementations g) ∧
      g.declaration? X = some x ∧ y = { x.toSymbol.mention true with owner := some (.declaration R) }
  outline : SameOutline g k
  /-- Running the pass again changes nothing at all, just where it finds no inherited member that its
  requirement does not record. -/
  again : invertConformances k = k ↔
    ∀ R X, (R, X) ∈ inheritedImplementations k → Records k R X
  /-- That is so where no requirement is a class, or named as one. -/
  stable : NoClassRequired g → invertConformances k = k
  /-- So it is where references say of what kind the declarations are that they name. -/
  stableOfKinds : g.NamesKinds → invertConformances k = k

/-- **Turning conformances around turns just what is to be turned.** -/
theorem invertsExactly_of_built (hg : g.Built) (hu : g.Unambiguous) (hf : g.NestsUses) :
    InvertsExactly g (invertConformances g) := by
  have hc : g.Coherent False := hg.coherent
  have H := rewires_invertConformances hc hf
  have hgone : ∀ q R C, Inverts g q R C → isDefaultImplementation g C = false →
      q ∈ {q | Candidate g q ∧ q ∈ taken g} := fun q R C hi hd =>
    ⟨hi.candidate, R, C, ((inverts_iff hc hu hf).1 hi).2, hd⟩
  have hkept : ∀ r y, g.reference? r = some y → (∀ q R C, Inverts g q R C →
      isDefaultImplementation g C = false → r ∉ g.referenceTree q) →
      (invertConformances g).reference? r = some y := by
    intro r y hy hout
    rw [H.kept r ⟨index_lt_of_hasReference (hasReference_of_eq hy), ?_⟩, hy]
    rintro q ⟨hcandidate, R, C, ht, hd⟩
    exact hout q R C ((inverts_iff hc hu hf).2 ⟨hcandidate, ht⟩) hd
  refine ⟨fun r R C hi => ?_, fun r R C hi => ?_, hkept, fun e y he hy => ?_, H.outline,
    invertConformances_again_iff hc hf, invertConformances_again hc hf,
    fun hkinds => invertConformances_again hc hf (noClassRequired_of_namesKinds hkinds)⟩
  · obtain ⟨e, y, x, hy, ho, hx, hkey⟩ := H.records R C
      (.inr ⟨r, hi.candidate, ((inverts_iff hc hu hf).1 hi).2⟩)
    exact ⟨e, y, x, hy, ho, congrArg Mention.Key.isRelated hkey, hx, congrArg Mention.Key.usr hkey⟩
  · have hlive := live_of_ownerOf? hi.owner
    constructor
    · intro hno
      by_contra hd
      -- a reference that stays is nested in nothing that goes
      obtain ⟨y, hy⟩ := hasReference_iff.1 hlive
      have hstill : (invertConformances g).reference? r = some y := by
        refine hkept r y hy fun q R' C' hq hd' hmem => ?_
        obtain rfl := eq_of_mem_referenceTree hc.toOwned (fun o => by rw [hi.owner]; simp) hmem
        have hsame := hi.owner.symm.trans hq.owner
        cases hsame
        exact hd hd'
      rw [hasReference, hstill] at hno
      cases hno
    · intro hd
      rw [hasReference, H.gone r (hgone r R C hi hd) r
        (Graph.mem_referenceTree.2 (.here (mem_refIds.2 hlive)))]
      rfl
  · by_cases hlt : e.index < g.references.size
    · rw [H.kept e (H.stays hy hlt)] at hy
      rw [hasReference, hy] at he
      cases he
    · obtain ⟨R, X, x, hp, hx, rfl⟩ := H.fresh e y (Nat.le_of_not_lt hlt) hy
      refine ⟨R, X, x, hp.symm.imp_left ?_, hx, rfl⟩
      rintro ⟨r, hcandidate, ht⟩
      exact ⟨r, (inverts_iff hc hu hf).2 ⟨hcandidate, ht⟩⟩

/-- A requirement with three implementations: an extension makes one by default, a struct makes one
itself, and a class inherits one. -/
def drawings : Document :=
  let draw (usr : String) (line : Nat) (related : List ReferenceNode) : DeclarationNode :=
    { kind := .instanceMethod, usrs := [usr], name := some "draw()", line, related }
  let claim (line : Nat) (references : List ReferenceNode) : ReferenceNode :=
    { kind := .instanceMethod, usr := "Shape.draw", line, references }
  { fragments := [
      { file := { path := ⟨"Shapes.swift"⟩, modules := .singleton "App" }
        declarations := [
          { kind := .protocolType, usrs := ["Shape"], name := some "Shape", line := 1
            declarations := [draw "Shape.draw" 2 []] },
          { kind := .protocolExtension, usrs := ["Shape+"], name := some "Shape", line := 4
            declarations := [draw "Shape+.draw" 5 [claim 5 []]] },
          { kind := .structType, usrs := ["Square"], name := some "Square", line := 7
            declarations := [draw "Square.draw" 8 [
              claim 8 [{ kind := .structType, usr := "Square", line := 8 }]]]
            related := [{ kind := .protocolType, usr := "Shape", line := 7 }] },
          { kind := .classType, usrs := ["Round"], name := some "Round", line := 10
            declarations := [draw "Round.draw" 11 []] },
          { kind := .classType, usrs := ["Circle"], name := some "Circle", line := 13
            related := [{ kind := .classType, usr := "Round", line := 13 },
              { kind := .protocolType, usr := "Shape", line := 13, column := 20 }] }] }] }

/-- The reference of the default implementation stays, that of the struct goes, and nothing is left to
do for a second run. -/
theorem invertsExactly_of_built_drawings :
    let g := (Graph.ofDocument drawings).1
    InvertsExactly g (invertConformances g) ∧
      (Inverts g ⟨0⟩ ⟨1⟩ ⟨3⟩ ∧ isDefaultImplementation g ⟨3⟩ = true) ∧
      (Inverts g ⟨1⟩ ⟨1⟩ ⟨5⟩ ∧ isDefaultImplementation g ⟨5⟩ = false) ∧
      (⟨1⟩, ⟨7⟩) ∈ inheritedImplementations g ∧
      invertConformances (invertConformances g) = invertConformances g := by
  intro g
  have hg : g.Built := Graph.Built.empty.ingest drawings
  have hkinds : ∀ r ∈ g.refIds, ∀ y ∈ g.reference? r, ∀ d ∈ g.declIds, ∀ x ∈ g.declaration? d,
      y.usr ∈ x.usrs.toList → y.kind = x.kind := by decide +kernel
  have hnames : g.NamesKinds := fun r y hy d x hx =>
    hkinds r (mem_refIds.2 (hasReference_of_eq hy)) y hy d (mem_declIds.2 (hasDeclaration_of_eq hx)) x hx
  have hf : g.NestsUses := nestsUses_ofDocument drawings
  obtain ⟨hu, hstruct, hextension, hinherited⟩ : g.Unambiguous ∧
      ((g.reference? ⟨1⟩).any (fun y => y.isRelated && y.kind.isWitness) = true ∧
        turned? g ⟨1⟩ = some (⟨1⟩, ⟨5⟩) ∧ isDefaultImplementation g ⟨5⟩ = false) ∧
      ((g.reference? ⟨0⟩).any (fun y => y.isRelated && y.kind.isWitness) = true ∧
        turned? g ⟨0⟩ = some (⟨1⟩, ⟨3⟩) ∧ isDefaultImplementation g ⟨3⟩ = true) ∧
      (⟨1⟩, ⟨7⟩) ∈ inheritedImplementations g := by
    decide +kernel
  have hinverts : ∀ r R C, (g.reference? r).any (fun y => y.isRelated && y.kind.isWitness) = true →
      turned? g r = some (R, C) → Inverts g r R C := fun r R C hr ht => by
    obtain ⟨y, hy, hk⟩ := (Option.any_eq_true _ _).1 hr
    rw [Bool.and_eq_true] at hk
    exact (inverts_iff hg.coherent hu hf).2 ⟨⟨y, hy, hk⟩, ht⟩
  have hexact := invertsExactly_of_built hg hu hf
  exact ⟨hexact, ⟨hinverts _ _ _ hextension.1 hextension.2.1, hextension.2.2⟩,
    ⟨hinverts _ _ _ hstruct.1 hstruct.2.1, hstruct.2.2⟩, hinherited, hexact.stableOfKinds hnames⟩

/-- A class that belongs to a protocol, and a class with a reference of a method's kind to it. -/
def nestedClass : Document :=
  { fragments := [
      { file := { path := ⟨"a.swift"⟩, modules := .singleton "App" }
        declarations := [
          { kind := .protocolType, usrs := ["Outer"], name := some "Outer", line := 1
            declarations := [
              { kind := .classType, usrs := ["Inner"], name := some "Inner", line := 2
                related := [{ kind := .protocolType, usr := "Runs", line := 2
                              role := .inheritedType }] }] },
          { kind := .protocolType, usrs := ["Runs"], name := some "Runs", line := 4
            declarations := [
              { kind := .instanceMethod, usrs := ["Runs.run"], name := some "run()", line := 5 }] },
          { kind := .classType, usrs := ["Worker"], name := some "Worker", line := 7
            declarations := [
              { kind := .instanceMethod, usrs := ["Worker.run"], name := some "run()", line := 8 }]
            related := [{ kind := .instanceMethod, usr := "Inner", line := 7 }] }] }] }

/-- An associated type that a class satisfies, and another class that names it as its superclass. -/
def associatedSuperclass : Document :=
  { fragments := [
      { file := { path := ⟨"a.swift"⟩, modules := .singleton "App" }
        declarations := [
          { kind := .protocolType, usrs := ["Outer"], name := some "Outer", line := 1
            declarations := [
              { kind := .associatedType, usrs := ["Outer.Inner"], name := some "Inner", line := 2 }] },
          { kind := .protocolType, usrs := ["Runs"], name := some "Runs", line := 4
            declarations := [
              { kind := .instanceMethod, usrs := ["Runs.run"], name := some "run()", line := 5 }] },
          { kind := .classType, usrs := ["Worker"], name := some "Worker", line := 7
            declarations := [
              { kind := .instanceMethod, usrs := ["Worker.run"], name := some "run()", line := 8 }]
            related := [{ kind := .associatedType, usr := "Outer.Inner", line := 7 }] },
          { kind := .classType, usrs := ["Job"], name := some "Job", line := 10
            related := [
              { kind := .protocolType, usr := "Runs", line := 10, role := .inheritedType },
              { kind := .classType, usr := "Outer.Inner", line := 10, column := 12
                role := .inheritedType }] }] }] }

/-- **A requirement that is a class, or is named as one, may come to inherit**: the second run joins
what the first one let it inherit. -/
theorem not_again_of_classRequired :
    ((ofDocument nestedClass).1.Unambiguous ∧ (ofDocument nestedClass).1.NestsUses ∧
      invertConformances (invertConformances (ofDocument nestedClass).1) ≠
        invertConformances (ofDocument nestedClass).1) ∧
    (ofDocument associatedSuperclass).1.Unambiguous ∧ (ofDocument associatedSuperclass).1.NestsUses ∧
      invertConformances (invertConformances (ofDocument associatedSuperclass).1) ≠
        invertConformances (ofDocument associatedSuperclass).1 := by
  decide +kernel

end Protocols

end Deadwood

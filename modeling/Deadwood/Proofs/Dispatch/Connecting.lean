/-
  How requirements come to refer to what implements them.

  1. **Default implementations** — the extensions of protocols are connected one after the other.
     What is added for one of them is a reference to an extension, or to a member that can stand for
     a requirement, and neither changes which protocol another one extends.

  2. **Inherited members** — one edge per pair, added before any reference is turned around.

  3. **Conformances** — a reference of an implementation to its requirement is there until its turn,
     because what goes before is never what the implementation owns directly.  Its turn adds the
     edge, and every later turn spares it.
-/
import Deadwood.Proofs.Dispatch.Wiring
import Mathlib.Data.List.Find

namespace Deadwood.Protocols

open Deadwood.Graph

variable {g h k : Graph} {d e p E R X : DeclId} {q r : RefId} {m : Mention}

/-- A requirement and a declaration that it may be joined with. -/
structure Joinable (g : Graph) (R X : DeclId) : Prop where
  requirement : g.isProtocolMember R = true
  target : ∃ x, g.declaration? X = some x ∧ x.kind.isAccessor = false

theorem Joinable.only (J : Joinable g R X) : ∀ Q ∈ ({R} : Set DeclId), g.isProtocolMember Q = true :=
  fun _ hQ => hQ ▸ J.requirement

theorem Joinable.congr (H : SameOutline g h) (J : Joinable g R X) : Joinable h R X where
  requirement := by rw [H.isProtocolMember]; exact J.requirement
  target := by
    obtain ⟨x, hx, hk⟩ := J.target
    obtain ⟨x', hx', hs, -⟩ := H.exists_declaration hx
    exact ⟨x', hx', by rw [hs]; exact hk⟩

/-! ## One edge -/

theorem linked_refer (J : Joinable g R X) : (refer g R X true).Linked R X := by
  obtain ⟨x, hx, hk⟩ := J.target
  unfold refer
  rw [hx]
  exact linked_addUse (live_of_isProtocolMember J.requirement) hx hk

/-- Of a list of pairs, every one becomes an edge. -/
theorem linked_foldl_refer {pairs : List (DeclId × DeclId)} (J : Joinable g R X)
    (hp : (R, X) ∈ pairs) :
    (pairs.foldl (fun g pair => refer g pair.1 pair.2 true) g).Linked R X := by
  induction pairs generalizing g with
  | nil => cases hp
  | cons pair pairs ih =>
      rw [List.foldl_cons]
      rcases List.mem_cons.1 hp with rfl | hp
      · exact adds_foldl_refer.linked (linked_refer J)
      · exact ih (J.congr sameOutline_refer) hp

/-! ## Which protocol an extension extends -/

section Congr

variable {x y : Declaration} {kind : Kind} (hx : g.declaration? E = some x)
  (hy : h.declaration? E = some y) (hsymbol : y.toSymbol = x.toSymbol)
  (hkind : x.kind.extended = .ok kind)
  (hmem : ∀ q, q ∈ h.referencesAmong y.ownReferences (·.kind == kind) ↔
    q ∈ g.referencesAmong x.ownReferences (·.kind == kind))
  (hmention : ∀ q ∈ g.referencesAmong x.ownReferences (·.kind == kind),
    (h.reference? q).map (·.toMention) = (g.reference? q).map (·.toMention))
include hx hy hsymbol hkind hmem hmention

/-- Which reference names the extended type depends on the references to the extended kind that the
extension owns. -/
theorem extendedTypeReference_congr : h.extendedTypeReference E = g.extendedTypeReference E := by
  have hsorted : h.sortedReferences (h.referencesAmong y.ownReferences (·.kind == kind)) =
      g.sortedReferences (g.referencesAmong x.ownReferences (·.kind == kind)) := by
    refine sortByKey_congr (fun q hq => ?_) hmem
    have hkeys := congrArg (Option.map Mention.key) (hmention q hq)
    rwa [Option.map_map, Option.map_map] at hkeys
  -- the three rules for choosing a reference read what the candidates say
  have hany : ∀ (f : Mention → Bool),
      ∀ q ∈ g.sortedReferences (g.referencesAmong x.ownReferences (·.kind == kind)),
      (h.reference? q).any (fun z => f z.toMention) =
        (g.reference? q).any (fun z => f z.toMention) := by
    intro f q hq
    have hones := congrArg (Option.any f) (hmention q (mem_sortedReferences.1 hq).1)
    rwa [Option.any_map, Option.any_map] at hones
  unfold extendedTypeReference
  simp only [hx, hy, hsymbol, hkind, hsorted, bind, Except.bind, pure, Except.pure, Except.ok.injEq]
  rw [List.find?_congr (hany fun z => z.role == .extendedType),
    List.find?_congr (hany fun z => z.nameText != "" && z.nameText == x.nameText)]

/-- The answer depends on these references and on what is written with the identifiers they name. -/
theorem extendedDeclaration_congr
    (hwritten : ∀ q ∈ g.referencesAmong x.ownReferences (·.kind == kind), ∀ z,
      g.reference? q = some z →
        h.explicitDeclarationWithUsr? z.usr = g.explicitDeclarationWithUsr? z.usr) :
    h.extendedDeclaration E = g.extendedDeclaration E := by
  unfold extendedDeclaration
  rw [extendedTypeReference_congr hx hy hsymbol hkind hmem hmention]
  rcases hchosen : g.extendedTypeReference E with fault | (_ | q)
  · rfl
  · rfl
  · obtain ⟨x', kind', hx', hkind', hq⟩ := mem_of_extendedTypeReference hchosen
    rw [hx] at hx'
    cases hx'
    rw [hkind] at hkind'
    cases hkind'
    obtain ⟨z, hz⟩ := hasReference_iff.1 (mem_sortedReferences.1 hq).2
    have hsame := hmention q (mem_sortedReferences.1 hq).1
    rw [hz] at hsame
    obtain ⟨w, hw, hwz⟩ := Option.map_eq_some_iff.1 hsame
    simp only [bind, Except.bind, hz, hw, hwz, hwritten q (mem_sortedReferences.1 hq).1 z hz]

end Congr

/-- Another reference, of another owner or to another kind, leaves a protocol extension with its
protocol. -/
theorem extendedDeclaration_addUse (hg : g.Consistent) {x : Declaration}
    (hx : g.declaration? E = some x) (hk : x.kind = .protocolExtension)
    (hm : d ≠ E ∨ m.kind ≠ .protocolType) :
    (g.addUse m d).extendedDeclaration E = g.extendedDeclaration E := by
  by_cases hnew : g.equalReference? m.key (some (.declaration d)) = none
  · have hkind : x.kind.extended = .ok .protocolType := by rw [hk]; rfl
    have hmention : ∀ q, g.hasReference q = true →
        ((g.addUse m d).reference? q).map (·.toMention) = (g.reference? q).map (·.toMention) := by
      intro q hq
      have hbare := congrArg (Option.map Prod.fst)
        (bare_addReference (m := m) (o := some (.declaration d)) hq)
      rwa [Option.map_map, Option.map_map] at hbare
    have hheld : ∀ q ∈ x.ownReferences, g.hasReference q = true := by
      intro q hq
      obtain ⟨b, hq⟩ := Declaration.mem_ownReferences.1 hq
      obtain ⟨z, hz, -⟩ := (hg.held_iff E b q).1 (mem_heldBy_iff.2 ⟨x, hx, hq⟩)
      exact hasReference_of_eq hz
    have hany : ∀ q ∈ x.ownReferences, ((g.addUse m d).reference? q).any (·.kind == .protocolType) =
        (g.reference? q).any (·.kind == .protocolType) := by
      intro q hq
      have hones := congrArg (Option.any fun z => z.kind == .protocolType) (hmention q (hheld q hq))
      rwa [Option.any_map, Option.any_map] at hones
    have hy := declaration?_addReference hnew (d := E)
    rw [hx, Option.map_some] at hy
    refine extendedDeclaration_congr hx hy (by split <;> simp) hkind (fun q => ?_)
      (fun q hq => hmention q (hheld q (List.mem_filter.1 hq).1)) fun _ _ _ _ =>
        sameOutline_addUse.explicitDeclarationWithUsr? hg.toIndexed hg.addUse.toIndexed
    simp only [Graph.referencesAmong, List.mem_filter]
    split
    · -- the extension itself owns the new reference, which is to another kind
      rename_i howner
      have hdE : d = E := by
        have hd := (Option.filter_eq_some_iff.1 howner).1
        cases hd
        rfl
      have hother : m.kind ≠ .protocolType := hm.resolve_left fun hne => hne hdE
      have hown : q ∈ (x.addReference m.isRelated g.nextReference).ownReferences ↔
          q = g.nextReference ∨ q ∈ x.ownReferences := by
        cases hb : m.isRelated <;> simp [Declaration.ownReferences, Declaration.addReference] <;> tauto
      rw [hown]
      constructor
      · rintro ⟨rfl | hq, hany'⟩
        · rw [Graph.addUse, reference?_addReference hnew, if_pos rfl] at hany'
          exact absurd (by simpa using hany') hother
        · exact ⟨hq, by rwa [hany q hq] at hany'⟩
      · rintro ⟨hq, hany'⟩
        exact ⟨.inr hq, by rwa [hany q hq]⟩
    · exact and_congr_right fun hq => by rw [hany q hq]
  · rw [addUse_of_equal hnew]

theorem extendedDeclaration_refer (hg : g.Consistent) {x : Declaration} {isRelated : Bool}
    (hx : g.declaration? E = some x) (hk : x.kind = .protocolExtension)
    (he : ∀ y, g.declaration? e = some y → d ≠ E ∨ y.kind ≠ .protocolType) :
    (refer g d e isRelated).extendedDeclaration E = g.extendedDeclaration E := by
  unfold refer
  split
  · rename_i y hy
    exact extendedDeclaration_addUse hg hx hk (he y hy)
  · rfl

theorem extendedDeclaration_foldl_refer (hg : g.Consistent) {x : Declaration}
    {pairs : List (DeclId × DeclId)} (hx : g.declaration? E = some x)
    (hk : x.kind = .protocolExtension) (hpairs : ∀ pair ∈ pairs, ∀ y,
      g.declaration? pair.2 = some y → pair.1 ≠ E ∨ y.kind ≠ .protocolType) :
    (pairs.foldl (fun g pair => refer g pair.1 pair.2 true) g).extendedDeclaration E =
      g.extendedDeclaration E := by
  induction pairs generalizing g x with
  | nil => rfl
  | cons pair pairs ih =>
      have H : SameOutline g (refer g pair.1 pair.2 true) := sameOutline_refer
      obtain ⟨x', hx', hs, -⟩ := H.exists_declaration hx
      rw [List.foldl_cons, ih (consistent_refer hg) hx' (by rw [hs]; exact hk) fun p hp y hy => ?_]
      · exact extendedDeclaration_refer hg hx hk (hpairs pair List.mem_cons_self)
      · obtain ⟨y', hy', hs', -⟩ := H.symm.exists_declaration hy
        rw [← hs']
        exact hpairs p (List.mem_cons_of_mem pair hp) y' hy'

/-! ## Default implementations -/

/-- A member can stand for the requirement that it implements by default. -/
theorem meets_of_mem_defaultImplementations (hpair : (R, X) ∈ defaultImplementations g p e) :
    ∃ x y, g.declaration? R = some x ∧ g.declaration? X = some y ∧ y.kind.meets x.kind = true := by
  obtain ⟨R', -, hpair⟩ := List.mem_filterMap.1 hpair
  obtain ⟨x, hx, hpair⟩ := Option.bind_eq_some_iff.1 hpair
  obtain ⟨X', hX, hpair⟩ := Option.bind_eq_some_iff.1 hpair
  cases hpair
  obtain ⟨_, y, -, -, hy, hmeets⟩ := mem_membersWhere.1 (List.mem_of_head? hX)
  exact ⟨x, y, hx, hy, (Bool.and_eq_true_iff.1 hmeets).2⟩

theorem consistent_connectOne (hg : g.Consistent) : (connectOne g e).graph.Consistent :=
  Evolves.coherent (P := Pass.protocolExtensions.MayDo) evolves_connectOne hg

/-- Connecting one protocol extension leaves another one with its protocol. -/
theorem extendedDeclaration_connectOne (hg : g.Consistent) {x y : Declaration}
    (hx : g.declaration? E = some x) (hk : x.kind = .protocolExtension)
    (hy : g.declaration? e = some y) (hk' : y.kind = .protocolExtension) :
    (connectOne g e).graph.extendedDeclaration E = g.extendedDeclaration E := by
  unfold connectOne Outcome.andThen
  rcases g.extendedDeclaration e with fault | (_ | proto)
  · rfl
  · rfl
  · have H : SameOutline g (refer g proto e false) := sameOutline_refer
    obtain ⟨x', hx', hs, -⟩ := H.exists_declaration hx
    have hkx' : x'.kind = .protocolExtension := by rw [hs]; exact hk
    have hfirst : (refer g proto e false).extendedDeclaration E = g.extendedDeclaration E := by
      refine extendedDeclaration_refer hg hx hk fun z hz => .inr ?_
      rw [hy] at hz
      cases hz
      rw [hk']
      decide
    refine Eq.trans ?_ hfirst
    refine extendedDeclaration_foldl_refer (consistent_refer hg) hx' hkx' fun pair hpair z hz => ?_
    -- a requirement of that kind is only met by a member of that kind
    obtain ⟨w, z', hw, hz', hmeets⟩ := meets_of_mem_defaultImplementations hpair
    rw [hz] at hz'
    cases hz'
    by_cases hE : pair.1 = E
    · rw [hE, hx'] at hw
      cases hw
      rw [hkx'] at hmeets
      right
      intro hkz
      rw [hkz] at hmeets
      exact absurd hmeets (by decide)
    · exact .inl hE

/-- Connecting an extension joins the requirements of its protocol with their defaults. -/
theorem linked_connectOne (J : Joinable g R X) (hE : g.extendedDeclaration E = .ok (some p))
    (hR : R ∈ g.membersWhere p fun _ => true) {x : Declaration} (hx : g.declaration? R = some x)
    (hX : g.witness? E x.nameText x.kind = some X) : (connectOne g E).graph.Linked R X := by
  have H : SameOutline g (refer g p E false) := sameOutline_refer
  have hpair : (R, X) ∈ defaultImplementations (refer g p E false) p E := by
    obtain ⟨x', hx', hs, -⟩ := H.exists_declaration hx
    refine List.mem_filterMap.2 ⟨R, ?_, ?_⟩
    · rw [H.membersWhere fun _ _ _ => rfl]
      exact hR
    · simp only [hx', Option.bind_eq_bind, Option.bind_some, hs, H.witness?, hX]
      rfl
  unfold connectOne Outcome.andThen
  rw [hE]
  exact linked_foldl_refer (J.congr H) hpair

/-- The turn of an extension: declarations are still as at the start, so is its protocol, and what is
added in this turn stays. -/
theorem exists_turn_connectEach (hg : g.Consistent) {ids : List DeclId}
    (hids : ∀ e ∈ ids, ∃ y, g.declaration? e = some y ∧ y.kind = .protocolExtension)
    (hmem : E ∈ ids) (hf : (connectEach g ids).fault = none) :
    ∃ k, SameOutline g k ∧ k.extendedDeclaration E = g.extendedDeclaration E ∧
      Adds (connectOne k E).graph (connectEach g ids).graph := by
  induction ids generalizing g with
  | nil => cases hmem
  | cons e ids ih =>
      rw [connectEach] at hf ⊢
      cases hfault : (connectOne g e).fault with
      | some fault => simp only [hfault] at hf; cases hf
      | none =>
          simp only [hfault] at hf ⊢
          by_cases he : e = E
          · subst he
            exact ⟨g, .refl, rfl, adds_connectEach⟩
          · have H : SameOutline g (connectOne g e).graph := sameOutline_connectOne
            obtain ⟨y, hy, hk'⟩ := hids e List.mem_cons_self
            obtain ⟨z, hz, hk⟩ := hids E hmem
            have hmem' := (List.mem_cons.1 hmem).resolve_left (Ne.symm he)
            obtain ⟨k, Hk, hextended, hadds⟩ := ih (consistent_connectOne hg) (fun a ha => by
              obtain ⟨w, hw, hkw⟩ := hids a (List.mem_cons_of_mem e ha)
              obtain ⟨w', hw', hs', -⟩ := H.exists_declaration hw
              exact ⟨w', hw', by rw [hs']; exact hkw⟩) hmem' hf
            rw [extendedDeclaration_connectOne hg hz hk hy hk'] at hextended
            exact ⟨k, H.trans Hk, hextended, hadds⟩

/-- **Every extension of a protocol has its turn.** -/
theorem exists_turn_connectExtensions (hg : g.Consistent) (hE : E ∈ g.protocolExtensions p)
    (hf : (connectExtensions g).fault = none) :
    ∃ k, SameOutline g k ∧ k.extendedDeclaration E = .ok (some p) ∧
      Adds (connectOne k E).graph (connectExtensions g).graph := by
  obtain ⟨hmem, hext⟩ := List.mem_filter.1 (mem_sortedDeclarations.1 hE).1
  have hextended : g.extendedDeclaration E = .ok (some p) := by
    unfold isExtensionOf at hext
    split at hext
    · rename_i t ht
      rw [ht, eq_of_beq hext]
    · cases hext
  rw [← hextended]
  refine exists_turn_connectEach hg (fun e he => ?_) hmem hf
  obtain ⟨y, hy, hk⟩ := hg.mem_declarationsOfKinds.1 he
  exact ⟨y, hy, List.mem_singleton.1 hk⟩

/-- So every default implementation is joined with its requirement. -/
theorem linked_connectExtensions (hg : g.Consistent) (J : Joinable g R X)
    (hE : E ∈ g.protocolExtensions p) (hR : R ∈ g.membersWhere p fun _ => true)
    {x : Declaration} (hx : g.declaration? R = some x)
    (hX : g.witness? E x.nameText x.kind = some X) (hf : (connectExtensions g).fault = none) :
    (connectExtensions g).graph.Linked R X := by
  obtain ⟨k, H, hextended, hadds⟩ := exists_turn_connectExtensions hg hE hf
  obtain ⟨x', hx', hs, -⟩ := H.exists_declaration hx
  refine hadds.linked (linked_connectOne (J.congr H) hextended ?_ hx' ?_)
  · rw [H.membersWhere fun _ _ _ => rfl]
    exact hR
  · rw [hs, H.witness?]
    exact hX

/-! ## Conformances -/

/-- `Claims g r R X`: the implementation `X` owns the reference `r` to its requirement `R`. -/
structure Claims (g : Graph) (r : RefId) (R X : DeclId) : Prop where
  owner : g.ownerOf? r = some (.declaration X)
  names : g.Names r R
  conformer : g.isProtocolMember X = false

theorem Claims.congr (H : SameOutline g h)
    (hb : (h.reference? r).map Reference.bare = (g.reference? r).map Reference.bare)
    (C : Claims g r R X) : Claims h r R X := by
  obtain ⟨ho, ⟨y, x, hy, hx, husr⟩, hX⟩ := C
  obtain ⟨x', hx', hs, -⟩ := H.exists_declaration hx
  obtain ⟨y', hy', hmention, howner⟩ := exists_reference_of_bare hb hy
  refine ⟨?_, ⟨y', x', hy', hx', by rw [hmention, hs]; exact husr⟩, ?_⟩
  · rw [ownerOf?, hy] at ho
    rw [ownerOf?, hy', Option.bind_some, howner]
    exact ho
  · rw [H.isProtocolMember]
    exact hX

/-- Such a reference is turned around. -/
theorem Claims.turned? (hg : g.Consistent) (hu : g.Unambiguous) (J : Joinable g R X)
    (C : Claims g r R X) : turned? g r = some (R, X) := by
  obtain ⟨y, x, hy, hx, husr⟩ := C.names
  obtain ⟨z, hz, -⟩ := J.target
  refine turned?_eq_some_iff.2 ⟨y, hy, declarationWithUsr?_eq_some hg.toIndexed hu hx husr,
    J.requirement, ?_, ?_, C.conformer, hasDeclaration_of_eq hz⟩
  · have ho : (g.reference? r).bind (·.owner) = some (.declaration X) := C.owner
    rw [referencingDeclaration?, ownerWithin, ho]
  · rintro rfl
    have hR := J.requirement
    rw [C.conformer] at hR
    cases hR

/-- The turn of another reference leaves it alone. -/
theorem Claims.invertOne (hg : g.Consistent) (C : Claims g r R X) (hne : r ≠ q) :
    Claims (invertOne g q) r R X := by
  have hlive : g.hasReference r = true := live_of_ownerOf? C.owner
  cases ht : Protocols.turned? g q with
  | none => rw [invertOne_of_none ht]; exact C
  | some pair =>
      obtain ⟨Q, c⟩ := pair
      obtain ⟨_, -, -, -, -, -, -, hc⟩ := turned?_eq_some_iff.1 ht
      obtain ⟨z, hz⟩ := hasDeclaration_iff.1 hc
      have C' : Claims (g.addUse (z.toSymbol.mention true) Q) r R X :=
        C.congr sameOutline_addUse (bare_addReference hlive)
      have hadded : (g.addUse (z.toSymbol.mention true) Q).Consistent := hg.addUse
      have P := pruned_foldl_removeReference hadded.toOwned (dropped g q c)
      rw [invertOne_of_some ht hz]
      refine C'.congr P.sameOutline (P.bare fun hgone => ?_)
      obtain ⟨q', hq', hmem⟩ := List.mem_flatMap.1 hgone
      obtain rfl := mem_dropped hq'
      exact not_mem_referenceTree hadded.toOwned C'.owner hne hmem

/-- The turn of the reference itself adds the edge. -/
theorem Claims.linked (hg : g.Consistent) (hu : g.Unambiguous) (J : Joinable g R X)
    (C : Claims g r R X) : (Protocols.invertOne g r).Linked R X := by
  have ht := C.turned? hg hu J
  obtain ⟨z, hz, hk⟩ := J.target
  rw [invertOne_of_some ht hz]
  exact (spares_dropped hg J.only ht).keeps
    (linked_addUse (live_of_isProtocolMember J.requirement) hz hk)

theorem linked_foldl_invertOne (hg : g.Consistent) (hu : g.Unambiguous) (J : Joinable g R X)
    (C : Claims g r R X) {ids : List RefId} (hr : r ∈ ids) :
    (ids.foldl invertOne g).Linked R X := by
  induction ids generalizing g with
  | nil => cases hr
  | cons q ids ih =>
      have H := (Remains.refl hg hu).invertOne (r := q)
      have J' := J.congr (spares_invertOne hg J.only (r := q)).outline
      rw [List.foldl_cons]
      by_cases hq : r = q
      · subst hq
        exact (spares_foldl_invertOne H.consistent H.unambiguous J'.only).keeps (C.linked hg hu J)
      · exact ih H.consistent H.unambiguous J' (C.invertOne hg hq)
          ((List.mem_cons.1 hr).resolve_left hq)

/-- **Every inherited member is joined with the requirement it satisfies.** -/
theorem linked_of_inherited (hg : g.Consistent) (hu : g.Unambiguous) (J : Joinable g R X)
    (hpair : (R, X) ∈ inheritedImplementations g) : (invertConformances g).Linked R X := by
  unfold invertConformances
  exact (spares_foldl_invertOne (consistent_foldl_refer hg) (unambiguous_foldl_refer hu)
    (J.congr sameOutline_foldl_refer).only).keeps (linked_foldl_refer J hpair)

/-- **Every implementation is joined with the requirement it refers to.** -/
theorem linked_of_claims (hg : g.Consistent) (hu : g.Unambiguous) (J : Joinable g R X)
    (C : Claims g r R X) {y : Reference} (hy : g.reference? r = some y)
    (hrelated : y.isRelated = true) (hkind : y.kind.isWitness = true) :
    (invertConformances g).Linked R X := by
  have H : Adds g ((inheritedImplementations g).foldl
      (fun g pair => refer g pair.1 pair.2 true) g) := adds_foldl_refer
  refine linked_foldl_invertOne (consistent_foldl_refer hg) (unambiguous_foldl_refer hu)
    (J.congr H.outline) (C.congr H.outline (H.bare r (hasReference_of_eq hy))) ?_
  -- it is among the candidates: new edges do not change what it says
  obtain ⟨z, hz, hmention, -⟩ := H.exists_reference hy
  refine mem_sortedReferences.2 ⟨mem_refIdsWhere.2 ⟨z, hz, ?_⟩, hasReference_of_eq hz⟩
  rw [hmention, hrelated, hkind]
  rfl

end Deadwood.Protocols

/-
  A used protocol keeps its extensions alive.

  1. **Uses (`Uses`)** — a protocol is made to refer to each of its extensions, by the first identifier
     of the extension.  This is no edge: it is not structural.

  2. **The course (`Uses.runPasses`)** — so the passes that remove structural references leave it
     alone.  The one for properties removes references to setters, and it is none where no setter has
     the identifier.

  3. **The search (`isUsed_of_extends`)** — a used protocol uses its extensions.
-/
import Deadwood.Proofs.Dispatch.Connecting
import Deadwood.Proofs.Extensions.Turn

namespace Deadwood

open Deadwood.Graph

variable {g h : Graph} {d e p E : DeclId} {r : RefId} {usr : String} {s : Settings} {pass : Pass}
  {x : Declaration}

/-! ## Uses -/

/-- `Uses g r p usr`: the declaration `p` makes the reference `r`, which names `usr` and is not
structural. -/
def Graph.Uses (g : Graph) (r : RefId) (p : DeclId) (usr : String) : Prop :=
  ∃ y, g.reference? r = some y ∧ y.owner = some (.declaration p) ∧ y.isRelated = false ∧ y.usr = usr

namespace Graph.Uses

theorem live (U : g.Uses r p usr) : g.hasReference r = true := by
  obtain ⟨y, hy, -⟩ := U
  exact hasReference_of_eq hy

theorem ownerOf? (U : g.Uses r p usr) : g.ownerOf? r = some (.declaration p) := by
  obtain ⟨y, hy, ho, -⟩ := U
  exact ownerOf?_eq_some_iff.2 ⟨y, hy, ho⟩

theorem congr (hb : (h.reference? r).map Reference.bare = (g.reference? r).map Reference.bare)
    (U : g.Uses r p usr) : h.Uses r p usr := by
  obtain ⟨y, hy, ho, hrelated, rfl⟩ := U
  obtain ⟨z, hz, hmention, howner⟩ := exists_reference_of_bare hb hy
  exact ⟨z, hz, howner.trans ho, by rw [hmention]; exact hrelated, by rw [hmention]⟩

theorem adds (H : Adds g h) (U : g.Uses r p usr) : h.Uses r p usr := U.congr (H.bare r U.live)

/-- Other references may go, and what is nested in them. -/
theorem foldl_removeReference (hg : g.Owned) (U : g.Uses r p usr) {ids : List RefId}
    (hids : r ∉ ids) : (ids.foldl Graph.removeReference g).Uses r p usr := by
  refine U.congr ((pruned_foldl_removeReference hg ids).bare fun hgone => ?_)
  obtain ⟨q, hq, hmem⟩ := List.mem_flatMap.1 hgone
  exact not_mem_referenceTree hg U.ownerOf? (fun he => hids (he ▸ hq)) hmem

end Graph.Uses

namespace Protocols

/-- A protocol is made to use a declaration, whether the reference is new or was there. -/
theorem exists_uses_refer (hp : g.hasDeclaration p = true) (hx : g.declaration? e = some x) :
    ∃ r, (refer g p e false).Uses r p x.firstUsr := by
  have hrefer : refer g p e false = g.addUse (x.toSymbol.mention false) p := by simp only [refer, hx]
  rw [hrefer]
  cases hnew : g.equalReference? (x.toSymbol.mention false).key (some (.declaration p)) with
  | none =>
      exact ⟨g.nextReference, { x.toSymbol.mention false with owner := some (.declaration p) },
        by rw [reference?_addUse hp hnew, if_pos rfl], rfl, rfl, rfl⟩
  | some q =>
      rw [addUse_of_equal (by rw [hnew]; exact Option.some_ne_none q)]
      obtain ⟨y, hy, ho, hkey⟩ := reference?_of_equalReference? hnew
      exact ⟨q, y, hy, ho, congrArg Mention.Key.isRelated hkey, congrArg Mention.Key.usr hkey⟩

/-- **Every protocol uses its extensions once they are connected.** -/
theorem exists_uses_connectExtensions (hg : g.Consistent) (hE : E ∈ g.protocolExtensions p)
    (hx : g.declaration? E = some x) (hf : (connectExtensions g).fault = none) :
    ∃ r, (connectExtensions g).graph.Uses r p x.firstUsr := by
  obtain ⟨k, H, hextended, hadds⟩ := exists_turn_connectExtensions hg hE hf
  obtain ⟨y, hy, hs, -⟩ := H.exists_declaration hx
  obtain ⟨r, U⟩ := exists_uses_refer (live_of_extendedDeclaration hextended) hy
  have hturn : (connectOne k E).graph.Uses r p y.firstUsr := by
    unfold connectOne Outcome.andThen
    rw [hextended]
    exact U.adds adds_foldl_refer
  rw [← hs]
  exact ⟨r, hturn.adds hadds⟩

/-! ## The course -/

/-- Turning around a structural reference leaves a use alone. -/
theorem uses_invertOne (hg : g.Consistent) (U : g.Uses r p usr) {q : RefId} (hne : r ≠ q) :
    (invertOne g q).Uses r p usr := by
  cases ht : turned? g q with
  | none => rw [invertOne_of_none ht]; exact U
  | some pair =>
      obtain ⟨R, c⟩ := pair
      obtain ⟨z, hz⟩ := hasDeclaration_iff.1 (conformer_live ht)
      have hadded : (g.addUse (z.toSymbol.mention true) R).Consistent := hg.addUse
      rw [invertOne_of_some ht hz]
      refine (U.adds .addReference).foldl_removeReference hadded.toOwned fun hmem => ?_
      exact hne (mem_dropped hmem)

theorem uses_foldl_invertOne (hg : g.Consistent) (U : g.Uses r p usr) {ids : List RefId}
    (hids : r ∉ ids) : (ids.foldl invertOne g).Uses r p usr := by
  induction ids generalizing g with
  | nil => exact U
  | cons q ids ih =>
      rw [List.mem_cons, not_or] at hids
      have hone : Evolves Pass.conformances.MayDo g (invertOne g q) := evolves_invertOne rfl
      exact ih (hone.coherent hg) (uses_invertOne hg U hids.1) hids.2

theorem uses_invertConformances (hg : g.Consistent) (U : g.Uses r p usr) :
    (invertConformances g).Uses r p usr := by
  unfold invertConformances
  obtain ⟨k, hk, U', hc⟩ : ∃ k, (inheritedImplementations g).foldl
      (fun g pair => refer g pair.1 pair.2 true) g = k ∧ k.Uses r p usr ∧ k.Consistent :=
    ⟨_, rfl, U.adds adds_foldl_refer, consistent_foldl_refer hg⟩
  dsimp only
  rw [hk]
  -- what is turned around is structural
  have hnot : r ∉ k.sortedReferences (k.refIdsWhere fun q => q.isRelated && q.kind.isWitness) := by
    intro hmem
    obtain ⟨y, hy, hok⟩ := mem_refIdsWhere.1 (mem_sortedReferences.1 hmem).1
    obtain ⟨z, hz, -, hrelated, -⟩ := U'
    rw [hy] at hz
    cases hz
    rw [hrelated] at hok
    cases hok
  exact uses_foldl_invertOne hc U' hnot

end Protocols

/-- No setter has the identifier `usr`. -/
def Graph.NoSetterHas (g : Graph) (usr : String) : Prop :=
  ∀ d x, g.declaration? d = some x → x.kind = .setter → usr ∉ x.usrs.toList

/-- So it is where no setter comes in, or gets another identifier. -/
theorem Graph.NoSetterHas.of_signature (hno : g.NoSetterHas usr)
    (H : ∀ d y, h.declaration? d = some y →
      ∃ x, g.declaration? d = some x ∧ x.signature = y.signature) : h.NoSetterHas usr := by
  intro d y hy hk
  obtain ⟨x, hx, hs⟩ := H d y hy
  have husrs : x.usrs = y.usrs := (congrArg Symbol.usrs hs :)
  rw [← husrs]
  exact hno d x hx ((congrArg Symbol.kind hs).trans hk)

namespace AssignOnly

theorem uses_eliminateOne (hg : g.Consistent) (U : g.Uses r p usr) (hno : g.NoSetterHas usr) :
    (eliminateOne g d).Uses r p usr := by
  unfold eliminateOne
  split
  · have hwrites : r ∉ writes g d := by
      intro hmem
      obtain ⟨a, x, hx, hk, y, x', hy, hx', hu⟩ := mem_writes hg.toOwned hmem
      obtain ⟨z, hz, -, -, rfl⟩ := U
      rw [hx] at hx'
      cases hx'
      rw [hy] at hz
      cases hz
      exact hno a x hx hk hu
    have hkept := U.foldl_removeReference hg.toOwned hwrites
    exact hkept.adds (Adds.markAll (by decide : Mark.assignOnly ≠ .used) [d])
  · exact U

/-- Removing writes leaves a use alone where no setter has the identifier. -/
theorem uses_eliminate (hg : g.Consistent) (U : g.Uses r p usr) (hno : g.NoSetterHas usr) :
    (eliminate s g).Uses r p usr := by
  unfold eliminate
  split
  · exact U
  · generalize g.declarationsWhere _ = ids
    induction ids generalizing g with
    | nil => exact U
    | cons d ids ih =>
        have H : Evolves Pass.assignOnlyProperties.MayDo g (eliminateOne g d) := evolves_eliminateOne
        refine ih (H.coherent hg) (uses_eliminateOne hg U hno) (hno.of_signature fun a y hy => ?_)
        obtain ⟨x, hx, hs⟩ := (H.outlives hg).declaration a y hy
        exact ⟨x, hx, hs.symm⟩

end AssignOnly

/-- A pass between the one for protocol extensions and the search. -/
theorem Graph.Uses.run (hg : g.Consistent) (U : g.Uses r p usr)
    (hpass : pass.isSparing = true ∨ pass = .conformances) (hno : g.NoSetterHas usr) :
    (pass.run s g).graph.Uses r p usr := by
  rw [Pass.isSparing, Bool.or_eq_true] at hpass
  rcases hpass with (hadding | hassign) | rfl
  · exact U.adds (Pass.evolves_run.adds _ hadding)
  · obtain rfl := of_decide_eq_true hassign
    exact AssignOnly.uses_eliminate hg U hno
  · simp only [Pass.run, Outcome.done]
    exact Protocols.uses_invertConformances hg U

/-- The passes between them. -/
theorem Graph.Uses.runPasses (hg : g.Consistent) (U : g.Uses r p usr) {xs : List Pass}
    (hxs : ∀ pass ∈ xs, (pass.isSparing = true ∨ pass = .conformances) ∧ pass ≠ .foldExtensions)
    (hno : g.NoSetterHas usr) : (runPasses s g xs).graph.Uses r p usr := by
  refine (runPasses_keeps (P := fun k => k.Consistent ∧ k.Uses r p usr ∧ k.NoSetterHas usr)
    (fun k pass hpass H => ?_) ⟨hg, U, hno⟩).2.1
  obtain ⟨hc, Uk, hnok⟩ := H
  refine ⟨Pass.coherent_run hc, Uk.run hc (hxs pass hpass).1 hnok, hnok.of_signature fun d y hy => ?_⟩
  exact (Pass.evolves_run.sameTree hc (hxs pass hpass).2).symm.exists_declaration hy

/-! ## The search -/

/-- What a used declaration uses is used: only structural references go before the search. -/
theorem Reachability.isUsed_of_uses (hg : g.Consistent) (hnone : g.marks.used = ∅)
    (U : g.Uses r p usr) (hx : g.declaration? e = some x) (husr : usr ∈ x.usrs.toList)
    (hp : (markUsed g).isUsed p = true) : (markUsed g).isUsed e = true := by
  have hc := coherent_removeErroneous hg
  have hstays : (removeErroneous g).Uses r p usr := by
    refine U.foldl_removeReference hg.toOwned fun hmem => ?_
    obtain ⟨y, _, hy, -, hrelated, -⟩ := (mem_erroneous hg).1 hmem
    obtain ⟨z, hz, -, hnot, -⟩ := U
    rw [hy] at hz
    cases hz
    rw [hrelated] at hnot
    cases hnot
  obtain ⟨y, hy, ho, hrelated, rfl⟩ := hstays
  obtain ⟨x', hx', hs, -⟩ := (pruned_removeErroneous hg.toOwned).sameOutline.exists_declaration hx
  have hheld : r ∈ (removeErroneous g).heldBy p false :=
    (hc.held_iff p false r).2 ⟨y, hy, ho, hrelated⟩
  have hreached := (isUsed_markUsed_of_unmarked hg hnone).1 hp
  exact (isUsed_markUsed hg).2 (.inr ((closedUnderUse_reachable hc).uses p hreached r
    (hc.toOwned.mem_referencesFrom_of_held hheld) e ⟨y, x', hy, hx', by rw [hs]; exact husr⟩))

/-- When the search starts, every protocol uses its extensions whose identifier no setter has. -/
theorem exists_uses_whenStarts_reachability (hg : g.Consistent) (hnone : (analyse s g).failure = none)
    (hE : E ∈ (whenStarts s g .protocolExtensions).protocolExtensions p)
    (hx : (whenStarts s g .reachability).declaration? E = some x)
    (hno : (whenStarts s g .reachability).NoSetterHas x.firstUsr) :
    ∃ r, (whenStarts s g .reachability).Uses r p x.firstUsr := by
  have hall : Pass.all = Pass.preparing ++ .protocolExtensions ::
    (.conformances :: .overrides :: Pass.completing ++ .reachability :: Pass.judging) := rfl
  have hk : (whenStarts s g .protocolExtensions).Consistent := coherent_runPasses hg
  obtain ⟨-, hfault, -, -⟩ := analyse_cut hall rfl (by decide) hnone
  obtain ⟨-, hstart⟩ := whenStarts_after hall rfl rfl (by decide) (by decide) hnone
  rw [hstart] at hx hno ⊢
  generalize whenStarts s g .protocolExtensions = k at hE hk hfault hx hno ⊢
  have hrun : (Pass.protocolExtensions.run s k) = Protocols.connectExtensions k := rfl
  rw [hrun] at hfault hx hno ⊢
  have hc : (Protocols.connectExtensions k).graph.Consistent :=
    Protocols.evolves_connectEach.coherent (P := Pass.protocolExtensions.MayDo) hk
  have hcase : ∀ q ∈ enabled s (.conformances :: .overrides :: Pass.completing),
      (q.isSparing = true ∨ q = .conformances) ∧ q ≠ .foldExtensions := by
    intro q hq
    have hbetween : ∀ q ∈ Pass.conformances :: .overrides :: Pass.completing,
        (q.isSparing = true ∨ q = .conformances) ∧ q ≠ .foldExtensions := by decide
    exact hbetween q (List.mem_filter.1 hq).1
  have hsame : SameTree (Protocols.connectExtensions k).graph (runPasses s
      (Protocols.connectExtensions k).graph
      (enabled s (.conformances :: .overrides :: Pass.completing))).graph :=
    sameTree_runPasses hc fun hmem => (hcase _ hmem).2 rfl
  obtain ⟨y, hy, hs⟩ := ((SameTree.of_sameOutline Protocols.adds_connectEach.outline).trans
    hsame).symm.exists_declaration hx
  have hfirst : y.firstUsr = x.firstUsr := (congrArg Symbol.firstUsr hs :)
  obtain ⟨r, U⟩ := Protocols.exists_uses_connectExtensions hk hE hy hfault
  rw [hfirst] at U
  exact ⟨r, U.runPasses hc hcase (hno.of_signature fun _ _ hz => hsame.exists_declaration hz)⟩

/-- **A used protocol uses its extensions**, unless a setter has the identifier of the extension. -/
theorem isUsed_of_extends (hg : g.Consistent) (hmarks : g.marks.used = ∅)
    (hnone : (analyse s g).failure = none)
    (hE : E ∈ (whenStarts s g .protocolExtensions).protocolExtensions p)
    (hx : (analyse s g).graph.declaration? E = some x)
    (hno : (analyse s g).graph.NoSetterHas x.firstUsr)
    (hp : (analyse s g).graph.isUsed p = true) : (analyse s g).graph.isUsed E = true := by
  have hk : (whenStarts s g .reachability).Consistent := coherent_runPasses hg
  have hsame : SameTree (whenStarts s g .reachability) (analyse s g).graph :=
    .of_sameOutline ((Reachability.sameOutline_markUsed hk).trans (adds_analyse hnone).outline)
  obtain ⟨y, hy, hs⟩ := hsame.symm.exists_declaration hx
  have hfirst : y.firstUsr = x.firstUsr := (congrArg Symbol.firstUsr hs :)
  rw [← hfirst] at hno
  obtain ⟨r, U⟩ := exists_uses_whenStarts_reachability hg hnone hE hy
    (hno.of_signature fun _ _ hz => hsame.exists_declaration hz)
  rw [isUsed_analyse hnone] at hp ⊢
  exact Reachability.isUsed_of_uses hk (used_whenStarts_reachability hg hmarks hnone) U hy
    (Symbol.firstUsr_mem (hk.identified E y hy)) hp

end Deadwood

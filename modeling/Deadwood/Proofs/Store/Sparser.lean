/-
  Graphs with the same outline and fewer references.

  1. **`Sparser g h`** — the declarations of `g` and `h` are nested alike, and every reference of `g` is
     in `h`, with the same mention and the same owner.

  2. **Down** — what is made, named or nested in `g` is so in `h`.

  3. **Up (`Sparser.nests_of_live`)** — the owner of a reference of `g` is in `g`.  So what is nested in
     `h` is nested in `g` as soon as the inner reference is there.

  4. **Removal (`Sparser.foldl_removeReference`)** — as long as `g` loses, of its references, whatever
     `h` loses, it stays sparser; references that go take with them what is nested in them.
-/
import Deadwood.Proofs.Store.Outline

namespace Deadwood

/-- A reference without what is nested in it. -/
def Reference.bare (x : Reference) : Mention × Option Owner := (x.toMention, x.owner)

namespace Graph

variable {g h k : Graph} {d : DeclId} {q r : RefId} {m : Mention}

/-- `g` has the outline of `h`, and no references that `h` has not. -/
structure Sparser (g h : Graph) : Prop where
  outline : SameOutline g h
  bare : ∀ r, g.hasReference r = true →
    (h.reference? r).map Reference.bare = (g.reference? r).map Reference.bare

/-- A reference that stays, apart from what is nested in it, says the same and is made by the same. -/
theorem exists_reference_of_bare
    (hb : (h.reference? r).map Reference.bare = (g.reference? r).map Reference.bare) {x : Reference}
    (hx : g.reference? r = some x) :
    ∃ y, h.reference? r = some y ∧ y.toMention = x.toMention ∧ y.owner = x.owner := by
  rw [hx] at hb
  obtain ⟨y, hy, he⟩ := Option.map_eq_some_iff.1 hb
  exact ⟨y, hy, congrArg Prod.fst he, congrArg Prod.snd he⟩

/-- What was there stays as it was when a reference is added, apart from what is nested in it. -/
theorem bare_addReference {o : Option Owner} (hr : g.hasReference r = true) :
    ((g.addReference m o).1.reference? r).map Reference.bare =
      (g.reference? r).map Reference.bare := by
  cases hnew : g.equalReference? m.key o with
  | some q => rw [addReference_eq_of_some hnew]
  | none =>
      have hold : r ≠ g.nextReference := fun he => by simp [he, hasReference] at hr
      rw [reference?_addReference hnew, if_neg hold, Option.map_map]
      refine congrArg (Option.map · _) (funext fun x => ?_)
      rw [Function.comp_apply]
      split <;> rfl

theorem Trimmed.bare {gone : List RefId} (P : Trimmed gone g h) (hr : r ∉ gone) :
    (h.reference? r).map Reference.bare = (g.reference? r).map Reference.bare := by
  rw [P.reference, if_neg hr, Option.map_map]
  rfl

theorem Trimmed.mention {gone : List RefId} (P : Trimmed gone g h) (hr : r ∉ gone) :
    (h.reference? r).map (·.toMention) = (g.reference? r).map (·.toMention) := by
  rw [P.reference, if_neg hr, Option.map_map]
  rfl

theorem Pruned.sparser {gone : List RefId} (P : Pruned gone g h) : Sparser h g where
  outline := P.sameOutline.symm
  bare _ hr := (P.bare (P.hasReference_iff.1 hr).2).symm

namespace Sparser

theorem refl : Sparser g g := ⟨.refl, fun _ _ => rfl⟩

/-- Marks and results do not count. -/
theorem of_entries (hd : g.declarations = h.declarations) (hr : g.references = h.references) :
    Sparser g h where
  outline := .of_declaration fun d => by unfold declaration?; rw [hd]
  bare r _ := by unfold reference?; rw [hr]

/-- A reference of `g` says the same in `h`. -/
theorem exists_reference (H : Sparser g h) {x : Reference} (hx : g.reference? r = some x) :
    ∃ y, h.reference? r = some y ∧ y.toMention = x.toMention ∧ y.owner = x.owner :=
  exists_reference_of_bare (H.bare r (hasReference_of_eq hx)) hx

theorem hasReference (H : Sparser g h) (hr : g.hasReference r = true) : h.hasReference r = true := by
  obtain ⟨x, hx⟩ := hasReference_iff.1 hr
  obtain ⟨y, hy, -⟩ := H.exists_reference hx
  exact hasReference_of_eq hy

theorem trans (H : Sparser g h) (H' : Sparser h k) : Sparser g k where
  outline := H.outline.trans H'.outline
  bare r hr := (H'.bare r (H.hasReference hr)).trans (H.bare r hr)

theorem ownerOf? (H : Sparser g h) (hr : g.hasReference r = true) : h.ownerOf? r = g.ownerOf? r := by
  obtain ⟨x, hx⟩ := hasReference_iff.1 hr
  obtain ⟨y, hy, -, ho⟩ := H.exists_reference hx
  rw [Graph.ownerOf?, Graph.ownerOf?, hx, hy, Option.bind_some, Option.bind_some, ho]

/-- Marks do not matter. -/
theorem markAll (H : Sparser g h) {mark : Mark} (ids ids' : List DeclId) :
    Sparser (g.markAll mark ids) (h.markAll mark ids') where
  outline := (sameOutline_markAll.symm.trans H.outline).trans sameOutline_markAll
  bare r hr := by
    rw [Graph.hasReference, reference?_markAll] at hr
    rw [reference?_markAll, reference?_markAll]
    exact H.bare r hr

/-! ## Names -/

theorem names (H : Sparser g h) (hn : g.Names r d) : h.Names r d := by
  obtain ⟨x, z, hx, hz, husr⟩ := hn
  obtain ⟨y, hy, hmention, -⟩ := H.exists_reference hx
  obtain ⟨z', hz', hs, -⟩ := H.outline.exists_declaration hz
  exact ⟨y, z', hy, hz', by rw [hmention, hs]; exact husr⟩

theorem names_of_live (H : Sparser g h) (hr : g.hasReference r = true) (hn : h.Names r d) :
    g.Names r d := by
  obtain ⟨x, hx⟩ := hasReference_iff.1 hr
  obtain ⟨y, hy, hmention, -⟩ := H.exists_reference hx
  obtain ⟨y', z, hy', hz, husr⟩ := hn
  rw [hy] at hy'
  cases hy'
  obtain ⟨z', hz', hs, -⟩ := H.outline.symm.exists_declaration hz
  exact ⟨x, z', hx, hz', by rw [← hmention, hs]; exact husr⟩

variable (hg : g.Owned) (hh : h.Owned)

include hg hh

theorem isReferenced (H : Sparser g h) (hd : g.isReferenced d = true) : h.isReferenced d = true := by
  obtain ⟨r, hr⟩ := hg.isReferenced_iff.1 hd
  exact hh.isReferenced_iff.2 ⟨r, H.names hr⟩

theorem mem_referencesTo (H : Sparser g h) (hr : r ∈ g.referencesTo d) : r ∈ h.referencesTo d :=
  hh.mem_referencesTo.2 (H.names (hg.mem_referencesTo.1 hr))

/-! ## Trees of references -/

theorem mem_heldBy (H : Sparser g h) {b : Bool} (hr : r ∈ g.heldBy d b) : r ∈ h.heldBy d b := by
  obtain ⟨x, hx, ho, hb⟩ := (hg.held_iff d b r).1 hr
  obtain ⟨y, hy, hmention, ho'⟩ := H.exists_reference hx
  exact (hh.held_iff d b r).2 ⟨y, hy, ho'.trans ho, by rw [hmention]; exact hb⟩

theorem nests (H : Sparser g h) (hn : g.Nests q r) : h.Nests q r := by
  induction hn with
  | here hq => exact .here (mem_refIds.2 (H.hasReference (mem_refIds.1 hq)))
  | step _ hz hlive ih =>
      have hlive := mem_refIds.1 hlive
      have howner := (hg.nested_iff _ _).1 hz
      rw [← H.ownerOf? hlive] at howner
      exact .step ih ((hh.nested_iff _ _).2 howner) (mem_refIds.2 (H.hasReference hlive))

/-- What is nested in `h` is nested in `g`, as soon as it is there. -/
theorem nests_of_live (H : Sparser g h) (hn : h.Nests q r) (hr : g.hasReference r = true) :
    g.Nests q r := by
  -- from the inner reference outwards: what owns a reference of `g` is in `g`
  induction hn with
  | here _ => exact .here (mem_refIds.2 hr)
  | step _ hz _ ih =>
      have howner := (hh.nested_iff _ _).1 hz
      rw [H.ownerOf? hr] at howner
      exact .step (ih (hg.owner_live howner)) ((hg.nested_iff _ _).2 howner) (mem_refIds.2 hr)

theorem mem_referencesFrom (H : Sparser g h) (hr : r ∈ g.referencesFrom d) :
    r ∈ h.referencesFrom d := by
  obtain ⟨b, q, hq, hn⟩ := mem_referencesFrom_iff.1 hr
  exact mem_referencesFrom_iff.2 ⟨b, q, H.mem_heldBy hg hh hq, H.nests hg hh hn⟩

/-- What a declaration makes in `h` it makes in `g`, as soon as it is there. -/
theorem mem_referencesFrom_of_live (H : Sparser g h) (hr : r ∈ h.referencesFrom d)
    (hlive : g.hasReference r = true) : r ∈ g.referencesFrom d := by
  obtain ⟨b, q, hq, hn⟩ := mem_referencesFrom_iff.1 hr
  have hn' := H.nests_of_live hg hh hn hlive
  obtain ⟨y, hy, ho, hb⟩ := (hh.held_iff d b q).1 hq
  obtain ⟨x, hx⟩ := hasReference_iff.1 hn'.live_left
  obtain ⟨y', hy', hmention, howner⟩ := H.exists_reference hx
  rw [hy] at hy'
  cases hy'
  have hheld : q ∈ g.heldBy d b :=
    (hg.held_iff d b q).2 ⟨x, hx, howner.symm.trans ho, by rw [← hmention]; exact hb⟩
  exact mem_referencesFrom_iff.2 ⟨b, q, hheld, hn'⟩

theorem mem_rootReferences (H : Sparser g h) (hr : r ∈ g.rootReferences.toList) :
    r ∈ h.rootReferences.toList := by
  obtain ⟨hlive, ho⟩ := (hg.rootReference_iff r).1 hr
  refine (hh.rootReference_iff r).2 ⟨H.hasReference hlive, ?_⟩
  rw [H.ownerOf? hlive]
  exact ho

/-! ## Removal -/

/-- Removing references on both sides, where `g` loses whatever it has of what `h` loses. -/
theorem foldl_removeReference (H : Sparser g h) {ids ids' : List RefId}
    (hids : ∀ q ∈ ids', g.hasReference q = true → q ∈ ids) :
    Sparser (ids.foldl removeReference g) (ids'.foldl removeReference h) := by
  have P := pruned_foldl_removeReference hg ids
  have P' := pruned_foldl_removeReference hh ids'
  refine ⟨(P.sparser.outline.trans H.outline).trans P'.sameOutline, fun r hr => ?_⟩
  obtain ⟨hlive, hstays⟩ := P.hasReference_iff.1 hr
  have hstays' : r ∉ ids'.flatMap h.referenceTree := by
    intro hgone
    obtain ⟨q, hq, hmem⟩ := List.mem_flatMap.1 hgone
    have hn := H.nests_of_live hg hh (mem_referenceTree.1 hmem) hlive
    exact hstays (List.mem_flatMap.2 ⟨q, hids q hq hn.live_left, mem_referenceTree.2 hn⟩)
  rw [P'.bare hstays', H.bare r hlive, P.bare hstays]

end Sparser

end Graph

end Deadwood

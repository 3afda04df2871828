/-
  The tree of declarations is a forest where extensions are folded outward.

  1. **Forests** — from every declaration parent links lead to a root, and never in a circle.  Whoever
     follows them relies on that: declarations around each other are reported by none of them.

  2. **Extensions and what they extend (`ExtendsOutward`)** — a condition on what was ingested: parent
     links together with the links from extensions to what they may be folded into make no cycle, and
     no extension is folded into another one.

  3. **Turns (`GrownFrom`)** — then every parent link that folding makes stands for a way outward, so
     every turn folds outward (`allFoldOutward`).

  4. **The analysis (`foldsForest_of_ingested`)** — ingestion makes a forest, folding keeps it exactly
     where it folds outward, and other passes leave the tree alone.
-/
import Deadwood.Proofs.Extensions.Cycles
import Deadwood.Proofs.Lookup

namespace Deadwood

open Deadwood.Graph Relation

variable {g k : Graph} {c d e t : DeclId} {r : RefId} {x : Declaration} {ids : List DeclId}
  {named : Prop} {s : Settings}

namespace Graph

/-! ## Forests -/

/-- Parent links make no cycle, and lead from every declaration to a root. -/
structure DeclarationForest (g : Graph) : Prop where
  acyclic : g.Acyclic
  rooted : ∀ d, g.hasDeclaration d = true → ∃ r ∈ g.roots.toList, g.EnclosedBy d r

theorem Acyclic.forest (hg : g.Coherent named) (hacyclic : g.Acyclic) : g.DeclarationForest where
  acyclic := hacyclic
  rooted d hd := by
    obtain ⟨r, hr, -, hout⟩ := hacyclic.exists_outermost (P := fun _ => True) trivial (c := d)
    have hup : g.EnclosedBy d r := (enclosedBy_iff hd).2 hr
    have hlive := mem_declIds.1 hup.mem_right
    refine ⟨r, (hg.root_iff r).2 ⟨hlive, Option.eq_none_iff_forall_ne_some.2 fun p hp => ?_⟩, hup⟩
    -- a parent would be further out
    refine hout p (mem_ancestors.2 ⟨?_, ?_⟩) trivial
    · exact .step (.here (mem_declIds.2 hlive)) (Option.mem_toList.2 hp)
        (mem_declIds.2 (hg.toNested.parent_live hp))
    · rintro rfl
      exact hacyclic p (.single hp)

/-- Ingestion makes a forest. -/
theorem Ingested.acyclic (hg : g.Ingested) : g.Acyclic :=
  acyclic_of_lt fun _ _ _ hp => hg.parent_lt (Option.mem_toList.1 hp)

/-! ## Extensions and what they extend -/

instance {usr : String} : Decidable (g.WrittenAs usr d) :=
  inferInstanceAs (Decidable (∃ x ∈ g.declaration? d, usr ∈ x.usrs.toList ∧ x.isImplicit = false))

/-- `MayExtend g e t`: the extension `e` of a class, struct or enum refers to such a type by an
identifier of `t`.  So `t` is what it may be folded into. -/
def MayExtend (g : Graph) (e t : DeclId) : Prop :=
  ∃ x ∈ g.declaration? e, ∃ kind ∈ x.kind.extended?, kind ≠ .protocolType ∧
    ∃ r ∈ x.ownReferences, ∃ y ∈ g.reference? r, y.kind = kind ∧ g.WrittenAs y.usr t

instance : Decidable (g.MayExtend e t) :=
  inferInstanceAs (Decidable (∃ x ∈ g.declaration? e, ∃ kind ∈ x.kind.extended?,
    kind ≠ .protocolType ∧ ∃ r ∈ x.ownReferences, ∃ y ∈ g.reference? r, y.kind = kind ∧
      g.WrittenAs y.usr t))

/-- A way outward: to what encloses a declaration, or from an extension to what it may be folded
into. -/
def Outward (g : Graph) (c p : DeclId) : Prop := g.Parent c p ∨ g.MayExtend c p

/-- No way outward leads in a circle, or from one extension to another. -/
structure ExtendsOutward (g : Graph) : Prop where
  acyclic : ∀ d, ¬ TransGen g.Outward d d
  types : ∀ e t, g.MayExtend e t → ∀ x, g.declaration? t = some x → x.kind.isExtension = false

/-- It is enough that every way outward leads to a smaller number. -/
theorem acyclic_outward_of_lt (rank : DeclId → Nat)
    (hparent : ∀ d ∈ g.declIds, ∀ p ∈ (g.parentOf? d).toList, rank p < rank d)
    (hextends : ∀ e ∈ g.declIds, ∀ t ∈ g.declIds, g.MayExtend e t → rank t < rank e) :
    ∀ d, ¬ TransGen g.Outward d d := by
  have hone : ∀ c p, g.Outward c p → rank p < rank c := by
    rintro c p (hp | hext)
    · obtain ⟨x, hx, -⟩ := parentOf?_eq_some_iff.1 hp
      exact hparent c (mem_declIds.2 (hasDeclaration_of_eq hx)) p (Option.mem_toList.2 hp)
    · obtain ⟨x, hx, -, -, -, -, -, y, -, -, z, hz, -⟩ := id hext
      exact hextends c (mem_declIds.2 (hasDeclaration_of_eq hx)) p
        (mem_declIds.2 (hasDeclaration_of_eq hz)) hext
  intro d hcycle
  have hdown : TransGen (· > ·) (rank d) (rank d) := hcycle.lift rank hone
  rw [transGen_eq_self] at hdown
  exact Nat.lt_irrefl _ hdown

theorem Owned.mem_ownReferences_iff (hg : g.Owned) (hx : g.declaration? d = some x) :
    r ∈ x.ownReferences ↔ ∃ y, g.reference? r = some y ∧ y.owner = some (.declaration d) := by
  rw [Declaration.mem_ownReferences]
  constructor
  · rintro ⟨b, hr⟩
    obtain ⟨y, hy, ho, -⟩ := (hg.held_iff d b r).1 (mem_heldBy_iff.2 ⟨x, hx, hr⟩)
    exact ⟨y, hy, ho⟩
  · rintro ⟨y, hy, ho⟩
    obtain ⟨z, hz, hr⟩ := mem_heldBy_iff.1 ((hg.held_iff d y.isRelated r).2 ⟨y, hy, ho, rfl⟩)
    rw [hx] at hz
    cases hz
    exact ⟨_, hr⟩

end Graph

namespace Extensions

/-- What an extension is folded into, it extends. -/
theorem Folds.mayExtend (hg : g.Indexed) (hf : Folds g e t) : g.MayExtend e t := by
  obtain ⟨x, kind, hx, hk, hne, ht⟩ := hf
  obtain ⟨r, y, hq, hy, hfirst⟩ := exists_of_extendedDeclaration ht
  obtain ⟨x', kind', hx', hk', hmem⟩ := mem_of_extendedTypeReference hq
  rw [hx] at hx'
  cases hx'
  rw [Kind.extended, hk] at hk'
  cases hk'
  obtain ⟨hr, hany⟩ := List.mem_filter.1 (mem_sortedReferences.1 hmem).1
  obtain ⟨z, hz, hkind⟩ := (Option.any_eq_true _ _).1 hany
  rw [hy] at hz
  cases hz
  have hwritten : IsFirst g.DeclarationBefore (g.WrittenAs y.usr)
    (g.explicitDeclarationWithUsr? y.usr) := hg.isFirst_written
  rw [hfirst] at hwritten
  exact ⟨x, hx, kind, hk, hne, r, hr, y, hy, eq_of_beq hkind, hwritten.1⟩

/-! ## Turns -/

/-- `GrownFrom g k`: every parent link of `k` stands for a way outward in `g`, and extensions have no
references in `k` that they had not in `g`. -/
structure GrownFrom (g k : Graph) : Prop where
  outlives : Outlives g k
  parent : ∀ c p, k.Parent c p → TransGen g.Outward c p
  references : ∀ e x, k.declaration? e = some x → x.kind.isExtension = true →
    ∀ r y, k.reference? r = some y → y.owner = some (.declaration e) →
      (g.reference? r).map Reference.bare = some y.bare

namespace GrownFrom

/-- A tree that is the same, with the same references, is grown from it. -/
theorem of_sameTree (H : SameTree g k) (hlives : Outlives g k) (hr : k.references = g.references) :
    GrownFrom g k where
  outlives := hlives
  parent c p hp := .single (.inl (by rwa [Parent, H.parentOf?] at hp))
  references _ _ _ _ r y hy _ := by
    rw [reference?, hr] at hy
    rw [reference?, hy]
    rfl

/-- Nothing is extended that was not extended before. -/
theorem mayExtend (hg : g.Owned) (hk : k.Owned) (H : GrownFrom g k) (hext : k.MayExtend e t) :
    g.MayExtend e t := by
  obtain ⟨x, hx, kind, hkind, hne, r, hr, y, hy, hyk, z, hz, husr, himplicit⟩ := hext
  obtain ⟨x', hx', hs⟩ := H.outlives.declaration e x hx
  obtain ⟨z', hz', hs'⟩ := H.outlives.declaration t z hz
  have hkx : x'.kind = x.kind := (congrArg Symbol.kind hs).symm
  have hux : z'.usrs = z.usrs := (congrArg Symbol.usrs hs').symm
  have hix : z'.isImplicit = z.isImplicit := (congrArg Symbol.isImplicit hs').symm
  obtain ⟨w, hw, ho⟩ := (hk.mem_ownReferences_iff hx).1 hr
  obtain rfl : w = y := Option.some.inj (hw.symm.trans hy)
  obtain ⟨y', hy', hbare⟩ := Option.map_eq_some_iff.1 
    (H.references e x hx (Kind.isExtension_of_extended hkind) r w hw ho)
  have hmention : y'.toMention = w.toMention := congrArg Prod.fst hbare
  refine ⟨x', hx', kind, by rw [hkx]; exact hkind, hne, r, ?_, y', hy', ?_, z', hz', ?_, ?_⟩
  · exact (hg.mem_ownReferences_iff hx').2 ⟨y', hy', (congrArg Prod.snd hbare).trans ho⟩
  · rw [hmention]; exact hyk
  · rw [hux, hmention]; exact husr
  · rw [hix]; exact himplicit

theorem reflTransGen (H : GrownFrom g k) (hup : k.EnclosedBy c d) : ReflTransGen g.Outward c d := by
  have hpath : ReflTransGen k.Parent c d := hup.reflTransGen
  clear hup
  induction hpath with
  | refl => exact .refl
  | tail _ hp ih => exact ih.trans (H.parent _ _ hp).to_reflTransGen

/-- **A turn folds outward.** -/
theorem foldsOutward (hg : g.Owned) (hk : k.Coherent named) (H : GrownFrom g k)
    (hout : g.ExtendsOutward) : FoldsOutward k e := by
  intro t hf m hm hup
  have hext : g.MayExtend e t := H.mayExtend hg hk.toOwned (hf.mayExtend hk.toIndexed)
  have hme : TransGen g.Outward m e := H.parent m e (hk.toNested.parentOf?_member hm)
  exact hout.acyclic t (TransGen.trans_right (H.reflTransGen hup) (hme.tail (.inr hext)))

/-- **After a turn parent links still stand for ways outward.** -/
theorem foldOne (hg : g.Owned) (hk : k.Coherent named) (H : GrownFrom g k)
    (hout : g.ExtendsOutward) : GrownFrom g (foldOne k e).graph := by
  have T : Turn named k e (Extensions.foldOne k e) := turn_foldOne hk
  have hone : Outlives k (Extensions.foldOne k e).graph := (outlives_foldOne hk).2
  generalize Extensions.foldOne k e = o at T hone
  cases T with
  | gone | unmapped | proto => exact H
  | foreign =>
      have hd : ∀ a, (k.mark .retained e).declaration? a = k.declaration? a := fun a =>
        (declaration?_markAll : (k.markAll .retained [e]).declaration? a = _)
      have hr : ∀ q, (k.mark .retained e).reference? q = k.reference? q := fun q =>
        (reference?_markAll : (k.markAll .retained [e]).reference? q = _)
      refine ⟨H.outlives.trans hone, fun c p hp => H.parent c p ?_, fun a x hx hxk r y hy => ?_⟩
      · rw [Parent, parentOf?, ← hd]
        exact hp
      · exact H.references a x ((hd a).symm.trans hx) hxk r y ((hr r).symm.trans hy)
  | @folded t l hf L =>
      have hext : g.MayExtend e t := H.mayExtend hg hk.toOwned (hf.mayExtend hk.toIndexed)
      refine ⟨H.outlives.trans hone, fun c p hp => ?_, fun a x hx hxk r y hy ho => ?_⟩
      · have hp := parent_of_removeDeclaration L.coherent hp
        rw [Parent, L.parent] at hp
        split at hp
        · rename_i hc
          cases hp
          exact (H.parent c e (hk.toNested.parentOf?_member hc)).tail (.inr hext)
        · exact H.parent c p hp
      · -- what it is folded into is no extension, so extensions get no references
        obtain ⟨w, hw, hkw⟩ := hone.kind hx
        obtain ⟨x', hx', hkx⟩ := H.outlives.kind hw
        have hne : a ≠ t := by
          rintro rfl
          have hno := hout.types e a hext x' hx'
          rw [hkx, hkw, hxk] at hno
          cases hno
        have hgives : GivesOnlyTo t k (l.removeDeclaration e) := L.references.trans
          (.trimmed (felled_removeDeclaration L.coherent).toTrimmed)
        obtain ⟨z, hz, he⟩ := Option.map_eq_some_iff.1 (hgives a hne r y hy ho)
        rw [H.references a w hw (by rw [hkw]; exact hxk) r z hz ((congrArg Prod.snd he).trans ho), he]

/-- **Every turn folds outward.** -/
theorem allFoldOutward (hg : g.Owned) (hk : k.Coherent named) (H : GrownFrom g k)
    (hout : g.ExtendsOutward) : AllFoldOutward k ids := by
  induction ids generalizing k with
  | nil => trivial
  | cons e ids ih =>
      exact ⟨H.foldsOutward hg hk hout, fun _ => ih (outlives_foldOne hk).1 (H.foldOne hg hk hout)⟩

end GrownFrom

end Extensions

/-! ## The analysis -/

open Extensions in
/-- `FoldsForest s g`: what an analysis of `g` makes of the tree of declarations. -/
structure FoldsForest (s : Settings) (g : Graph) : Prop where
  /-- Folding starts with a forest. -/
  before : (whenStarts s g .foldExtensions).DeclarationForest
  /-- There is a forest after every turn exactly where every turn folds outward. -/
  exact : ∀ ids, (∀ n, (foldEach (whenStarts s g .foldExtensions) (ids.take n)).graph.DeclarationForest) ↔
    AllFoldOutward (whenStarts s g .foldExtensions) ids
  /-- Then there is one after folding, and in the end, also where the analysis fails. -/
  after : AllFoldOutward (whenStarts s g .foldExtensions)
      ((whenStarts s g .foldExtensions).declarationsOfKinds Kind.extensions) →
    (foldAll (whenStarts s g .foldExtensions)).graph.DeclarationForest ∧
      (analyse s g).graph.DeclarationForest
  /-- So it is where what was ingested has no ways outward in a circle. -/
  outward : g.ExtendsOutward → ∀ ids, AllFoldOutward (whenStarts s g .foldExtensions) ids

/-- **The tree of declarations stays a forest exactly where extensions are folded outward.** -/
theorem foldsForest_of_ingested (hg : g.Ingested) (s : Settings) : FoldsForest s g := by
  have hc : g.Coherent True := hg.reachable.consistent
  have hk : (whenStarts s g .foldExtensions).Coherent True := coherent_runPasses hc
  have hsame : SameTree g (whenStarts s g .foldExtensions) := sameTree_beforeFolding hc
  have hlives : Outlives g (whenStarts s g .foldExtensions) := outlives_runPasses hc
  have hrefs : (whenStarts s g .foldExtensions).references = g.references := references_beforeFolding
  have hafter : SameTree (Extensions.foldAll (whenStarts s g .foldExtensions)).graph
      (analyse s g).graph := sameTree_afterFolding hc
  have hend : (analyse s g).graph.Coherent True := coherent_runPasses hc
  have hacyclic : (whenStarts s g .foldExtensions).Acyclic := hsame.acyclic hg.acyclic
  generalize hwhen : whenStarts s g .foldExtensions = k at *
  have hturns : ∀ ids, (Extensions.foldEach k ids).graph.Coherent True := fun ids =>
    (Extensions.outlives_foldEach hk).1
  constructor
  · rw [hwhen]
    exact hacyclic.forest hk
  · intro ids
    rw [hwhen, ← Extensions.acyclic_foldEach_iff hk hacyclic]
    exact forall_congr' fun n => ⟨fun H => H.acyclic, fun H => H.forest (hturns _)⟩
  · intro hall
    rw [hwhen] at hall ⊢
    have hfolded : (Extensions.foldAll k).graph.Acyclic := by
      have hlast := (Extensions.acyclic_foldEach_iff hk hacyclic).2 hall
        (k.declarationsOfKinds Kind.extensions).length
      rwa [List.take_length] at hlast
    exact ⟨hfolded.forest (hturns _), (hafter.acyclic hfolded).forest hend⟩
  · intro hout ids
    rw [hwhen]
    exact (Extensions.GrownFrom.of_sameTree hsame hlives hrefs).allFoldOutward hc.toOwned hk hout

/-- A class in a struct, an extension of it that brings a struct, and an extension of that one. -/
def nestedExtensions : Document :=
  { fragments := [
      { file := { path := ⟨"a.swift"⟩, modules := .singleton "App" }
        declarations := [
          { kind := .structType, usrs := ["S"], name := some "S", line := 1
            declarations := [{ kind := .classType, usrs := ["C"], name := some "C", line := 2 }] },
          { kind := .classExtension, usrs := ["C+"], name := some "C", line := 4
            declarations := [{ kind := .structType, usrs := ["D"], name := some "D", line := 5 }]
            references := [{ kind := .classType, usr := "C", line := 4, role := .extendedType }] },
          { kind := .structExtension, usrs := ["D+"], name := some "D", line := 7
            declarations := [{ kind := .instanceMethod, usrs := ["D.f"], line := 8 }]
            references := [{ kind := .structType, usr := "D", line := 7, role := .extendedType }] }] }] }

/-- Both are folded, and what the second one brings ends up inside the outermost struct. -/
theorem foldsForest_of_ingested_nestedExtensions :
    (analyse {} (ofDocument nestedExtensions).1).graph.DeclarationForest ∧
      (analyse {} (ofDocument nestedExtensions).1).graph.ancestors ⟨5⟩ = [⟨3⟩, ⟨1⟩, ⟨0⟩] := by
  have hingested : (ofDocument nestedExtensions).1.Ingested := Ingested.empty.ingest nestedExtensions
  have hout : (ofDocument nestedExtensions).1.ExtendsOutward := by
    constructor
    · exact acyclic_outward_of_lt DeclId.index (by decide +kernel) (by decide +kernel)
    · have hall : ∀ e ∈ (ofDocument nestedExtensions).1.declIds,
          ∀ t ∈ (ofDocument nestedExtensions).1.declIds,
            (ofDocument nestedExtensions).1.MayExtend e t →
            ∀ x ∈ (ofDocument nestedExtensions).1.declaration? t, x.kind.isExtension = false := by
        decide +kernel
      intro e t hext x hx
      obtain ⟨y, hy, -⟩ := id hext
      exact hall e (mem_declIds.2 (hasDeclaration_of_eq hy)) t
        (mem_declIds.2 (hasDeclaration_of_eq hx)) hext x hx
  refine ⟨?_, by decide +kernel⟩
  generalize (ofDocument nestedExtensions).1 = g at hingested hout
  have H : FoldsForest {} g := foldsForest_of_ingested hingested {}
  have houtward := H.outward hout
  have hafter := H.after
  -- which graph folding starts with does not matter from here on
  generalize whenStarts {} g .foldExtensions = k at houtward hafter
  exact (hafter (houtward _)).2

/-- An extension of a type from elsewhere with a class in it, in which there is the only struct that
the extension refers to. -/
def extensionAroundItsType : Document :=
  { fragments := [
      { file := { path := ⟨"a.swift"⟩, modules := .singleton "App" }
        declarations := [
          { kind := .structExtension, usrs := ["s:e"], name := some "Array", line := 1
            declarations := [
              { kind := .classType, usrs := ["s:M"], name := some "M", line := 3
                declarations := [
                  { kind := .structType, usrs := ["s:T"], name := some "T", line := 4 }] }]
            references := [{ kind := .structType, usr := "s:T", line := 2 }] }] }] }

/-- Folded inward: the class ends up inside the struct that is inside the class. -/
theorem not_forest_extensionAroundItsType :
    (analyse {} (ofDocument extensionAroundItsType).1).failure = none ∧
      ¬ (Extensions.foldAll (whenStarts {} (ofDocument extensionAroundItsType).1
        .foldExtensions)).graph.DeclarationForest ∧
      ¬ (analyse {} (ofDocument extensionAroundItsType).1).graph.DeclarationForest := by
  have hcircle : ∀ h : Graph, h.parentOf? ⟨1⟩ = some ⟨2⟩ → h.parentOf? ⟨2⟩ = some ⟨1⟩ →
      ¬ h.DeclarationForest := fun h hthere hback H =>
    H.acyclic ⟨1⟩ ((TransGen.single (r := h.Parent) hthere).tail hback)
  exact ⟨by decide +kernel, hcircle _ (by decide +kernel) (by decide +kernel),
    hcircle _ (by decide +kernel) (by decide +kernel)⟩

end Deadwood

/-
  Folding takes out exactly the extensions of types that the program declares.

  1. **Resolution (`Course.resolves`)** — what an extension extends is read off its own references and
     off what is written with the identifiers that they name.  Folding another extension touches
     neither, as long as extensions extend types and not extensions.  So the answers during a run are
     those before it.

  2. **Turns (`Course.foldOne`)** — what a run has made of the graph after some turns: who is gone, who
     took over whose members, which marks and records came.  One turn keeps this account.

  3. **Runs (`foldsExactly_of_built`)** — after all turns the account says what folding did, and nothing
     is left that a second run would change.
-/
import Deadwood.Proofs.Dispatch.Connecting
import Deadwood.Proofs.Extensions.Faults
import Deadwood.Proofs.Extensions.Transfer

namespace Deadwood

open Deadwood.Graph

variable {g h k : Graph} {a c d e t u : DeclId} {p q r s : RefId} {done ids : List DeclId}
  {named : Prop} {x : Declaration}

namespace Extensions

/-- `Foreign g e`: what the extension `e` extends is not declared in the program. -/
def Foreign (g : Graph) (e : DeclId) : Prop :=
  ∃ x, g.declaration? e = some x ∧ x.kind.isExtension = true ∧ g.extendedDeclaration e = .ok none

/-- What an extension may name as the type it extends is no extension. -/
def ExtendsTypes (g : Graph) : Prop :=
  ∀ e x kind, g.declaration? e = some x → x.kind.extended? = some kind →
    ∀ r y, g.reference? r = some y → y.owner = some (.declaration e) → y.kind = kind →
      ∀ d z, g.declaration? d = some z → y.usr ∈ z.usrs.toList → z.kind.isExtension = false

theorem Folds.unique (ht : Folds g e t) (hu : Folds g e u) : t = u := by
  obtain ⟨-, -, -, -, -, ht⟩ := ht
  obtain ⟨-, -, -, -, -, hu⟩ := hu
  rw [ht] at hu
  cases hu
  rfl

theorem Folds.isExtension (hf : Folds g e t) (hx : g.declaration? e = some x) :
    x.kind.isExtension = true := by
  obtain ⟨y, kind, hy, hk, -⟩ := hf
  rw [hx] at hy
  cases hy
  exact Kind.isExtension_of_extended hk

/-- An extension is folded into something that is no extension. -/
theorem ExtendsTypes.isExtension_eq_false (htypes : ExtendsTypes g) (hg : g.Coherent named)
    (hf : Folds g e t) (hx : g.declaration? t = some x) : x.kind.isExtension = false := by
  obtain ⟨y, hy, kind, hk, -, r, hr, z, hz, hzk, w, hw, hu, -⟩ := hf.mayExtend hg.toIndexed
  rw [hx] at hw
  cases hw
  obtain ⟨z', hz', ho⟩ := (hg.toOwned.mem_ownReferences_iff hy).1 hr
  rw [hz] at hz'
  cases hz'
  exact htypes e y kind hy hk r z hz ho hzk t x hx hu

theorem ExtendsTypes.ne (htypes : ExtendsTypes g) (hg : g.Coherent named) (hf : Folds g e t)
    (hx : g.declaration? d = some x) (hext : x.kind.isExtension = true) : d ≠ t := by
  rintro rfl
  rw [htypes.isExtension_eq_false hg hf hx] at hext
  cases hext

/-! ## Turns in which nothing is folded -/

/-- `Still g k`: the declarations, the references and the record of folded extensions are the same. -/
structure Still (g k : Graph) : Prop where
  declaration : ∀ d, k.declaration? d = g.declaration? d
  reference : ∀ r, k.reference? r = g.reference? r
  folded : k.folded = g.folded

theorem still_foldOne (hg : g.Coherent named) (hnone : ¬ ∃ t, Folds g e t) :
    Still g (foldOne g e).graph := by
  have T : Turn named g e (foldOne g e) := turn_foldOne hg
  generalize foldOne g e = o at T
  cases T with
  | gone | unmapped | proto => exact ⟨fun _ => rfl, fun _ => rfl, rfl⟩
  | foreign =>
      refine ⟨fun d => ?_, fun r => ?_, ?_⟩
      · exact (declaration?_markAll : (g.markAll .retained [e]).declaration? d = _)
      · exact (reference?_markAll : (g.markAll .retained [e]).reference? r = _)
      · have hmark : (g.markAll .retained [e]).folded = g.folded := by rw [markAll_eq]
        exact hmark
  | folded hf => exact absurd ⟨_, hf⟩ hnone

/-- Such a turn retains an extension of a foreign type, and puts no other mark. -/
theorem marks_foldOne (hg : g.Coherent named) (hnone : ¬ ∃ t, Folds g e t)
    (hx : g.declaration? e = some x) (hext : x.kind.isExtension = true)
    (hplain : x.kind ≠ .plainExtension) : (foldOne g e).fault = none ∧
      ∀ mark c, c ∈ ((foldOne g e).graph.marks.of mark).toList ↔
        c ∈ (g.marks.of mark).toList ∨ (mark = .retained ∧ c = e ∧ Foreign g e) := by
  have T : Turn named g e (foldOne g e) := turn_foldOne hg
  generalize foldOne g e = o at T
  cases T with
  | gone hy => rw [hx] at hy; cases hy
  | unmapped hy hk =>
      rw [hx] at hy
      cases hy
      exact absurd (Kind.eq_plainExtension (Kind.isExtension_iff.1 hext) hk) hplain
  | foreign hy _ ht =>
      refine ⟨rfl, fun mark c => ?_⟩
      have hmark : c ∈ ((g.markAll .retained [e]).marks.of mark).toList ↔
          (.retained = mark ∧ c ∈ [e] ∧ g.hasDeclaration c = true) ∨ c ∈ (g.marks.of mark).toList :=
        mem_marks_markAll
      refine hmark.trans ?_
      rw [List.mem_singleton, or_comm]
      refine or_congr_right ⟨fun ⟨hm, hc, _⟩ => ⟨hm.symm, hc, x, hx, hext, ht⟩, fun ⟨hm, hc, _⟩ => ?_⟩
      exact ⟨hm.symm, hc, hc ▸ hasDeclaration_of_eq hx⟩
  | proto _ _ ht =>
      refine ⟨rfl, fun mark c => (or_iff_left ?_).symm⟩
      rintro ⟨-, -, -, -, -, hforeign⟩
      rw [ht] at hforeign
      cases hforeign
  | folded hf => exact absurd ⟨_, hf⟩ hnone

namespace Still

variable (H : Still g k)
include H

theorem ownerOf? : k.ownerOf? r = g.ownerOf? r := by
  rw [Graph.ownerOf?, H.reference, Graph.ownerOf?]

theorem hasReference : k.hasReference r = g.hasReference r := by
  rw [Graph.hasReference, H.reference, Graph.hasReference]

theorem referencingDeclaration? (hg : g.Owned) (hk : k.Owned) :
    k.referencingDeclaration? r = g.referencingDeclaration? r :=
  referencingDeclaration?_congr hg hk (P := fun _ => True) (fun _ _ => H.ownerOf?)
    (fun _ _ _ _ => trivial) trivial

end Still

/-! ## In the course of a run -/

/-- `Course named g done k`: what has become of `g` after the turns of the extensions `done`. -/
structure Course (named : Prop) (g : Graph) (done : List DeclId) (k : Graph) : Prop where
  coherent : k.Coherent named
  live : ∀ c, k.hasDeclaration c = true ↔
    g.hasDeclaration c = true ∧ ¬ (c ∈ done ∧ ∃ t, Folds g c t)
  symbol : ∀ c, k.hasDeclaration c = true →
    (k.declaration? c).map (·.toSymbol) = (g.declaration? c).map (·.toSymbol)
  adopted : ∀ c e t, k.hasDeclaration c = true → g.parentOf? c = some e → e ∈ done → Folds g e t →
    k.parentOf? c = some t
  kept : ∀ c, k.hasDeclaration c = true →
    (∀ e, g.parentOf? c = some e → ¬ (e ∈ done ∧ ∃ t, Folds g e t)) → k.parentOf? c = g.parentOf? c
  parameters : ∀ e x, k.declaration? e = some x → x.kind.isExtension = true → x.parameters = ∅
  marks : ∀ mark c, k.hasDeclaration c = true → (c ∈ (k.marks.of mark).toList ↔
    c ∈ (g.marks.of mark).toList ∨ (mark = .retained ∧ c ∈ done ∧ Foreign g c))
  recorded : ∀ e t, e ∈ done → Folds g e t → k.folded.find? e = some t
  unrecorded : ∀ c, ¬ (c ∈ done ∧ ∃ t, Folds g c t) → k.folded.find? c = g.folded.find? c
  mention : ∀ r, k.hasReference r = true →
    (k.reference? r).map (·.toMention) = (g.reference? r).map (·.toMention)
  own : ∀ e x, k.declaration? e = some x → x.kind.isExtension = true →
    ∀ r, k.ownerOf? r = some (.declaration e) ↔ g.ownerOf? r = some (.declaration e)
  nested : ∀ r p, k.NestedIn r p → g.NestedIn r p

namespace Course

theorem refl (hg : g.Coherent named)
    (hnone : ∀ e x, g.declaration? e = some x → x.kind.isExtension = true → x.parameters = ∅) :
    Course named g [] g where
  coherent := hg
  live c := by simp
  symbol _ _ := rfl
  adopted c e t _ _ he := by cases he
  kept _ _ _ := rfl
  parameters := hnone
  marks mark c _ := by simp
  recorded e t he := by cases he
  unrecorded _ _ := rfl
  mention _ _ := rfl
  own _ _ _ _ _ := Iff.rfl
  nested _ _ hn := hn

section Resolves

variable (hg : g.Coherent named) (htypes : ExtendsTypes g) (H : Course named g done k)
include H

theorem exists_declaration (hx : k.declaration? c = some x) :
    ∃ y, g.declaration? c = some y ∧ y.toSymbol = x.toSymbol := by
  have hs := H.symbol c (hasDeclaration_of_eq hx)
  rw [hx] at hs
  exact Option.map_eq_some_iff.1 hs.symm

/-- What is no extension stays. -/
theorem exists_of_not_extension (hx : g.declaration? c = some x) (hext : x.kind.isExtension = false) :
    ∃ y, k.declaration? c = some y ∧ y.toSymbol = x.toSymbol := by
  have hlive : k.hasDeclaration c = true := by
    refine (H.live c).2 ⟨hasDeclaration_of_eq hx, ?_⟩
    rintro ⟨-, t, hf⟩
    rw [hf.isExtension hx] at hext
    cases hext
  have hs := H.symbol c hlive
  rw [hx] at hs
  exact Option.map_eq_some_iff.1 hs

/-- An extension whose turn has not come has its own references. -/
theorem pending (hx : g.declaration? e = some x) (hext : x.kind.isExtension = true) (hnew : e ∉ done) :
    k.hasDeclaration e = true ∧
      ∀ p, k.ownerOf? p = some (.declaration e) ↔ g.ownerOf? p = some (.declaration e) := by
  have he : k.hasDeclaration e = true := (H.live e).2 ⟨hasDeclaration_of_eq hx, fun hf => hnew hf.1⟩
  obtain ⟨y, hy⟩ := hasDeclaration_iff.1 he
  obtain ⟨z, hz, hs⟩ := H.exists_declaration hy
  rw [hx] at hz
  cases hz
  exact ⟨he, H.own e y hy (by rw [← hs]; exact hext)⟩

include hg htypes

/-- What is written with an identifier that an extension names is what it was. -/
theorem explicitDeclarationWithUsr?_eq {y : Reference} {kind : Kind} (hx : g.declaration? e = some x)
    (hk : x.kind.extended? = some kind) (hy : g.reference? r = some y)
    (ho : y.owner = some (.declaration e)) (hyk : y.kind = kind) :
    k.explicitDeclarationWithUsr? y.usr = g.explicitDeclarationWithUsr? y.usr := by
  have hsame : ∀ d z, g.declaration? d = some z → y.usr ∈ z.usrs.toList →
      ∃ w, k.declaration? d = some w ∧ w.toSymbol = z.toSymbol := fun d z hz hu =>
    H.exists_of_not_extension hz (htypes e x kind hx hk r y hy ho hyk d z hz hu)
  refine congrArg List.head? (sortByKey_congr (fun d hd => ?_) fun d => ?_)
  · obtain ⟨hu, -⟩ := List.mem_filter.1 hd
    obtain ⟨z, hz, hu⟩ := (hg.byUsr _ d).1 hu
    obtain ⟨w, hw, hs⟩ := hsame d z hz hu
    rw [hz, hw, Option.map_some, Option.map_some, hs]
  · rw [List.mem_filter, List.mem_filter, hg.byUsr, H.coherent.byUsr]
    constructor
    · rintro ⟨⟨w, hw, hu⟩, hexplicit⟩
      obtain ⟨z, hz, hs⟩ := H.exists_declaration hw
      rw [hw, Option.any_some, ← hs] at hexplicit
      exact ⟨⟨z, hz, by rw [hs]; exact hu⟩, by rw [hz]; exact hexplicit⟩
    · rintro ⟨⟨z, hz, hu⟩, hexplicit⟩
      obtain ⟨w, hw, hs⟩ := hsame d z hz hu
      rw [hz, Option.any_some, ← hs] at hexplicit
      exact ⟨⟨w, hw, by rw [hs]; exact hu⟩, by rw [hw]; exact hexplicit⟩

/-- **An extension that is still there extends what it extended before.** -/
theorem resolves {kind : Kind} (hx : k.declaration? e = some x) (hk : x.kind.extended? = some kind) :
    k.extendedTypeReference e = g.extendedTypeReference e ∧
      k.extendedDeclaration e = g.extendedDeclaration e := by
  obtain ⟨y, hy, hs⟩ := H.exists_declaration hx
  have hky : y.kind.extended? = some kind := by rw [hs]; exact hk
  have hkind : y.kind.extended = .ok kind := by rw [Kind.extended, hky]
  have hown := H.own e x hx (Kind.isExtension_of_extended hk)
  have hmention : ∀ q ∈ y.ownReferences,
      (k.reference? q).map (·.toMention) = (g.reference? q).map (·.toMention) := by
    intro q hq
    obtain ⟨z, hz, ho⟩ := (hg.toOwned.mem_ownReferences_iff hy).1 hq
    exact H.mention q (live_of_ownerOf? ((hown q).2 (ownerOf?_eq_some_iff.2 ⟨z, hz, ho⟩)))
  have hmem : ∀ q, q ∈ k.referencesAmong x.ownReferences (·.kind == kind) ↔
      q ∈ g.referencesAmong y.ownReferences (·.kind == kind) := by
    intro q
    have hq : q ∈ x.ownReferences ↔ q ∈ y.ownReferences := by
      rw [H.coherent.toOwned.mem_ownReferences_iff hx, hg.toOwned.mem_ownReferences_iff hy,
        ← ownerOf?_eq_some_iff, ← ownerOf?_eq_some_iff, hown]
    rw [Graph.referencesAmong, List.mem_filter, Graph.referencesAmong, List.mem_filter, hq]
    refine and_congr_right fun hq => ?_
    have hany := congrArg (Option.any fun m : Mention => m.kind == kind) (hmention q hq)
    rw [Option.any_map, Option.any_map] at hany
    exact iff_of_eq (congrArg (· = true) hany)
  have hcandidates : ∀ q ∈ g.referencesAmong y.ownReferences (·.kind == kind),
      (k.reference? q).map (·.toMention) = (g.reference? q).map (·.toMention) := fun q hq =>
    hmention q (List.mem_filter.1 hq).1
  refine ⟨Protocols.extendedTypeReference_congr hy hx hs.symm hkind hmem hcandidates,
    Protocols.extendedDeclaration_congr hy hx hs.symm hkind hmem hcandidates fun q hq z hz => ?_⟩
  obtain ⟨hq, hany⟩ := List.mem_filter.1 hq
  obtain ⟨z', hz', ho⟩ := (hg.toOwned.mem_ownReferences_iff hy).1 hq
  rw [hz] at hz' hany
  cases hz'
  exact H.explicitDeclarationWithUsr?_eq hg htypes hy hky hz ho (eq_of_beq hany)

theorem folds_iff (he : k.hasDeclaration e = true) : Folds k e t ↔ Folds g e t := by
  obtain ⟨x, hx⟩ := hasDeclaration_iff.1 he
  obtain ⟨y, hy, hs⟩ := H.exists_declaration hx
  constructor
  · rintro ⟨x', kind, hx', hk, hproto, ht⟩
    rw [(H.resolves hg htypes hx' hk).2] at ht
    rw [hx] at hx'
    cases hx'
    exact ⟨y, kind, hy, by rw [hs]; exact hk, hproto, ht⟩
  · rintro ⟨y', kind, hy', hk, hproto, ht⟩
    rw [hy] at hy'
    cases hy'
    have hkx : x.kind.extended? = some kind := by rw [← hs]; exact hk
    rw [← (H.resolves hg htypes hx hkx).2] at ht
    exact ⟨x, kind, hx, hkx, hproto, ht⟩

theorem foreign_iff (hno : g.NoPlainExtension) (he : k.hasDeclaration e = true) :
    Foreign k e ↔ Foreign g e := by
  obtain ⟨x, hx⟩ := hasDeclaration_iff.1 he
  obtain ⟨y, hy, hs⟩ := H.exists_declaration hx
  have hsame : x.kind.isExtension = true → k.extendedDeclaration e = g.extendedDeclaration e := by
    intro hext
    obtain ⟨kind, hk⟩ := Option.ne_none_iff_exists'.1 fun hnone =>
      hno e y hy (by rw [hs]; exact Kind.eq_plainExtension (Kind.isExtension_iff.1 hext) hnone)
    exact (H.resolves hg htypes hx hk).2
  constructor
  · rintro ⟨x', hx', hext, ht⟩
    rw [hx] at hx'
    cases hx'
    exact ⟨y, hy, by rw [hs]; exact hext, by rw [← hsame hext]; exact ht⟩
  · rintro ⟨y', hy', hext, ht⟩
    rw [hy] at hy'
    cases hy'
    rw [hs] at hext
    exact ⟨x, hx, hext, by rw [hsame hext]; exact ht⟩

end Resolves

/-! ## One turn more -/

/-- A turn in which nothing is folded. -/
theorem skip (H : Course named g done k) (hnone : ¬ ∃ t, Folds g e t) (hl : h.Coherent named)
    (S : Still k h)
    (hmarks : ∀ mark c, c ∈ (h.marks.of mark).toList ↔
      c ∈ (k.marks.of mark).toList ∨ (mark = .retained ∧ c = e ∧ Foreign g e)) :
    Course named g (done ++ [e]) h := by
  have hlive : ∀ c, h.hasDeclaration c = k.hasDeclaration c := fun c => by
    rw [Graph.hasDeclaration, S.declaration, Graph.hasDeclaration]
  have hparent : ∀ c, h.parentOf? c = k.parentOf? c := fun c => by
    rw [Graph.parentOf?, S.declaration, Graph.parentOf?]
  have hdone : ∀ c, (c ∈ done ++ [e] ∧ ∃ t, Folds g c t) ↔ (c ∈ done ∧ ∃ t, Folds g c t) := by
    intro c
    rw [List.mem_append, List.mem_singleton, or_and_right]
    refine or_iff_left ?_
    rintro ⟨rfl, hf⟩
    exact hnone hf
  refine ⟨hl, fun c => ?_, fun c hc => ?_, fun c a t hc hp ha hf => ?_, fun c hc hp => ?_,
    fun a x hx => ?_, fun mark c hc => ?_, fun a t ha hf => ?_, fun c hc => ?_, fun r hr => ?_,
    fun a x hx hext r => ?_, fun r p hn => ?_⟩
  · rw [hlive, hdone, H.live]
  · rw [hlive] at hc
    rw [S.declaration, H.symbol c hc]
  · rw [hlive] at hc
    rw [hparent]
    exact H.adopted c a t hc hp ((hdone a).1 ⟨ha, t, hf⟩).1 hf
  · rw [hlive] at hc
    rw [hparent]
    exact H.kept c hc fun a ha hf => hp a ha ((hdone a).2 hf)
  · rw [S.declaration] at hx
    exact H.parameters a x hx
  · rw [hlive] at hc
    rw [hmarks, H.marks mark c hc, List.mem_append, List.mem_singleton]
    constructor
    · rintro ((hm | ⟨hm, hc, hf⟩) | ⟨hm, rfl, hf⟩)
      · exact .inl hm
      · exact .inr ⟨hm, .inl hc, hf⟩
      · exact .inr ⟨hm, .inr rfl, hf⟩
    · rintro (hm | ⟨hm, hc | rfl, hf⟩)
      · exact .inl (.inl hm)
      · exact .inl (.inr ⟨hm, hc, hf⟩)
      · exact .inr ⟨hm, rfl, hf⟩
  · rw [S.folded]
    exact H.recorded a t ((hdone a).1 ⟨ha, t, hf⟩).1 hf
  · rw [S.folded]
    exact H.unrecorded c fun hf => hc ((hdone c).2 hf)
  · rw [S.hasReference] at hr
    rw [S.reference]
    exact H.mention r hr
  · rw [S.declaration] at hx
    rw [S.ownerOf?]
    exact H.own a x hx hext r
  · rw [NestedIn, S.ownerOf?] at hn
    exact H.nested r p hn

/-- A turn in which an extension is folded. -/
theorem transfer (hg : g.Coherent named) (htypes : ExtendsTypes g) (H : Course named g done k)
    (hnew : e ∉ done) (hf : Folds g e t) (T : Transfer named k e t q h)
    (hq : k.ownerOf? q = some (.declaration e)) : Course named g (done ++ [e]) h := by
  obtain ⟨x, hx⟩ : ∃ x, g.declaration? e = some x := by
    obtain ⟨x, -, hx, -⟩ := id hf
    exact ⟨x, hx⟩
  have hext := hf.isExtension hx
  have hlive : ∀ c, h.hasDeclaration c = true ↔ k.hasDeclaration c = true ∧ c ≠ e := fun c =>
    T.survives_iff
  have hother : ∀ c, (c ∈ done ++ [e] ∧ ∃ t, Folds g c t) ↔
      (c ∈ done ∧ ∃ t, Folds g c t) ∨ c = e := by
    intro c
    rw [List.mem_append, List.mem_singleton]
    constructor
    · rintro ⟨hc | hc, hfc⟩
      · exact .inl ⟨hc, hfc⟩
      · exact .inr hc
    · rintro (⟨hc, hfc⟩ | rfl)
      · exact ⟨.inl hc, hfc⟩
      · exact ⟨.inr rfl, t, hf⟩
  have htarget : ∀ a u, Folds g a u → u ≠ e := fun a u hfa =>
    (htypes.ne hg hfa hx hext).symm
  refine ⟨T.coherent, fun c => ?_, fun c hc => ?_, fun c a u hc hp ha hfa => ?_, fun c hc hp => ?_,
    fun a y hy hya => ?_, fun mark c hc => ?_, fun a u ha hfa => ?_, fun c hc => ?_, fun r hr => ?_,
    fun a y hy hya r => ?_, fun r p hn => ?_⟩
  · rw [hlive, hother, H.live, not_or, and_assoc]
  · obtain ⟨hck, hce⟩ := (hlive c).1 hc
    rw [T.symbol c hce, H.symbol c hck]
  · obtain ⟨hck, hce⟩ := (hlive c).1 hc
    rcases (hother a).1 ⟨ha, u, hfa⟩ with ⟨ha, -⟩ | rfl
    · have hpk := H.adopted c a u hck hp ha hfa
      rw [T.parent c hce, hpk, if_neg fun he => htarget a u hfa (Option.some.inj he)]
    · have hpk : k.parentOf? c = g.parentOf? c := H.kept c hck fun b hb hfb => by
        rw [hp] at hb
        cases hb
        exact hnew hfb.1
      rw [T.parent c hce, hpk, hp, if_pos rfl, hf.unique hfa]
  · obtain ⟨hck, hce⟩ := (hlive c).1 hc
    have hpk : k.parentOf? c = g.parentOf? c := H.kept c hck fun b hb hfb =>
      hp b hb ((hother b).2 (.inl hfb))
    rw [T.parent c hce, hpk, if_neg fun he => hp e he ((hother e).2 (.inr rfl))]
  · exact T.parameters_eq H.parameters hy hya
  · obtain ⟨hck, hce⟩ := (hlive c).1 hc
    rw [T.marks mark c hce, H.marks mark c hck, List.mem_append, List.mem_singleton]
    simp only [hce, or_false]
  · rw [T.folded, SortedMap.find?_insert]
    rcases (hother a).1 ⟨ha, u, hfa⟩ with ⟨had, -⟩ | rfl
    · have hae : a ≠ e := fun he => hnew (he ▸ had)
      rw [if_neg hae]
      exact H.recorded a u had hfa
    · rw [if_pos rfl, hf.unique hfa]
  · rw [hother, not_or] at hc
    rw [T.folded, SortedMap.find?_insert, if_neg hc.2]
    exact H.unrecorded c hc.1
  · rw [T.mention r hr, H.mention r ((T.live r).1 hr).1]
  · obtain ⟨hae, z, hz, hzs⟩ := T.exists_declaration hy
    have hza : z.kind.isExtension = true := by rw [hzs]; exact hya
    obtain ⟨w, hw, hws⟩ := H.exists_declaration hz
    have hat : a ≠ t := htypes.ne hg hf hw (by rw [hws]; exact hza)
    rw [← H.own a z hz hza r]
    exact T.ownerOf?_iff H.coherent.toOwned hq hae hat
  · exact H.nested r p (T.nestedIn hn)

/-- **One turn keeps the account.** -/
theorem foldOne (hg : g.Coherent named) (hno : g.NoPlainExtension) (htypes : ExtendsTypes g)
    (H : Course named g done k) (hx : g.declaration? e = some x) (hext : x.kind.isExtension = true)
    (hnew : e ∉ done) : (Extensions.foldOne k e).fault = none ∧
      Course named g (done ++ [e]) (Extensions.foldOne k e).graph := by
  have he := (H.pending hx hext hnew).1
  by_cases hfold : ∃ t, Folds g e t
  · obtain ⟨t, hf⟩ := hfold
    have hfk : Folds k e t := (H.folds_iff hg htypes he).2 hf
    obtain ⟨y, hy⟩ := hasDeclaration_iff.1 he
    have hnone : ∀ y, k.declaration? e = some y → y.parameters = ∅ := fun y hy =>
      H.parameters e y hy (hfk.isExtension hy)
    obtain ⟨q, h, -, hq, hone, T⟩ :=
      transfer_foldOne H.coherent hfk (htypes.ne hg hf hx hext) hnone
    rw [hone]
    exact ⟨rfl, H.transfer hg htypes hnew hf T hq⟩
  · have hnone : ¬ ∃ t, Folds k e t := fun ⟨t, hf⟩ => hfold ⟨t, (H.folds_iff hg htypes he).1 hf⟩
    obtain ⟨y, hy⟩ := hasDeclaration_iff.1 he
    obtain ⟨z, hz, hs⟩ := H.exists_declaration hy
    rw [hx] at hz
    cases hz
    obtain ⟨hfault, hmarks⟩ := marks_foldOne H.coherent hnone hy (by rw [← hs]; exact hext)
      (by rw [← hs]; exact hno e x hx)
    refine ⟨hfault, H.skip hfold (outlives_foldOne H.coherent).1 (still_foldOne H.coherent hnone)
      fun mark c => ?_⟩
    rw [hmarks, H.foreign_iff hg htypes hno he]

/-- **So does a run.** -/
theorem foldEach (hg : g.Coherent named) (hno : g.NoPlainExtension) (htypes : ExtendsTypes g)
    (H : Course named g done k)
    (hids : ∀ e ∈ ids, ∃ x, g.declaration? e = some x ∧ x.kind.isExtension = true)
    (hnew : (done ++ ids).Nodup) : (Extensions.foldEach k ids).fault = none ∧
      Course named g (done ++ ids) (Extensions.foldEach k ids).graph := by
  induction ids generalizing done k with
  | nil =>
      rw [List.append_nil]
      exact ⟨rfl, H⟩
  | cons e ids ih =>
      obtain ⟨x, hx, hext⟩ := hids e List.mem_cons_self
      have he : e ∉ done := fun hmem =>
        (List.nodup_append.1 hnew).2.2 e hmem e List.mem_cons_self rfl
      obtain ⟨hfault, H'⟩ := H.foldOne hg hno htypes hx hext he
      have happend : done ++ e :: ids = done ++ [e] ++ ids := by simp
      rw [happend] at hnew ⊢
      rw [Extensions.foldEach, hfault]
      exact ih H' (fun a ha => hids a (List.mem_cons_of_mem e ha)) hnew

end Course

/-! ## After a run -/

/-- Where nothing is folded and whatever extends a foreign type is retained, a run changes nothing. -/
theorem foldEach_eq_done (hg : g.Coherent named) (hno : g.NoPlainExtension)
    (hids : ∀ e ∈ ids, ∀ x, g.declaration? e = some x → x.kind.isExtension = true)
    (hnone : ∀ e ∈ ids, ¬ ∃ t, Folds g e t)
    (hretained : ∀ e ∈ ids, Foreign g e → e ∈ (g.marks.of .retained).toList) :
    foldEach g ids = .done g := by
  induction ids with
  | nil => rfl
  | cons e ids ih =>
      have hone : foldOne g e = .done g := by
        have T : Turn named g e (foldOne g e) := turn_foldOne hg
        generalize foldOne g e = o at T
        cases T with
        | gone | proto => rfl
        | unmapped hx hk =>
            have hplain := Kind.eq_plainExtension
              (Kind.isExtension_iff.1 (hids e List.mem_cons_self _ hx)) hk
            exact absurd hplain (hno e _ hx)
        | foreign hx _ ht =>
            have hmem := hretained e List.mem_cons_self ⟨_, hx, hids e List.mem_cons_self _ hx, ht⟩
            have hset : g.marks.retained.insert e = g.marks.retained :=
              SortedSet.eq_of_mem_iff fun c => by
                rw [SortedSet.mem_insert, or_iff_right_iff_imp]
                rintro rfl
                exact hmem
            rw [mark, if_pos (hasDeclaration_of_eq hx), Marks.add, hset]
        | folded hf => exact absurd ⟨_, hf⟩ (hnone e List.mem_cons_self)
      rw [foldEach, hone]
      exact ih (fun a ha => hids a (List.mem_cons_of_mem e ha))
        (fun a ha => hnone a (List.mem_cons_of_mem e ha))
        fun a ha => hretained a (List.mem_cons_of_mem e ha)

end Extensions

/-- References say of what kind the declarations are that carry their identifiers. -/
def Graph.NamesKinds (g : Graph) : Prop :=
  ∀ r y, g.reference? r = some y → ∀ d x, g.declaration? d = some x → y.usr ∈ x.usrs.toList →
    y.kind = x.kind

theorem Graph.NamesKinds.extendsTypes (hkinds : g.NamesKinds) : Extensions.ExtendsTypes g := by
  intro e x kind _ hk r y hy _ hyk d z hz hu
  rw [← hkinds r y hy d z hz hu, hyk]
  revert hk
  cases x.kind <;> rintro ⟨⟩ <;> rfl

open Extensions in
/-- `FoldsExactly g o`: the outcome `o` is what folding is to make of `g`. -/
structure FoldsExactly (g : Graph) (o : Outcome) : Prop where
  succeeds : o.fault = none
  /-- Just the extensions that resolve to a type of the program are gone. -/
  removed : ∀ d, g.hasDeclaration d = true →
    (o.graph.hasDeclaration d = false ↔ ∃ t, Folds g d t)
  /-- They are recorded with what they extend, and nothing else is. -/
  recorded : ∀ e t, Folds g e t → o.graph.folded.find? e = some t
  unrecorded : ∀ d, (¬ ∃ t, Folds g d t) → o.graph.folded.find? d = g.folded.find? d
  /-- What they enclosed is enclosed by what they extend. -/
  adopted : ∀ c e t, o.graph.hasDeclaration c = true → g.parentOf? c = some e → Folds g e t →
    o.graph.parentOf? c = some t
  /-- Everything else is where it was. -/
  kept : ∀ c, o.graph.hasDeclaration c = true →
    (∀ e, g.parentOf? c = some e → ¬ ∃ t, Folds g e t) → o.graph.parentOf? c = g.parentOf? c
  /-- Nothing changes kind, identifiers, accessibility or whatever else the source says, or is new. -/
  symbol : ∀ d x, o.graph.declaration? d = some x →
    ∃ y, g.declaration? d = some y ∧ x.toSymbol = y.toSymbol
  /-- Just the extensions of foreign types are retained in addition. -/
  marks : ∀ mark d, o.graph.hasDeclaration d = true → (o.graph.isMarked mark d = true ↔
    g.isMarked mark d = true ∨ (mark = .retained ∧ Foreign g d))
  /-- Folding again changes nothing at all. -/
  again : foldAll o.graph = .done o.graph

open Extensions in
/-- **Folding takes out just the extensions of types that the program declares.** -/
theorem foldsExactly_of_built (hg : g.Built) (hno : g.NoPlainExtension) (hkinds : g.NamesKinds)
    (hnone : ∀ e x, g.declaration? e = some x → x.kind.isExtension = true → x.parameters = ∅) :
    FoldsExactly g (foldAll g) := by
  have hc : g.Coherent False := hg.coherent
  have htypes := hkinds.extendsTypes
  have hmem : ∀ e, e ∈ g.declarationsOfKinds Kind.extensions ↔
      ∃ x, g.declaration? e = some x ∧ x.kind.isExtension = true := fun e => by
    simp only [hc.mem_declarationsOfKinds, Kind.isExtension_iff]
  have hfolds : ∀ c, (c ∈ g.declarationsOfKinds Kind.extensions ∧ ∃ t, Folds g c t) ↔
      ∃ t, Folds g c t := fun c => by
    refine and_iff_right_of_imp ?_
    rintro ⟨t, hf⟩
    obtain ⟨x, -, hx, -⟩ := id hf
    exact (hmem c).2 ⟨x, hx, hf.isExtension hx⟩
  have hforeign : ∀ c, (c ∈ g.declarationsOfKinds Kind.extensions ∧ Foreign g c) ↔ Foreign g c :=
    fun c => by
      refine and_iff_right_of_imp ?_
      rintro ⟨x, hx, hext, -⟩
      exact (hmem c).2 ⟨x, hx, hext⟩
  have hnodup : ([] ++ g.declarationsOfKinds Kind.extensions).Nodup := by
    rw [List.nil_append]
    exact nodup_sortByKey
  obtain ⟨hfault, C⟩ :=
    (Course.refl hc hnone).foldEach hc hno htypes (fun e he => (hmem e).1 he) hnodup
  rw [List.nil_append] at C
  have hlive : ∀ d, (foldAll g).graph.hasDeclaration d = true ↔
      g.hasDeclaration d = true ∧ ¬ ∃ t, Folds g d t := fun d => by
    rw [foldAll, C.live, hfolds]
  refine ⟨hfault, fun d hd => ?_, fun e t hf => ?_, fun d hd => ?_, fun c e t hc hp hf => ?_,
    fun c hc hp => ?_, fun d x hx => ?_, fun mark d hd => ?_, ?_⟩
  · rw [← Bool.not_eq_true, hlive]
    simp [hd]
  · exact C.recorded e t ((hfolds e).2 ⟨t, hf⟩).1 hf
  · exact C.unrecorded d fun hf => hd hf.2
  · exact C.adopted c e t hc hp ((hfolds e).2 ⟨t, hf⟩).1 hf
  · exact C.kept c hc fun e he hf => hp e he hf.2
  · obtain ⟨y, hy, hs⟩ := C.exists_declaration hx
    exact ⟨y, hy, hs.symm⟩
  · rw [isMarked_iff, isMarked_iff, foldAll, C.marks mark d hd, hforeign]
  · have hkno : (foldAll g).graph.NoPlainExtension := fun d x hx => by
      obtain ⟨y, hy, hs⟩ := C.exists_declaration hx
      rw [← hs]
      exact hno d y hy
    have hids : ∀ e ∈ (foldAll g).graph.declarationsOfKinds Kind.extensions,
        ∀ x, (foldAll g).graph.declaration? e = some x → x.kind.isExtension = true := fun e he x hx =>
      Kind.isExtension_iff.2 (isExtension_of_mem C.coherent he hx)
    refine foldEach_eq_done C.coherent hkno hids (fun e he => ?_) fun e he hf => ?_
    · rintro ⟨t, hf⟩
      obtain ⟨x, -, hx, -⟩ := id hf
      have hed := hasDeclaration_of_eq hx
      exact ((hlive e).1 hed).2 ⟨t, (C.folds_iff hc htypes hed).1 hf⟩
    · obtain ⟨x, hx, -⟩ := id hf
      have hed := hasDeclaration_of_eq hx
      exact (C.marks .retained e hed).2
        (.inr ⟨rfl, (hforeign e).2 ((C.foreign_iff hc htypes hno hed).1 hf)⟩)

/-- A struct with an extension that brings a class and an extension of this class, a protocol with an
extension, and an extension of a type from elsewhere. -/
def extensionInExtension : Document :=
  { fragments := [
      { file := { path := ⟨"a.swift"⟩, modules := .singleton "App" }
        declarations := [
          { kind := .structType, usrs := ["S"], name := some "S", line := 1 },
          { kind := .structExtension, usrs := ["S+"], name := some "S", line := 3
            declarations := [
              { kind := .classExtension, usrs := ["C+"], name := some "C", line := 4
                declarations := [{ kind := .instanceMethod, usrs := ["C.f"], line := 5 }]
                references := [{ kind := .classType, usr := "C", line := 4, role := .extendedType }] },
              { kind := .classType, usrs := ["C"], name := some "C", line := 7 }]
            references := [{ kind := .structType, usr := "S", line := 3, role := .extendedType }] },
          { kind := .protocolType, usrs := ["P"], name := some "P", line := 9 },
          { kind := .protocolExtension, usrs := ["P+"], name := some "P", line := 10
            references := [{ kind := .protocolType, usr := "P", line := 10, role := .extendedType }] },
          { kind := .structExtension, usrs := ["Array+"], name := some "Array", line := 12
            references := [
              { kind := .structType, usr := "Array", line := 12, role := .extendedType }] }] }] }

open Extensions in
/-- Both inner ones are folded; the one of the protocol stays, and the last one is retained. -/
theorem foldsExactly_of_built_extensionInExtension :
    FoldsExactly (ofDocument extensionInExtension).1 (foldAll (ofDocument extensionInExtension).1) ∧
      (foldAll (ofDocument extensionInExtension).1).graph.declIds.map DeclId.index =
        [0, 3, 4, 5, 6, 7] ∧
      (foldAll (ofDocument extensionInExtension).1).graph.parentOf? ⟨3⟩ = some ⟨4⟩ ∧
      (foldAll (ofDocument extensionInExtension).1).graph.parentOf? ⟨4⟩ = some ⟨0⟩ ∧
      (foldAll (ofDocument extensionInExtension).1).graph.marks.retained.toList = [⟨7⟩] := by
  have hplain : ∀ d ∈ (ofDocument extensionInExtension).1.declIds,
      ∀ x ∈ (ofDocument extensionInExtension).1.declaration? d, x.kind ≠ .plainExtension ∧
        (x.kind.isExtension = true → x.parameters = ∅) := by decide +kernel
  have hkinds : ∀ r ∈ (ofDocument extensionInExtension).1.refIds,
      ∀ y ∈ (ofDocument extensionInExtension).1.reference? r,
        ∀ d ∈ (ofDocument extensionInExtension).1.declIds,
          ∀ x ∈ (ofDocument extensionInExtension).1.declaration? d,
            y.usr ∈ x.usrs.toList → y.kind = x.kind := by decide +kernel
  refine ⟨foldsExactly_of_built (reachable_ofDocument extensionInExtension).built
    (fun d x hx => (hplain d (mem_declIds.2 (hasDeclaration_of_eq hx)) x hx).1)
    (fun r y hy d x hx => hkinds r (mem_refIds.2 (hasReference_of_eq hy)) y hy d
      (mem_declIds.2 (hasDeclaration_of_eq hx)) x hx)
    (fun e x hx => (hplain e (mem_declIds.2 (hasDeclaration_of_eq hx)) x hx).2), ?_⟩
  decide +kernel

end Deadwood

/-
  Which uses folding loses.

  1. **One turn** — a turn folds an extension, or it leaves declarations and references alone
     (`Runs.turn`).  A reference that is there after it is made by who made it before, or by what
     its maker was folded into (`Transfer.referencingDeclaration?`).

  2. **Losses (`Lost`)** — the reference to the extended type is removed with what is nested in it, and
     a reference whose equal is there already goes the same way.  What is nested in either is lost.  The
     crux is that an equal stands for the reference that went, but nothing stands for what was nested
     in it; and that such an equal may be lost itself at a later turn.

  3. **Runs (`keepsUses_of_ingested`)** — all other uses are there after folding, made by who made them
     or by what this one was folded into.
-/
import Deadwood.Proofs.Extensions.Exactness

namespace Deadwood

open Deadwood.Graph Relation

variable {g h k : Graph} {a b c d e t : DeclId} {p q r s : RefId} {ids : List DeclId}
  {named : Prop} {x : Declaration} {y z : Reference} {o o' : Option DeclId}

/-- `EndsIn k o o'`: what is folded into what, from `o` on, ends in `o'`. -/
def Graph.EndsIn (k : Graph) (o o' : Option DeclId) : Prop :=
  Option.Rel (ReflTransGen fun a b => k.folded.find? a = some b) o o' ∧
    ∀ d, o' = some d → k.folded.find? d = none

namespace Extensions

/-! ## One turn -/

/-- What is folded is gone and recorded. -/
theorem recorded_foldOne (hg : g.Coherent named) (hf : Folds g e t) :
    (foldOne g e).graph.hasDeclaration e = false ∧ (foldOne g e).graph.folded = g.folded.insert e t := by
  have T : Turn named g e (foldOne g e) := turn_foldOne hg
  generalize foldOne g e = o at T
  obtain ⟨x, kind, hx, hk, hproto, ht⟩ := id hf
  cases T with
  | gone hy => rw [hx] at hy; cases hy
  | unmapped hy hnone => rw [hx] at hy; cases hy; rw [hk] at hnone; cases hnone
  | foreign _ _ hnone => rw [ht] at hnone; cases hnone
  | proto hy hp => rw [hx] at hy; cases hy; rw [hk] at hp; cases hp; exact absurd rfl hproto
  | @folded u k hfu H =>
      have F : Felled (k.subtree e) ((k.subtree e).flatMap k.referencesFrom) k
          (k.removeDeclaration e) := felled_removeDeclaration H.coherent
      refine ⟨?_, (congrArg Notes.folded F.results).trans ?_⟩
      · have hin : e ∈ k.subtree e := mem_subtree.2 (.here (mem_declIds.2
          (H.hasDeclaration.trans (hasDeclaration_of_eq hx))))
        exact Bool.eq_false_iff.2 fun hd => (F.hasDeclaration_iff.1 hd).2 hin
      · exact H.folded.trans (by rw [hf.unique hfu])

namespace Transfer

variable (T : Transfer named g e t q k)
include T

/-- Who makes a reference made it before, or took it over. -/
theorem referencingDeclaration? (hg : g.Owned) (hr : k.hasReference r = true) :
    k.referencingDeclaration? r = (g.referencingDeclaration? r).map fun d => if d = e then t else d := by
  -- along the way out, whose numbers get smaller
  induction hn : r.index using Nat.strong_induction_on generalizing r with
  | _ n ih =>
      rw [T.coherent.toOwned.referencingDeclaration?_step, hg.referencingDeclaration?_step, T.owner r hr]
      rcases ho : g.ownerOf? r with _ | ⟨d | u⟩
      · simp
      · by_cases hd : d = e <;> simp [hd]
      · have hk : k.ownerOf? r = some (.reference u) := by rw [T.owner r hr, ho]; simp
        have hlt := hg.owner_lt r u ho
        simpa using ih u.index (hn ▸ hlt) (T.coherent.toOwned.owner_live hk) rfl

end Transfer

/-! ## Losses -/

/-- `Chosen g ids r`: at the turn of one of the extensions `ids`, `r` names what it is folded into. -/
inductive Chosen : Graph → List DeclId → RefId → Prop where
  | now {g : Graph} {e t : DeclId} {ids : List DeclId} {q : RefId} (hf : Folds g e t)
      (hq : g.extendedTypeReference e = .ok (some q)) : Chosen g (e :: ids) q
  | later {g : Graph} {e : DeclId} {ids : List DeclId} {r : RefId}
      (hr : Chosen (foldOne g e).graph ids r) : Chosen g (e :: ids) r

/-- `Lost g ids r`: at the turn of one of the extensions `ids` the use `r` is lost. -/
inductive Lost : Graph → List DeclId → RefId → Prop where
  /-- It stands in the reference to the extended type. -/
  | insideChosen {g : Graph} {e t : DeclId} {ids : List DeclId} {q r : RefId} (hf : Folds g e t)
      (hq : g.extendedTypeReference e = .ok (some q)) (hn : g.Nests q r) (hne : r ≠ q) :
      Lost g (e :: ids) r
  /-- It stands in a reference whose equal the extended type makes. -/
  | insideEqual {g : Graph} {e t : DeclId} {ids : List DeclId} {p q r s : RefId} (hf : Folds g e t)
      (hq : g.extendedTypeReference e = .ok (some q)) (hp : g.ownerOf? p = some (.declaration e))
      (hpq : p ≠ q) (hs : g.EqualAt t p s) (hn : g.Nests p r) (hne : r ≠ p) : Lost g (e :: ids) r
  /-- The reference that stands for it names what is folded into at a later turn. -/
  | equalChosen {g : Graph} {e t : DeclId} {ids : List DeclId} {q r s : RefId} (hf : Folds g e t)
      (hq : g.extendedTypeReference e = .ok (some q)) (hr : g.ownerOf? r = some (.declaration e))
      (hrq : r ≠ q) (hs : g.EqualAt t r s) (hchosen : Chosen (foldOne g e).graph ids s) :
      Lost g (e :: ids) r
  /-- The reference that stands for it is lost at a later turn. -/
  | equalLost {g : Graph} {e t : DeclId} {ids : List DeclId} {q r s : RefId} (hf : Folds g e t)
      (hq : g.extendedTypeReference e = .ok (some q)) (hr : g.ownerOf? r = some (.declaration e))
      (hrq : r ≠ q) (hs : g.EqualAt t r s) (hlost : Lost (foldOne g e).graph ids s) :
      Lost g (e :: ids) r
  /-- It is lost at a later turn. -/
  | later {g : Graph} {e : DeclId} {ids : List DeclId} {r : RefId}
      (hr : (foldOne g e).graph.hasReference r = true) (hlost : Lost (foldOne g e).graph ids r) :
      Lost g (e :: ids) r

/-! ## Runs -/

/-- `Runs named g ids`: folding the extensions `ids` goes through, where no extension has unused
parameters and none is folded into itself. -/
structure Runs (named : Prop) (g : Graph) (ids : List DeclId) : Prop where
  coherent : g.Coherent named
  succeeds : (foldEach g ids).fault = none
  parameters : ∀ e x, g.declaration? e = some x → x.kind.isExtension = true → x.parameters = ∅
  apart : ∀ e, (foldEach g ids).graph.folded.find? e ≠ some e

theorem find?_folded_foldOne (hg : g.Coherent named) (hd : g.hasDeclaration d = false) :
    (foldOne g e).graph.folded.find? d = g.folded.find? d := by
  by_cases hf : ∃ t, Folds g e t
  · obtain ⟨t, hf⟩ := hf
    obtain ⟨x, -, hx, -⟩ := id hf
    have hne : d ≠ e := by
      rintro rfl
      rw [hasDeclaration_of_eq hx] at hd
      cases hd
    rw [(recorded_foldOne hg hf).2, SortedMap.find?_insert, if_neg hne]
  · rw [(still_foldOne hg hf).folded]

/-- What is gone keeps its record. -/
theorem find?_folded_foldEach (hg : g.Coherent named) (hd : g.hasDeclaration d = false) :
    (foldEach g ids).graph.folded.find? d = g.folded.find? d := by
  induction ids generalizing g with
  | nil => rfl
  | cons e ids ih =>
      obtain ⟨hc, H⟩ := outlives_foldOne hg (e := e)
      rw [foldEach]
      split
      · exact find?_folded_foldOne hg hd
      · refine (ih hc ?_).trans (find?_folded_foldOne hg hd)
        refine Bool.eq_false_iff.2 fun hlive => ?_
        rw [H.live hlive] at hd
        cases hd

namespace Runs

section Turn

variable (H : Runs named g (e :: ids))
include H

theorem foldEach_cons : foldEach g (e :: ids) = foldEach (foldOne g e).graph ids := by
  have hf := H.succeeds
  rw [foldEach] at hf ⊢
  cases hone : (foldOne g e).fault with
  | some fault =>
      rw [hone] at hf
      rw [hone] at hf
      cases hf
  | none => rfl

/-- What is folded is recorded to the end. -/
theorem find?_folded (hf : Folds g e t) : (foldEach g (e :: ids)).graph.folded.find? e = some t := by
  obtain ⟨hgone, hrec⟩ := recorded_foldOne H.coherent hf
  rw [H.foldEach_cons, find?_folded_foldEach (outlives_foldOne H.coherent).1 hgone, hrec,
    SortedMap.find?_insert, if_pos rfl]

theorem transfer (hf : Folds g e t) (hq : g.extendedTypeReference e = .ok (some q)) :
    e ≠ t ∧ g.ownerOf? q = some (.declaration e) ∧ Transfer named g e t q (foldOne g e).graph := by
  have hne : e ≠ t := by
    rintro rfl
    exact H.apart e (H.find?_folded hf)
  obtain ⟨q', k, hq', ho, hone, T⟩ := transfer_foldOne H.coherent hf hne fun x hx =>
    H.parameters e x hx (hf.isExtension hx)
  rw [hq] at hq'
  cases hq'
  exact ⟨hne, ho, by rw [hone]; exact T⟩

/-- A turn folds an extension, or it leaves declarations and references alone. -/
theorem turn : (∃ t q, Folds g e t ∧ g.extendedTypeReference e = .ok (some q)) ∨
    (¬ ∃ t, Folds g e t) ∧ Still g (foldOne g e).graph := by
  by_cases hf : ∃ t, Folds g e t
  · obtain ⟨t, hf⟩ := hf
    obtain ⟨q, hq, -⟩ := hf.exists_chosen H.coherent.toOwned
    exact .inl ⟨t, q, hf, hq⟩
  · exact .inr ⟨hf, still_foldOne H.coherent hf⟩

theorem tail : Runs named (foldOne g e).graph ids := by
  have hrun := H.foldEach_cons
  refine ⟨(outlives_foldOne H.coherent).1, ?_, fun c x hx hext => ?_, fun c => ?_⟩
  · rw [← hrun]
    exact H.succeeds
  · rcases H.turn with ⟨t, q, hf, hq⟩ | ⟨-, S⟩
    · exact (H.transfer hf hq).2.2.parameters_eq H.parameters hx hext
    · rw [S.declaration] at hx
      exact H.parameters c x hx hext
  · rw [← hrun]
    exact H.apart c

end Turn

/-- No reference is made. -/
theorem live (H : Runs named g ids) (hr : (foldEach g ids).graph.hasReference r = true) :
    g.hasReference r = true := by
  induction ids generalizing g with
  | nil => exact hr
  | cons e ids ih =>
      rw [H.foldEach_cons] at hr
      have hk := ih H.tail hr
      rcases H.turn with ⟨t, q, hf, hq⟩ | ⟨-, S⟩
      · exact (((H.transfer hf hq).2.2.live r).1 hk).1
      · rwa [S.hasReference] at hk

theorem gone_of_sheds (H : Runs named g (e :: ids)) (hf : Folds g e t)
    (hq : g.extendedTypeReference e = .ok (some q)) (hr : Sheds g e t q r) :
    (foldEach g (e :: ids)).graph.hasReference r = false := by
  refine Bool.eq_false_iff.2 fun hlive => ?_
  rw [H.foldEach_cons] at hlive
  exact (((H.transfer hf hq).2.2.live r).1 (H.tail.live hlive)).2 hr

/-- What names the target of a fold is gone at the end. -/
theorem gone_of_chosen (H : Runs named g ids) (hr : Chosen g ids r) :
    (foldEach g ids).graph.hasReference r = false := by
  induction hr with
  | now hf hq =>
      have ho := (H.transfer hf hq).2.1
      exact H.gone_of_sheds hf hq (.inl (.here (mem_refIds.2 (live_of_ownerOf? ho))))
  | later _ ih =>
      rw [H.foldEach_cons]
      exact ih H.tail

/-- So is what is lost. -/
theorem gone_of_lost (H : Runs named g ids) (hr : Lost g ids r) :
    (foldEach g ids).graph.hasReference r = false := by
  induction hr with
  | insideChosen hf hq hn _ => exact H.gone_of_sheds hf hq (.inl hn)
  | insideEqual hf hq hp hpq hs hn _ => exact H.gone_of_sheds hf hq (.inr ⟨_, hp, hpq, ⟨_, hs⟩, hn⟩)
  | equalChosen hf hq hr hrq hs _ | equalLost hf hq hr hrq hs _ =>
      exact H.gone_of_sheds hf hq
        (.inr ⟨_, hr, hrq, ⟨_, hs⟩, .here (mem_refIds.2 (live_of_ownerOf? hr))⟩)
  | later _ _ ih =>
      rw [H.foldEach_cons]
      exact ih H.tail

/-- One link more at the beginning. -/
theorem rel_of_map {R : DeclId → DeclId → Prop} (het : R e t)
    (h : Option.Rel (ReflTransGen R) (o.map fun d => if d = e then t else d) o') :
    Option.Rel (ReflTransGen R) o o' := by
  cases o with
  | none =>
      cases h
      exact .none
  | some d =>
      cases h with
      | some h =>
          refine .some ?_
          dsimp only at h
          by_cases hd : d = e
          · subst hd
            rw [if_pos rfl] at h
            exact .head het h
          · rwa [if_neg hd] at h

/-- Only what has its equal at the target goes without being lost. -/
theorem exists_equalAt_of_sheds (hf : Folds g e t) (hq : g.extendedTypeReference e = .ok (some q))
    (hsheds : Sheds g e t q r) (hchosen : ¬ Chosen g (e :: ids) r) (hlost : ¬ Lost g (e :: ids) r) :
    g.ownerOf? r = some (.declaration e) ∧ r ≠ q ∧ ∃ s, g.EqualAt t r s := by
  rcases hsheds with hn | ⟨p, hp, hpq, ⟨s, hs⟩, hn⟩
  · by_cases hrq : r = q
    · exact absurd (hrq ▸ Chosen.now hf hq) hchosen
    · exact absurd (.insideChosen hf hq hn hrq) hlost
  · by_cases hrp : r = p
    · exact hrp ▸ ⟨hp, hpq, s, hs⟩
    · exact absurd (.insideEqual hf hq hp hpq hs hn hrp) hlost

/-- **A use that is neither lost nor names a target is there at the end**, and unless its equal was
there, it is the same one. -/
theorem exists_kept (H : Runs named g ids) (hy : g.reference? r = some y)
    (hchosen : ¬ Chosen g ids r) (hlost : ¬ Lost g ids r) :
    ∃ s z, (foldEach g ids).graph.reference? s = some z ∧ z.toMention.key = y.toMention.key ∧
      Option.Rel (ReflTransGen fun a b => (foldEach g ids).graph.folded.find? a = some b)
        (g.referencingDeclaration? r) ((foldEach g ids).graph.referencingDeclaration? s) ∧
      ((foldEach g ids).graph.hasReference r = true → s = r) := by
  induction ids generalizing g r y with
  | nil =>
      refine ⟨r, y, hy, rfl, ?_, fun _ => rfl⟩
      show Option.Rel _ (g.referencingDeclaration? r) (g.referencingDeclaration? r)
      cases g.referencingDeclaration? r
      · exact .none
      · exact .some .refl
  | cons e ids ih =>
      have hg := H.coherent.toOwned
      have hrest : (foldOne g e).graph.hasReference r = true →
          ¬ Chosen (foldOne g e).graph ids r ∧ ¬ Lost (foldOne g e).graph ids r := fun hr =>
        ⟨fun hc => hchosen (.later hc), fun hl => hlost (.later hr hl)⟩
      rcases H.turn with ⟨t, q, hf, hq⟩ | ⟨-, S⟩
      · obtain ⟨hne, hqo, T⟩ := H.transfer hf hq
        have het := H.find?_folded hf
        rw [H.foldEach_cons] at het ⊢
        by_cases hsheds : Sheds g e t q r
        · obtain ⟨hro, hrq, s, hs⟩ := exists_equalAt_of_sheds hf hq hsheds hchosen hlost
          have hslive := T.live_of_held hg hqo hs.ownerOf? hne.symm
          obtain ⟨z, hz⟩ := hasReference_iff.1 hslive
          obtain ⟨w, hw, hwz⟩ := T.mention_eq hz
          obtain ⟨u, v, huv, hkey, hrel, -⟩ := ih H.tail hz
            (fun hc => hlost (.equalChosen hf hq hro hrq hs hc))
            fun hl => hlost (.equalLost hf hq hro hrq hs hl)
          refine ⟨u, v, huv, ?_, ?_, fun hlive => ?_⟩
          · obtain ⟨y', w', hy', hw', -, hsame⟩ := hs
            rw [hy] at hy'
            rw [hw] at hw'
            cases hy'
            cases hw'
            rw [hkey, ← hwz, hsame]
          · have hks : g.ownerOf? s = some (.declaration t) := hs.ownerOf?
            rw [T.referencingDeclaration? hg hslive, hg.referencingDeclaration?_of_held hks,
              Option.map_some, if_neg (Ne.symm hne)] at hrel
            rw [hg.referencingDeclaration?_of_held hro]
            refine rel_of_map het ?_
            rwa [Option.map_some, if_pos rfl]
          · exact absurd hsheds (((T.live r).1 (H.tail.live hlive)).2)
        · have hr : (foldOne g e).graph.hasReference r = true :=
            (T.live r).2 ⟨hasReference_of_eq hy, hsheds⟩
          obtain ⟨z, hz⟩ := hasReference_iff.1 hr
          obtain ⟨w, hw, hwz⟩ := T.mention_eq hz
          rw [hy] at hw
          cases hw
          obtain ⟨u, v, huv, hkey, hrel, hsame⟩ := ih H.tail hz (hrest hr).1 (hrest hr).2
          rw [T.referencingDeclaration? hg hr] at hrel
          exact ⟨u, v, huv, by rw [hkey, hwz], rel_of_map het hrel, hsame⟩
      · have hr : (foldOne g e).graph.reference? r = some y := by rw [S.reference, hy]
        have hlive := hrest (hasReference_of_eq hr)
        have hdecl := S.referencingDeclaration? hg H.tail.coherent.toOwned (r := r)
        rw [H.foldEach_cons, ← hdecl]
        exact ih H.tail hr hlive.1 hlive.2

/-- An extension whose turn comes says what it extends. -/
theorem extended?_ne_none (H : Runs named g ids) (he : e ∈ ids) (hx : g.declaration? e = some x) :
    x.kind.extended? ≠ none := by
  induction ids generalizing g x with
  | nil => cases he
  | cons a ids ih =>
      intro hnone
      have hf := H.succeeds
      rw [foldEach] at hf
      rcases List.mem_cons.1 he with rfl | he
      · have hfault := fault_foldOne_of_unmapped hx hnone
        cases hone : (foldOne g e).fault with
        | none => exact hfault hone
        | some fault =>
            rw [hone] at hf
            rw [hone] at hf
            cases hf
      · rcases H.turn with ⟨t, q, hfold, hq⟩ | ⟨-, S⟩
        · have T := (H.transfer hfold hq).2.2
          have hea : e ≠ a := by
            rintro rfl
            obtain ⟨y, kind, hy, hk, -⟩ := hfold
            rw [hx] at hy
            cases hy
            rw [hk] at hnone
            cases hnone
          have hs := T.symbol e hea
          rw [hx] at hs
          obtain ⟨w, hw, hws⟩ := Option.map_eq_some_iff.1 hs
          exact ih H.tail he hw (by rw [hws]; exact hnone)
        · exact ih H.tail he ((S.declaration e).trans hx) hnone

/-- Nothing that is there is recorded as folded, if nothing was. -/
theorem settled (H : Runs named g ids)
    (hg : ∀ d, g.hasDeclaration d = true → g.folded.find? d = none)
    (hd : (foldEach g ids).graph.hasDeclaration d = true) :
    (foldEach g ids).graph.folded.find? d = none := by
  induction ids generalizing g with
  | nil => exact hg d hd
  | cons e ids ih =>
      rw [H.foldEach_cons] at hd ⊢
      refine ih H.tail (fun c hc => ?_) hd
      have hlive := (outlives_foldOne H.coherent (e := e)).2.live hc
      rcases H.turn with ⟨t, q, hf, -⟩ | ⟨-, S⟩
      · obtain ⟨hgone, hrec⟩ := recorded_foldOne H.coherent hf
        have hne : c ≠ e := by
          rintro rfl
          rw [hc] at hgone
          cases hgone
        rw [hrec, SortedMap.find?_insert, if_neg hne]
        exact hg c hlive
      · rw [S.folded]
        exact hg c hlive

end Runs

/-- The reference that an extension is folded by is one of its own. -/
theorem Folds.ownerOf?_chosen (hg : g.Owned) (hf : Folds g e t)
    (hq : g.extendedTypeReference e = .ok (some q)) : g.ownerOf? q = some (.declaration e) := by
  obtain ⟨q', hq', ho⟩ := hf.exists_chosen hg
  rw [hq] at hq'
  cases hq'
  exact ho

/-- **Nothing is lost where nothing is nested** in what extensions refer to, as long as extensions
extend types. -/
theorem Course.not_lost (hg : g.Coherent named) (hno : g.NoPlainExtension) (htypes : ExtendsTypes g)
    (hflat : ∀ e t, Folds g e t → ∀ p u, g.ownerOf? p = some (.declaration e) → ¬ g.NestedIn u p)
    {done : List DeclId} (C : Course named g done k)
    (hids : ∀ e ∈ ids, ∃ x, g.declaration? e = some x ∧ x.kind.isExtension = true)
    (hnew : (done ++ ids).Nodup)
    (hr : ∀ e ∈ ids, ∀ t, Folds g e t → g.extendedTypeReference e ≠ .ok (some r)) :
    ¬ Chosen k ids r ∧ ¬ Lost k ids r := by
  induction ids generalizing done k r with
  | nil => exact ⟨nofun, nofun⟩
  | cons e ids ih =>
      obtain ⟨x, hx, hext⟩ := hids e List.mem_cons_self
      have happend : done ++ e :: ids = done ++ [e] ++ ids := by simp
      have hapart := (List.nodup_append.1 hnew).2.2
      have hpending : ∀ a ∈ e :: ids, k.hasDeclaration a = true ∧ ∀ p,
          k.ownerOf? p = some (.declaration a) ↔ g.ownerOf? p = some (.declaration a) := fun a ha => by
        obtain ⟨w, hw, hwext⟩ := hids a ha
        exact C.pending hw hwext fun hmem => hapart a hmem a ha rfl
      obtain ⟨hlive, hown⟩ := hpending e List.mem_cons_self
      have hfolds : ∀ t, Folds k e t ↔ Folds g e t := fun t => C.folds_iff hg htypes hlive
      have hinside : ∀ t p, Folds k e t → k.ownerOf? p = some (.declaration e) →
          ∀ u, k.Nests p u → u = p := by
        intro t p hf hp u hn
        rcases (C.coherent.toOwned.nests_iff.1 hn).2.cases_tail with he | ⟨v, -, hv⟩
        · exact he.symm
        · exact absurd (C.nested v p hv) (hflat e t ((hfolds t).1 hf) p v ((hown p).1 hp))
      have hchosen : ∀ t q, Folds k e t → k.extendedTypeReference e = .ok (some q) →
          g.extendedTypeReference e = .ok (some q) := by
        intro t q hf hq
        obtain ⟨y, kind, hy, hk, -⟩ := hf
        rw [← (C.resolves hg htypes hy hk).1, hq]
      obtain ⟨-, C'⟩ := C.foldOne hg hno htypes hx hext fun hmem =>
        hapart e hmem e List.mem_cons_self rfl
      have hrest := fun {s} => ih (r := s) C' (fun a ha => hids a (List.mem_cons_of_mem e ha))
        (happend ▸ hnew)
      -- what stands for a reference of an extension is made by a type
      have hequal : ∀ t s, Folds k e t → k.EqualAt t r s →
          ¬ Chosen (Extensions.foldOne k e).graph ids s ∧ ¬ Lost (Extensions.foldOne k e).graph ids s := by
        intro t s hf hs
        refine hrest fun a ha u hfa hq => ?_
        have hmem := List.mem_cons_of_mem e ha
        have ho := ((hpending a hmem).2 s).2 (hfa.ownerOf?_chosen hg.toOwned hq)
        have hat : a = t := by
          rw [hs.ownerOf?] at ho
          cases ho
          rfl
        obtain ⟨w, hw, hwext⟩ := hids a hmem
        exact htypes.ne hg ((hfolds t).1 hf) hw hwext hat
      have hstays := hrest fun a ha t hfa => hr a (List.mem_cons_of_mem e ha) t hfa
      constructor
      · rintro (⟨hf, hq⟩ | hlater)
        · exact hr e List.mem_cons_self _ ((hfolds _).1 hf) (hchosen _ _ hf hq)
        · exact hstays.1 hlater
      · intro hl
        cases hl with
        | insideChosen hf hq hn hne =>
            exact hne (hinside _ _ hf (hf.ownerOf?_chosen C.coherent.toOwned hq) _ hn)
        | insideEqual hf hq hp hpq hs hn hne => exact hne (hinside _ _ hf hp _ hn)
        | equalChosen hf hq hro hrq hs hc => exact (hequal _ _ hf hs).1 hc
        | equalLost hf hq hro hrq hs hl => exact (hequal _ _ hf hs).2 hl
        | later _ hl => exact hstays.2 hl

end Extensions

/-! ## What is kept -/

/-- `Keeps g k r`: what uses `r` in `g` uses the same in `k`, or what it was folded into does. -/
def Graph.Keeps (g k : Graph) (r : RefId) : Prop :=
  ∃ y s z, g.reference? r = some y ∧ k.reference? s = some z ∧ z.usr = y.usr ∧
    k.EndsIn (g.referencingDeclaration? r) (k.referencingDeclaration? s)

open Extensions in
/-- `KeepsUses g k`: `k` has the uses of `g`, but for those that are lost when the extensions of `g` are
folded one after the other. -/
structure KeepsUses (g k : Graph) : Prop where
  /-- A use that is not lost is kept. -/
  kept : ∀ r, g.hasReference r = true → ¬ Chosen g (g.declarationsOfKinds Kind.extensions) r →
    ¬ Lost g (g.declarationsOfKinds Kind.extensions) r → g.Keeps k r
  /-- What is lost is gone. -/
  gone : ∀ r, Chosen g (g.declarationsOfKinds Kind.extensions) r ∨
    Lost g (g.declarationsOfKinds Kind.extensions) r → k.hasReference r = false
  /-- A use is kept just where one that says the same, and ends at the same place, is not lost. -/
  exactly : ∀ r y, g.reference? r = some y → (g.Keeps k r ↔ ∃ s z, g.reference? s = some z ∧
    z.usr = y.usr ∧ ¬ Chosen g (g.declarationsOfKinds Kind.extensions) s ∧
      ¬ Lost g (g.declarationsOfKinds Kind.extensions) s ∧
      ∃ o, k.EndsIn (g.referencingDeclaration? r) o ∧ k.EndsIn (g.referencingDeclaration? s) o)
  /-- Where extensions extend types, they are folded into what stays. -/
  direct : ExtendsTypes g → ∀ a b, k.folded.find? a = some b → k.folded.find? b = none
  /-- Nothing is lost where, besides, nothing is nested in what folded extensions refer to. -/
  flat : ExtendsTypes g →
    (∀ e t, Folds g e t → ∀ p u, g.ownerOf? p = some (.declaration e) → ¬ g.NestedIn u p) →
      ∀ r, (∀ e t, Folds g e t → g.extendedTypeReference e ≠ .ok (some r)) →
        ¬ Chosen g (g.declarationsOfKinds Kind.extensions) r ∧
          ¬ Lost g (g.declarationsOfKinds Kind.extensions) r

namespace Graph.EndsIn

/-- There is one end. -/
theorem unique {o₁ o₂ : Option DeclId} (h₁ : k.EndsIn o o₁) (h₂ : k.EndsIn o o₂) : o₁ = o₂ := by
  obtain ⟨h₁, hend₁⟩ := h₁
  obtain ⟨h₂, hend₂⟩ := h₂
  have hstuck : ∀ a b, k.folded.find? a = none →
      ReflTransGen (fun a b => k.folded.find? a = some b) a b → a = b := by
    intro a b ha hab
    rcases hab.cases_head with he | ⟨c, hc, -⟩
    · exact he
    · rw [ha] at hc
      cases hc
  have hright : Relator.RightUnique fun a b => k.folded.find? a = some b := fun a b c hb hc =>
    Option.some.inj (hb.symm.trans hc)
  cases h₁ with
  | none => cases h₂; rfl
  | some h₁ =>
      cases h₂ with
      | some h₂ =>
          rcases h₁.total_of_right_unique hright h₂ with h | h
          · rw [hstuck _ _ (hend₁ _ rfl) h]
          · rw [hstuck _ _ (hend₂ _ rfl) h]

end Graph.EndsIn

namespace Extensions

namespace Runs

/-- What makes a reference at the end is folded into nothing, if nothing was folded before. -/
theorem folded_eq_none (H : Runs named g ids) (hempty : g.folded = ∅)
    (hd : (foldEach g ids).graph.referencingDeclaration? s = some d) :
    (foldEach g ids).graph.folded.find? d = none := by
  have hk : (foldEach g ids).graph.Owned := (outlives_foldEach H.coherent).1.toOwned
  obtain ⟨u, ho, -⟩ := hk.mem_referencesFrom.1 (hk.referencingDeclaration?_eq_some_iff.1 hd)
  exact H.settled (fun c _ => by rw [hempty]; rfl) (hk.owner_live ho)

theorem keeps (H : Runs named g ids) (hempty : g.folded = ∅) (hr : g.hasReference r = true)
    (hchosen : ¬ Chosen g ids r) (hlost : ¬ Lost g ids r) : g.Keeps (foldEach g ids).graph r := by
  obtain ⟨y, hy⟩ := hasReference_iff.1 hr
  obtain ⟨s, z, hz, hkey, hrel, -⟩ := H.exists_kept hy hchosen hlost
  exact ⟨y, s, z, hy, hz, congrArg Mention.Key.usr hkey, hrel, fun _ => H.folded_eq_none hempty⟩

theorem gone (H : Runs named g ids) (hr : Chosen g ids r ∨ Lost g ids r) :
    (foldEach g ids).graph.hasReference r = false :=
  hr.elim H.gone_of_chosen H.gone_of_lost

/-- A use is kept just where one that says the same, and ends at the same place, is not lost. -/
theorem keeps_iff (H : Runs named g ids) (hempty : g.folded = ∅) (hy : g.reference? r = some y) :
    g.Keeps (foldEach g ids).graph r ↔ ∃ s z, g.reference? s = some z ∧ z.usr = y.usr ∧
      ¬ Chosen g ids s ∧ ¬ Lost g ids s ∧
        ∃ o, (foldEach g ids).graph.EndsIn (g.referencingDeclaration? r) o ∧
          (foldEach g ids).graph.EndsIn (g.referencingDeclaration? s) o := by
  constructor
  · rintro ⟨y', s, z, hy', hz, hu, hend⟩
    rw [hy] at hy'
    cases hy'
    have hslive := hasReference_of_eq hz
    obtain ⟨w, hw⟩ := hasReference_iff.1 (H.live hslive)
    obtain ⟨hchosen, hlost⟩ : ¬ Chosen g ids s ∧ ¬ Lost g ids s :=
      not_or.1 fun hs => Bool.eq_false_iff.1 (H.gone hs) hslive
    -- what is there at the end stands for itself
    obtain ⟨s', z', hz', hkey, hrel, hsame⟩ := H.exists_kept hw hchosen hlost
    cases hsame hslive
    rw [hz] at hz'
    cases hz'
    have husr : z.usr = w.usr := congrArg Mention.Key.usr hkey
    exact ⟨s, w, hw, husr.symm.trans hu, hchosen, hlost, _, hend, hrel,
      fun _ => H.folded_eq_none hempty⟩
  · rintro ⟨s, w, hw, hu, hchosen, hlost, o, hro, hso⟩
    obtain ⟨w', s', z, hw', hz, hzu, hend⟩ := H.keeps hempty (hasReference_of_eq hw) hchosen hlost
    rw [hw] at hw'
    cases hw'
    refine ⟨y, s', z, hy, hz, hzu.trans hu, ?_⟩
    rw [hend.unique hso]
    exact hro

end Runs

/-- Only what is folded is recorded, if nothing was recorded before. -/
theorem Course.folds_of_recorded (C : Course named g ids k) (hempty : g.folded = ∅)
    (hab : k.folded.find? a = some b) : Folds g a b := by
  by_cases hfa : a ∈ ids ∧ ∃ t, Folds g a t
  · obtain ⟨ha, t, hfa⟩ := hfa
    rw [C.recorded a t ha hfa] at hab
    cases hab
    exact hfa
  · rw [C.unrecorded a hfa, hempty] at hab
    cases hab

end Extensions

open Extensions in
/-- **Folding keeps all uses but the lost ones.** -/
theorem keepsUses_of_ingested (hg : g.Ingested) (hf : (foldAll g).fault = none)
    (hnone : ∀ e x, g.declaration? e = some x → x.kind.isExtension = true → x.parameters = ∅)
    (hself : ∀ e, (foldAll g).graph.folded.find? e ≠ some e) : KeepsUses g (foldAll g).graph := by
  have hc : g.Coherent False := hg.reachable.built.coherent
  have hempty : g.folded = ∅ := congrArg Notes.folded hg.unjudged
  have H : Runs False g (g.declarationsOfKinds Kind.extensions) := ⟨hc, hf, hnone, hself⟩
  have hno : g.NoPlainExtension := fun d x hx hplain => by
    have hmem : d ∈ g.declarationsOfKinds Kind.extensions :=
      hc.mem_declarationsOfKinds.2 ⟨x, hx, by rw [hplain]; decide⟩
    exact H.extended?_ne_none hmem hx (by rw [hplain]; rfl)
  have hids : ∀ e ∈ g.declarationsOfKinds Kind.extensions,
      ∃ x, g.declaration? e = some x ∧ x.kind.isExtension = true := fun e he => by
    simpa only [hc.mem_declarationsOfKinds, Kind.isExtension_iff] using he
  have hnodup : ([] ++ g.declarationsOfKinds Kind.extensions).Nodup := by
    rw [List.nil_append]
    exact nodup_sortByKey
  refine ⟨fun r => H.keeps hempty, fun r => H.gone, fun r y => H.keeps_iff hempty,
    fun htypes a b hab => ?_, fun htypes hflat r hr => ?_⟩
  · have C := ((Course.refl hc hnone).foldEach hc hno htypes hids hnodup).2
    rw [List.nil_append] at C
    have hfa := C.folds_of_recorded hempty hab
    refine (C.unrecorded b ?_).trans (by rw [hempty]; rfl)
    rintro ⟨hb, -⟩
    obtain ⟨x, hx, hext⟩ := hids b hb
    exact htypes.ne hc hfa hx hext rfl
  · exact (Course.refl hc hnone).not_lost hc hno htypes hflat hids hnodup fun e _ => hr e

/-- A generic struct that conforms to a protocol where it is extended, and an extension that names this
protocol too and brings a property of a type with an argument. -/
def crateInBox : Document :=
  { fragments := [
      { file := { path := ⟨"a.swift"⟩, modules := .singleton "App" }
        declarations := [
          { kind := .structType, usrs := ["Box"], name := some "Box", line := 1
            related := [{ kind := .protocolType, usr := "Kept", line := 4, column := 16 }] },
          { kind := .classType, usrs := ["Item"], name := some "Item", line := 2 },
          { kind := .structExtension, usrs := ["Box+"], name := some "Box", line := 4
            declarations := [{ kind := .instanceVariable, usrs := ["Box.crate"], line := 5 }]
            references := [
              { kind := .structType, usr := "Box", line := 4, role := .extendedType },
              { kind := .structType, usr := "Crate", line := 5, role := .varType
                references := [{ kind := .classType, usr := "Item", line := 5, column := 20 }] }]
            related := [{ kind := .protocolType, usr := "Kept", line := 4, column := 16 }] }] }] }

open Extensions in
/-- The conformance is there once, and the struct uses the class now. -/
theorem keepsUses_of_ingested_crateInBox :
    KeepsUses (ofDocument crateInBox).1 (foldAll (ofDocument crateInBox).1).graph ∧
      (foldAll (ofDocument crateInBox).1).graph.refIds.map RefId.index = [0, 2, 3] ∧
      (ofDocument crateInBox).1.referencingDeclaration? ⟨3⟩ = some ⟨2⟩ ∧
      (foldAll (ofDocument crateInBox).1).graph.referencingDeclaration? ⟨3⟩ = some ⟨0⟩ := by
  have hingested : (ofDocument crateInBox).1.Ingested := Ingested.empty.ingest crateInBox
  have hparameters : ∀ d ∈ (ofDocument crateInBox).1.declIds,
      ∀ x ∈ (ofDocument crateInBox).1.declaration? d, x.parameters = ∅ := by decide +kernel
  have hfolded : (foldAll (ofDocument crateInBox).1).graph.folded =
      (∅ : SortedMap DeclId DeclId).insert ⟨2⟩ ⟨0⟩ := by decide +kernel
  refine ⟨keepsUses_of_ingested hingested (by decide +kernel)
    (fun e x hx _ => hparameters e (mem_declIds.2 (hasDeclaration_of_eq hx)) x hx) fun e => ?_, ?_⟩
  · rw [hfolded, SortedMap.find?_insert]
    split
    · rintro ⟨⟩
      contradiction
    · simp
  · decide +kernel

/-- A generic struct, a class, and an extension of the struct with the class as its argument. -/
def boxOfItems : Document :=
  { fragments := [
      { file := { path := ⟨"a.swift"⟩, modules := .singleton "App" }
        declarations := [
          { kind := .structType, usrs := ["Box"], name := some "Box", line := 1 },
          { kind := .classType, usrs := ["Item"], name := some "Item", line := 2 },
          { kind := .structExtension, usrs := ["Box+"], name := some "Box", line := 4
            references := [
              { kind := .structType, usr := "Box", line := 4, role := .extendedType
                references := [{ kind := .classType, usr := "Item", line := 4, column := 15 }] }] }] }] }

open Extensions in
/-- The one use of the class goes with the reference to the struct. -/
theorem not_keeps_boxOfItems :
    (ofDocument boxOfItems).1.Ingested ∧ (foldAll (ofDocument boxOfItems).1).fault = none ∧
      (∀ e x, (ofDocument boxOfItems).1.declaration? e = some x → x.parameters = ∅) ∧
      (∀ e, (foldAll (ofDocument boxOfItems).1).graph.folded.find? e ≠ some e) ∧
      (ofDocument boxOfItems).1.hasReference ⟨1⟩ = true ∧
      ¬ Chosen (ofDocument boxOfItems).1
        ((ofDocument boxOfItems).1.declarationsOfKinds Kind.extensions) ⟨1⟩ ∧
      ¬ (ofDocument boxOfItems).1.Keeps (foldAll (ofDocument boxOfItems).1).graph ⟨1⟩ := by
  have hparameters : ∀ d ∈ (ofDocument boxOfItems).1.declIds,
      ∀ x ∈ (ofDocument boxOfItems).1.declaration? d, x.parameters = ∅ := by decide +kernel
  have hfolded : (foldAll (ofDocument boxOfItems).1).graph.folded =
      (∅ : SortedMap DeclId DeclId).insert ⟨2⟩ ⟨0⟩ := by decide +kernel
  refine ⟨Ingested.empty.ingest boxOfItems, by decide +kernel,
    fun e x hx => hparameters e (mem_declIds.2 (hasDeclaration_of_eq hx)) x hx, fun e => ?_,
    by decide +kernel, ?_, ?_⟩
  · rw [hfolded, SortedMap.find?_insert]
    split
    · rintro ⟨⟩
      contradiction
    · simp
  · rw [show (ofDocument boxOfItems).1.declarationsOfKinds Kind.extensions = [⟨2⟩] by decide +kernel]
    rintro (⟨-, hq⟩ | hlater)
    · have hne : ((ofDocument boxOfItems).1.extendedTypeReference ⟨2⟩).toOption ≠ some (some ⟨1⟩) := by
        decide +kernel
      rw [hq] at hne
      exact hne rfl
    · cases hlater
  · rintro ⟨y, s, z, hy, hz, hu, -⟩
    have hnone : ∀ s ∈ (foldAll (ofDocument boxOfItems).1).graph.refIds,
        ∀ z ∈ (foldAll (ofDocument boxOfItems).1).graph.reference? s,
          ∀ y ∈ (ofDocument boxOfItems).1.reference? ⟨1⟩, z.usr ≠ y.usr := by decide +kernel
    exact hnone s (mem_refIds.2 (hasReference_of_eq hz)) z hz y hy hu

end Deadwood

/-
  What is found out about the tier of a declaration.

  1. **Reading (`withResults`)** — nothing that is asked of a graph reads the results about tiers and
     imports.

  2. **Recording (`find?_foldl_record`)** — each declaration gets the entry of its own.

  3. **One tier (`judge_eq`)** — where nothing is recorded yet for the tier, the entries that are added
     are those of a function of the graph (`sentence?`): a candidate gets what is suggested for it, and
     an extension what is suggested for the declaration that it extends.

  4. **The passes (`Pass.run_tier`)** — so what a pass adds is a function of the graph and the settings
     (`Pass.verdict?`), which narrows the written tier that the pass judges (`narrows_of_verdict?`).
-/
import Deadwood.Proofs.Extensions.Faults

namespace Deadwood

open Deadwood.Graph

namespace Graph

/-- The graph with other results about tiers and imports. -/
def withResults (g : Graph) (tiers : SortedMap DeclId RedundantAccess)
    (imports : SortedSet UnusedImport) : Graph :=
  { g with redundantAccess := tiers, unusedImports := imports }

/-- The graph with other results about tiers. -/
def withAccess (g : Graph) (results : SortedMap DeclId RedundantAccess) : Graph :=
  { g with redundantAccess := results }

variable {g : Graph} {r : RefId} {m : SortedMap DeclId RedundantAccess} {u : SortedSet UnusedImport}

@[simp] theorem redundantAccess_withAccess : (g.withAccess m).redundantAccess = m := rfl

/-- The way out of the references is the one question that recurses. -/
@[simp] theorem referencingDeclaration?_withResults :
    (g.withResults m u).referencingDeclaration? r = g.referencingDeclaration? r :=
  referencingDeclaration?_of_references rfl

end Graph

namespace RedundantAccess

variable {g : Graph} {c d e : DeclId} {declared tier : Tier} {m : SortedMap DeclId RedundantAccess}
  {u : SortedSet UnusedImport} {suggest : Graph → DeclId → Option Tier}
  {sameScope : Graph → DeclId → DeclId → Bool}

/-! ## Reading -/

theorem isBound_withResults : isBound (g.withResults m u) d tier = isBound g d tier := by
  have hrequirement : satisfiesRequirement (g.withResults m u) d tier =
      satisfiesRequirement g d tier := by
    unfold satisfiesRequirement
    simp only [referencingDeclaration?_withResults]
    rfl
  unfold isBound
  rw [hrequirement]
  rfl

theorem areWithinTopLevel_withResults {references : List RefId} :
    areWithinTopLevel (g.withResults m u) d references = areWithinTopLevel g d references := by
  unfold areWithinTopLevel
  simp only [referencingDeclaration?_withResults]
  rfl

theorem suggestForPublic_withResults :
    suggestForPublic (g.withResults m u) d = suggestForPublic g d := by
  have hinlinable : hasInlinableCaller (g.withResults m u) d = hasInlinableCaller g d := by
    unfold hasInlinableCaller
    simp only [referencingDeclaration?_withResults]
    rfl
  have hexposed : isInExposedSignature (g.withResults m u) d = isInExposedSignature g d := by
    unfold isInExposedSignature
    simp only [referencingDeclaration?_withResults]
    rfl
  unfold suggestForPublic
  rw [hinlinable, isBound_withResults, hexposed]
  rfl

theorem suggestForInternal_withResults :
    suggestForInternal (g.withResults m u) d = suggestForInternal g d := by
  unfold suggestForInternal
  simp only [isBound_withResults, areWithinTopLevel_withResults]
  rfl

theorem suggestForFileprivate_withResults :
    suggestForFileprivate (g.withResults m u) d = suggestForFileprivate g d := by
  unfold suggestForFileprivate
  rw [isBound_withResults, areWithinTopLevel_withResults]
  rfl

/-! ## Recording -/

/-- The entry for a declaration. -/
def entryOf? (g : Graph) (declared : Tier) (d : DeclId) (suggested : Tier) : Option RedundantAccess :=
  (g.declaration? d).map fun x =>
    ⟨declared, suggested, g.modulesOf x.location.file, x.location.file⟩

/-- Recording changes the results about tiers and nothing else. -/
theorem exists_foldl_record (declared : Tier) (found : List (DeclId × Tier)) :
    ∃ m, found.foldl (fun g f => record g declared f.1 f.2) g = g.withAccess m := by
  induction found generalizing g with
  | nil => exact ⟨g.redundantAccess, rfl⟩
  | cons f found ih =>
      have hone : ∃ m, record g declared f.1 f.2 = g.withAccess m := by
        unfold record
        split
        · exact ⟨_, rfl⟩
        · exact ⟨g.redundantAccess, rfl⟩
      obtain ⟨m, hm⟩ := hone
      obtain ⟨m', hm'⟩ := ih (g := g.withAccess m)
      exact ⟨m', by rw [List.foldl_cons, hm, hm']; rfl⟩

theorem find?_record : (record g declared d tier).redundantAccess.find? c =
    if d = c then (entryOf? g declared d tier).or (g.redundantAccess.find? c)
    else g.redundantAccess.find? c := by
  unfold record entryOf?
  cases g.declaration? d with
  | none => simp
  | some x =>
      refine SortedMap.find?_insert.trans ?_
      simp only [eq_comm, Option.map_some, Option.some_or]

/-- What is no part of the list keeps its entry. -/
theorem find?_foldl_record {found : List (DeclId × Tier)}
    (hfound : ∀ f ∈ found, f.1 ≠ d) :
    (found.foldl (fun g f => record g declared f.1 f.2) g).redundantAccess.find? d =
      g.redundantAccess.find? d := by
  refine List.foldlRecOn
    (motive := fun k : Graph => k.redundantAccess.find? d = g.redundantAccess.find? d)
    _ _ rfl fun k hk f hf => ?_
  unfold record
  split
  · exact (SortedMap.find?_insert.trans (if_neg (hfound f hf).symm)).trans hk
  · exact hk

/-- **Each declaration gets the entry that is picked for it.** -/
theorem find?_foldl_record_of_pick (declared : Tier) (pick : DeclId → Option Tier)
    (ids : List DeclId) (c : DeclId) :
    ((ids.filterMap fun d => (pick d).map (d, ·)).foldl
      (fun g f => record g declared f.1 f.2) g).redundantAccess.find? c =
      ((if c ∈ ids then pick c else none).bind (entryOf? g declared c)).or
        (g.redundantAccess.find? c) := by
  induction ids generalizing g with
  | nil => rfl
  | cons d ids ih =>
      cases hd : pick d with
      | none =>
          rw [List.filterMap_cons_none (by rw [hd]; rfl), ih]
          by_cases hc : c = d
          · subst hc
            simp [hd]
          · simp [hc]
      | some tier =>
          have hentry : entryOf? (record g declared d tier) declared c = entryOf? g declared c := by
            unfold record
            split <;> rfl
          rw [List.filterMap_cons_some (by rw [hd]; rfl), List.foldl_cons, ih, hentry, find?_record]
          by_cases hc : c = d
          · subst hc
            -- the entry of `c` may be written again, with the same content
            by_cases hagain : c ∈ ids <;> simp [hd, hagain, ← Option.or_assoc]
          · simp [hc, Ne.symm hc]

/-- Recording what is picked for each declaration of a list. -/
theorem exists_foldl_record_of_pick (declared : Tier) (pick : DeclId → Option Tier)
    (ids : List DeclId) : ∃ m,
    (ids.filterMap fun d => (pick d).map (d, ·)).foldl (fun g f => record g declared f.1 f.2) g =
      g.withAccess m ∧
    ∀ c, m.find? c = ((if c ∈ ids then pick c else none).bind (entryOf? g declared c)).or
      (g.redundantAccess.find? c) := by
  obtain ⟨m, hm⟩ := exists_foldl_record (g := g) declared
    (ids.filterMap fun d => (pick d).map (d, ·))
  refine ⟨m, hm, fun c => ?_⟩
  have hpicked := find?_foldl_record_of_pick (g := g) declared pick ids c
  rw [hm] at hpicked
  exact hpicked

/-! ## One tier -/

variable (declared suggest sameScope)

/-- What is suggested for a candidate that is no extension. -/
def ownTier? (g : Graph) (d : DeclId) : Option Tier :=
  if d ∈ candidates g declared ∧ isExtension g d = false then suggest g d else none

/-- What an extension takes over from the declaration that it extends. -/
def takenOver? (g : Graph) (e : DeclId) : Option Tier :=
  match g.extendedDeclaration e with
  | .ok (some target) =>
      if sameScope g e target then ownTier? declared suggest g target else none
  | _ => none

/-- What is suggested for a declaration. -/
def sentence? (g : Graph) (d : DeclId) : Option Tier :=
  if d ∈ candidates g declared ∧ isExtension g d = true then
    takenOver? declared suggest sameScope g d
  else ownTier? declared suggest g d

/-- Whether it is known of each extension among the candidates what it extends. -/
def Resolved (g : Graph) : Prop :=
  ∀ e ∈ candidates g declared, isExtension g e = true → ∃ t, g.extendedDeclaration e = .ok t

/-- Nothing is recorded for a tier yet. -/
def Fresh (g : Graph) : Prop := ∀ d e, g.redundantAccess.find? d = some e → e.declared ≠ declared

variable {declared suggest sameScope}

theorem sentence?_withResults (hsuggest : ∀ d, suggest (g.withResults m u) d = suggest g d)
    (hscope : ∀ d e, sameScope (g.withResults m u) d e = sameScope g d e) :
    sentence? declared suggest sameScope (g.withResults m u) d =
      sentence? declared suggest sameScope g d := by
  have hown : ∀ d, ownTier? declared suggest (g.withResults m u) d =
      ownTier? declared suggest g d := by
    intro d
    unfold ownTier?
    rw [hsuggest]
    rfl
  unfold sentence? takenOver?
  simp only [hown, hscope]
  rfl

theorem hasDeclaration_of_ownTier? (hown : ownTier? declared suggest g d = some tier) :
    g.hasDeclaration d = true := by
  obtain ⟨hmem, -⟩ := Option.ite_none_right_eq_some.1 hown
  exact (mem_sortedDeclarations.1 hmem.1).2

/-- Recording the candidates that are no extensions. -/
theorem exists_foldl_record_own (declared : Tier) (suggest : Graph → DeclId → Option Tier) : ∃ m,
    (((candidates g declared).filter (not ∘ isExtension g)).filterMap
      fun d => (suggest g d).map (d, ·)).foldl (fun g f => record g declared f.1 f.2) g =
      g.withAccess m ∧
    ∀ c, m.find? c = ((ownTier? declared suggest g c).bind (entryOf? g declared c)).or
      (g.redundantAccess.find? c) := by
  obtain ⟨m, hm, hfind⟩ := exists_foldl_record_of_pick (g := g) declared (suggest g)
    ((candidates g declared).filter (not ∘ isExtension g))
  refine ⟨m, hm, fun c => (hfind c).trans ?_⟩
  simp only [List.mem_filter, Function.comp_apply, Bool.not_eq_true', ownTier?]

/-- What going through a list answers, it answers of a member of the list. -/
theorem exists_of_mapM_eq_ok {α β ε : Type} {f : α → Except ε β} {xs : List α} {ys : List β} {b : β}
    (hys : xs.mapM f = .ok ys) (hb : b ∈ ys) : ∃ a ∈ xs, f a = .ok b := by
  induction xs generalizing ys with
  | nil =>
      cases hys
      cases hb
  | cons a xs ih =>
      rw [List.mapM_cons] at hys
      cases ha : f a with
      | error fault => rw [ha] at hys; cases hys
      | ok b' =>
          rw [ha] at hys
          cases hrest : xs.mapM f with
          | error fault => rw [hrest] at hys; cases hys
          | ok bs =>
              rw [hrest] at hys
              cases hys
              rcases List.mem_cons.1 hb with rfl | hb
              · exact ⟨a, List.mem_cons_self, ha⟩
              · obtain ⟨c, hc, hfc⟩ := ih hrest hb
                exact ⟨c, List.mem_cons_of_mem a hc, hfc⟩

/-- Going through a list answers the answers of its members. -/
theorem eq_map_of_mapM_eq_ok {α β ε : Type} {f : α → Except ε β} {b : α → β} {xs : List α}
    {ys : List β} (hf : ∀ x ∈ xs, ∀ y, f x = .ok y → y = b x) (hys : xs.mapM f = .ok ys) :
    (∀ x ∈ xs, ∃ y, f x = .ok y) ∧ ys = xs.map b := by
  induction xs generalizing ys with
  | nil =>
      cases hys
      exact ⟨fun x hx => absurd hx List.not_mem_nil, rfl⟩
  | cons x xs ih =>
      rw [List.mapM_cons] at hys
      cases hx : f x with
      | error fault => rw [hx] at hys; cases hys
      | ok y =>
          rw [hx] at hys
          cases hrest : xs.mapM f with
          | error fault => rw [hrest] at hys; cases hys
          | ok rest =>
              rw [hrest] at hys
              cases hys
              obtain ⟨hall, rfl⟩ := ih (fun x hx => hf x (List.mem_cons_of_mem _ hx)) hrest
              refine ⟨List.forall_mem_cons.2 ⟨⟨y, hx⟩, hall⟩, ?_⟩
              rw [List.map_cons, hf x List.mem_cons_self y hx]

section

variable (hfresh : Fresh declared g) (hscope : ∀ m d e, sameScope (g.withAccess m) d e = sameScope g d e)
  (hm : ∀ c, m.find? c =
    ((ownTier? declared suggest g c).bind (entryOf? g declared c)).or (g.redundantAccess.find? c))

include hfresh hscope hm

/-- An extension reads the results for its own tier only. -/
theorem inherited_withAccess : inherited (g.withAccess m) declared sameScope e =
    (g.extendedDeclaration e).map fun _ =>
      (takenOver? declared suggest sameScope g e).map (e, ·) := by
  have hextended : (g.withAccess m).extendedDeclaration e = g.extendedDeclaration e := rfl
  unfold inherited takenOver?
  rw [hextended]
  rcases g.extendedDeclaration e with fault | (_ | target)
  · rfl
  · rfl
  · have hfind : (g.withAccess m).redundantAccess.find? target = m.find? target := rfl
    simp only [bind, Except.bind, Except.map, Option.bind_some, pure, Except.pure, hfind, hm, hscope,
      bind_guard]
    cases hown : ownTier? declared suggest g target with
    | none =>
        cases hold : g.redundantAccess.find? target with
        | none => simp
        | some result => simp [hfresh target result hold]
    | some tier =>
        obtain ⟨x, hx⟩ := hasDeclaration_iff.1 (hasDeclaration_of_ownTier? hown)
        by_cases hs : sameScope g e target = true <;> simp [entryOf?, hx, hs]

/-- What the extensions among the candidates answer. -/
theorem mapM_inherited {followers : List (Option (DeclId × Tier))}
    (hok : ((candidates g declared).filter (isExtension g)).mapM
      (inherited (g.withAccess m) declared sameScope) = .ok followers) :
    Resolved declared g ∧ followers = ((candidates g declared).filter (isExtension g)).map
      fun e => (takenOver? declared suggest sameScope g e).map (e, ·) := by
  have hanswer : ∀ e y, inherited (g.withAccess m) declared sameScope e = .ok y →
      (∃ t, g.extendedDeclaration e = .ok t) ∧
        y = (takenOver? declared suggest sameScope g e).map (e, ·) := by
    intro e y hy
    rw [inherited_withAccess hfresh hscope hm] at hy
    cases hextended : g.extendedDeclaration e with
    | error fault => rw [hextended] at hy; cases hy
    | ok target =>
        rw [hextended] at hy
        exact ⟨⟨target, rfl⟩, (Except.ok.inj hy).symm⟩
  obtain ⟨hall, hfollowers⟩ := eq_map_of_mapM_eq_ok (fun e _ y hy => (hanswer e y hy).2) hok
  refine ⟨fun e he hext => ?_, hfollowers⟩
  obtain ⟨y, hy⟩ := hall e (List.mem_filter.2 ⟨he, hext⟩)
  exact (hanswer e y hy).1

end

/-- An extension takes over a tier for itself. -/
theorem fst_of_inherited {f : DeclId × Tier}
    (he : inherited g declared sameScope e = .ok (some f)) : f.1 = e := by
  unfold inherited at he
  generalize g.extendedDeclaration e = answer at he
  rcases answer with fault | (_ | target)
  · cases he
  · cases he
  · have he := Except.ok.inj he
    obtain ⟨_, -, he⟩ := Option.bind_eq_some_iff.1 he
    obtain ⟨result, -, he⟩ := Option.bind_eq_some_iff.1 he
    obtain ⟨-, -, he⟩ := Option.bind_eq_some_iff.1 he
    exact congrArg Prod.fst (Option.some.inj he).symm

/-- The declarations are judged one by one, and then the extensions, which see what was recorded. -/
theorem exists_judge_eq (declared : Tier) (suggest : Graph → DeclId → Option Tier)
    (sameScope : Graph → DeclId → DeclId → Bool) : ∃ m,
    (∀ c, m.find? c = ((ownTier? declared suggest g c).bind (entryOf? g declared c)).or
      (g.redundantAccess.find? c)) ∧
    judge g declared suggest sameScope = .andThen (g.withAccess m)
      (((candidates g declared).filter (isExtension g)).mapM
        (inherited (g.withAccess m) declared sameScope))
      fun followers => .done ((followers.filterMap id).foldl (fun g r => record g declared r.1 r.2)
        (g.withAccess m)) := by
  obtain ⟨m, hm, hown⟩ := exists_foldl_record_own (g := g) declared suggest
  refine ⟨m, hown, ?_⟩
  unfold judge
  rw [List.partition_eq_filter_filter]
  dsimp only
  rw [hm]

/-- What judging one tier adds for whatever is no extension, even where it gives up on an extension. -/
theorem exists_judge (declared : Tier) (suggest : Graph → DeclId → Option Tier)
    (sameScope : Graph → DeclId → DeclId → Bool) : ∃ m,
    (judge g declared suggest sameScope).graph = g.withAccess m ∧
    ∀ c, ¬ (c ∈ candidates g declared ∧ isExtension g c = true) →
      m.find? c = ((ownTier? declared suggest g c).bind (entryOf? g declared c)).or
        (g.redundantAccess.find? c) := by
  obtain ⟨m, hown, hjudge⟩ := exists_judge_eq (g := g) declared suggest sameScope
  rw [hjudge]
  cases hok : ((candidates g declared).filter (isExtension g)).mapM
      (inherited (g.withAccess m) declared sameScope) with
  | error fault => exact ⟨m, rfl, fun c _ => hown c⟩
  | ok followers =>
      obtain ⟨m', hm'⟩ := exists_foldl_record (g := g.withAccess m) declared (followers.filterMap id)
      refine ⟨m', hm', fun c hc => ?_⟩
      have hothers : ∀ f ∈ followers.filterMap id, f.1 ≠ c := by
        rintro f hmem rfl
        obtain ⟨follower, hfollower, hsome⟩ := List.mem_filterMap.1 hmem
        obtain ⟨e, he, hinherited⟩ := exists_of_mapM_eq_ok hok hfollower
        rw [id_eq] at hsome
        rw [hsome] at hinherited
        rw [fst_of_inherited hinherited] at hc
        exact hc (List.mem_filter.1 he)
      have hkept : ((followers.filterMap id).foldl (fun g f => record g declared f.1 f.2)
          (g.withAccess m)).redundantAccess.find? c = m.find? c := find?_foldl_record hothers
      rw [hm'] at hkept
      exact hkept.trans (hown c)

/-- **What judging one tier adds.** -/
theorem judge_eq (hfresh : Fresh declared g)
    (hscope : ∀ m d e, sameScope (g.withAccess m) d e = sameScope g d e) :
    ((judge g declared suggest sameScope).fault = none ↔ Resolved declared g) ∧
    ((judge g declared suggest sameScope).fault = none → ∃ m,
      (judge g declared suggest sameScope).graph = g.withAccess m ∧
      ∀ c, m.find? c = ((sentence? declared suggest sameScope g c).bind (entryOf? g declared c)).or
        (g.redundantAccess.find? c)) := by
  obtain ⟨m, hown, hjudge⟩ := exists_judge_eq (g := g) declared suggest sameScope
  rw [hjudge]
  cases hok : ((candidates g declared).filter (isExtension g)).mapM
      (inherited (g.withAccess m) declared sameScope) with
  | error fault =>
      refine ⟨iff_of_false (fun hnone => ?_) fun hall => ?_, fun hnone => ?_⟩
      · cases hnone
      · obtain ⟨ys, hys⟩ : ∃ ys, ((candidates g declared).filter (isExtension g)).mapM
            (inherited (g.withAccess m) declared sameScope) = .ok ys := by
          refine exists_mapM_eq_ok fun e he => ?_
          obtain ⟨he, hext⟩ := List.mem_filter.1 he
          obtain ⟨target, ht⟩ := hall e he hext
          exact ⟨_, by rw [inherited_withAccess hfresh hscope hown, ht]; rfl⟩
        rw [hok] at hys
        cases hys
      · cases hnone
  | ok followers =>
      obtain ⟨hresolved, rfl⟩ := mapM_inherited hfresh hscope hown hok
      refine ⟨iff_of_true rfl hresolved, fun _ => ?_⟩
      obtain ⟨m', hm', hfind⟩ := exists_foldl_record_of_pick (g := g.withAccess m) declared
        (takenOver? declared suggest sameScope g) ((candidates g declared).filter (isExtension g))
      refine ⟨m', ?_, fun c => ?_⟩
      · refine Eq.trans ?_ hm'
        simp only [Outcome.andThen, Outcome.done, List.filterMap_map, Function.comp_def, id_eq]
      · refine (hfind c).trans ?_
        have hold : (g.withAccess m).redundantAccess.find? c = m.find? c := rfl
        have hentry : entryOf? (g.withAccess m) declared c = entryOf? g declared c := rfl
        simp only [hold, hown, hentry, List.mem_filter, sentence?]
        -- an extension has no tier of its own
        by_cases hext : c ∈ candidates g declared ∧ isExtension g c = true
        · have hnot : ownTier? declared suggest g c = none := by simp [ownTier?, hext.2]
          rw [if_pos hext, if_pos hext, hnot, Option.bind_none, Option.none_or]
        · rw [if_neg hext, if_neg hext, Option.bind_none, Option.none_or]

/-- What is suggested is suggested for some declaration. -/
theorem exists_suggest_of_sentence? (hd : sentence? declared suggest sameScope g d = some tier) :
    d ∈ candidates g declared ∧ ∃ c, suggest g c = some tier := by
  have hown : ∀ c, ownTier? declared suggest g c = some tier →
      c ∈ candidates g declared ∧ suggest g c = some tier := fun c hc =>
    (Option.ite_none_right_eq_some.1 hc).imp_left And.left
  unfold sentence? at hd
  split at hd
  · rename_i hext
    unfold takenOver? at hd
    split at hd
    · exact ⟨hext.1, _, (hown _ (Option.ite_none_right_eq_some.1 hd).2).2⟩
    · cases hd
  · exact ⟨(hown d hd).1, d, (hown d hd).2⟩

/-- A candidate has the tier in writing. -/
theorem access_of_mem_candidates (hd : d ∈ candidates g declared) :
    ∃ x, g.declaration? d = some x ∧ x.access = ⟨declared, true⟩ := by
  obtain ⟨x, hx, hwritten⟩ := mem_declIdsWhere.1
    (List.mem_filter.1 (mem_sortedDeclarations.1 hd).1).1
  rw [Bool.and_eq_true, Access.isWritten, Bool.and_eq_true, beq_iff_eq] at hwritten
  refine ⟨x, hx, ?_⟩
  rw [← hwritten.1.2, ← hwritten.1.1]

/-! ## Narrower tiers -/

theorem suggestForPublic_lt (hd : suggestForPublic g d = some tier) :
    tier.rank < Tier.publicTier.rank := by
  obtain ⟨-, htier⟩ := Option.ite_none_right_eq_some.1 hd
  cases htier
  decide

theorem suggestForInternal_lt (hd : suggestForInternal g d = some tier) :
    tier.rank < Tier.internalTier.rank := by
  simp only [suggestForInternal, Option.bind_eq_bind, Option.bind_eq_some_iff, bind_guard,
    Option.ite_none_right_eq_some, Option.pure_def, Option.some.injEq] at hd
  obtain ⟨_, -, -, -, rfl⟩ := hd
  split <;> decide

theorem suggestForFileprivate_lt (hd : suggestForFileprivate g d = some tier) :
    tier.rank < Tier.fileprivateTier.rank := by
  obtain ⟨-, htier⟩ := Option.ite_none_right_eq_some.1 hd
  cases htier
  decide

end RedundantAccess

/-! ## The passes -/

namespace Pass

open RedundantAccess

variable {s : Settings} {g : Graph} {c d : DeclId} {pass : Pass} {e : RedundantAccess} {tier : Tier}
  {m : SortedMap DeclId RedundantAccess} {u : SortedSet UnusedImport}

/-- The tier that a pass judges. -/
def tier? : Pass → Option Tier
  | redundantPublic => some .publicTier
  | redundantInternal => some .internalTier
  | redundantFileprivate => some .fileprivateTier
  | _ => none

/-- What a pass finds out about the tier of a declaration. -/
def verdict? (s : Settings) (g : Graph) (d : DeclId) : Pass → Option RedundantAccess
  | redundantPublic =>
      if s.retainPublic then none
      else (sentence? .publicTier suggestForPublic sameModules g d).bind (entryOf? g .publicTier d)
  | redundantInternal =>
      (sentence? .internalTier suggestForInternal sameFile g d).bind (entryOf? g .internalTier d)
  | redundantFileprivate =>
      (sentence? .fileprivateTier suggestForFileprivate sameFile g d).bind
        (entryOf? g .fileprivateTier d)
  | _ => none

/-- Whether a pass that judges a tier knows what the extensions among its candidates extend. -/
def Settles (s : Settings) (g : Graph) (pass : Pass) : Prop :=
  (pass = redundantPublic → s.retainPublic = false) →
    ∀ tier, pass.tier? = some tier → Resolved tier g

/-- `e` narrows the tier that `d` has in writing. -/
structure Narrows (g : Graph) (d : DeclId) (e : RedundantAccess) : Prop where
  written : ∃ x, g.declaration? d = some x ∧ x.access = ⟨e.declared, true⟩
  narrower : e.suggested.rank < e.declared.rank

theorem Narrows.withResults (h : Narrows g d e) : Narrows (g.withResults m u) d e :=
  ⟨h.written, h.narrower⟩

/-- **A verdict narrows the written tier that the pass judges.** -/
theorem narrows_of_verdict? (hd : pass.verdict? s g d = some e) :
    pass.tier? = some e.declared ∧ Narrows g d e := by
  have hone : ∀ {declared suggest sameScope},
      (∀ c t, suggest g c = some t → t.rank < declared.rank) →
      (sentence? declared suggest sameScope g d).bind (entryOf? g declared d) = some e →
        declared = e.declared ∧ Narrows g d e := by
    intro declared suggest sameScope hlt hd
    obtain ⟨tier, htier, hentry⟩ := Option.bind_eq_some_iff.1 hd
    obtain ⟨hmem, c, hc⟩ := exists_suggest_of_sentence? htier
    obtain ⟨x, -, rfl⟩ := Option.map_eq_some_iff.1 hentry
    exact ⟨rfl, access_of_mem_candidates hmem, hlt c tier hc⟩
  cases pass with
  | redundantPublic =>
      obtain ⟨-, hd⟩ := Option.ite_none_left_eq_some.1 hd
      exact (hone (fun _ _ => suggestForPublic_lt) hd).imp_left (congrArg some)
  | redundantInternal =>
      exact (hone (fun _ _ => suggestForInternal_lt) hd).imp_left (congrArg some)
  | redundantFileprivate =>
      exact (hone (fun _ _ => suggestForFileprivate_lt) hd).imp_left (congrArg some)
  | _ => cases hd

/-- What a pass finds does not depend on what was found before. -/
theorem verdict?_withResults : pass.verdict? s (g.withResults m u) d = pass.verdict? s g d := by
  have hentry : ∀ tier, entryOf? (g.withResults m u) tier d = entryOf? g tier d := fun _ => rfl
  have hfile : ∀ c d, sameFile (g.withResults m u) c d = sameFile g c d := fun _ _ => rfl
  have hmodules : ∀ c d, sameModules (g.withResults m u) c d = sameModules g c d := fun _ _ => rfl
  cases pass with
  | redundantPublic =>
      simp only [verdict?, hentry,
        sentence?_withResults (fun _ => suggestForPublic_withResults) hmodules]
  | redundantInternal =>
      simp only [verdict?, hentry,
        sentence?_withResults (fun _ => suggestForInternal_withResults) hfile]
  | redundantFileprivate =>
      simp only [verdict?, hentry,
        sentence?_withResults (fun _ => suggestForFileprivate_withResults) hfile]
  | _ => rfl

/-- **What a pass that judges a tier adds.** -/
theorem run_tier (htier : pass.tier? = some tier) (hfresh : Fresh tier g) :
    ((pass.run s g).fault = none ↔ Settles s g pass) ∧
    ((pass.run s g).fault = none → ∃ m, (pass.run s g).graph = g.withAccess m ∧
      ∀ c, m.find? c = (pass.verdict? s g c).or (g.redundantAccess.find? c)) := by
  have hsettles : (pass ≠ redundantPublic ∨ s.retainPublic = false) →
      (Settles s g pass ↔ Resolved tier g) := by
    intro hon
    constructor
    · intro h
      exact h (fun hp => hon.resolve_left (absurd hp)) tier htier
    · intro h _ t ht
      rw [htier] at ht
      cases ht
      exact h
  cases pass with
  | redundantPublic =>
      cases htier
      simp only [run, markPublic, verdict?]
      cases hs : s.retainPublic with
      | true =>
          refine ⟨iff_of_true rfl fun hoff => ?_, fun _ => ⟨g.redundantAccess, rfl, fun _ => rfl⟩⟩
          rw [hoff rfl] at hs
          cases hs
      | false =>
          rw [hsettles (.inr hs), if_neg Bool.false_ne_true]
          simp only [if_neg Bool.false_ne_true]
          exact judge_eq hfresh fun _ _ _ => rfl
  | redundantInternal =>
      cases htier
      rw [hsettles (.inl (by decide))]
      simp only [run, markInternal, verdict?]
      exact judge_eq hfresh fun _ _ _ => rfl
  | redundantFileprivate =>
      cases htier
      rw [hsettles (.inl (by decide))]
      simp only [run, markFileprivate, verdict?]
      exact judge_eq hfresh fun _ _ _ => rfl
  | _ => cases htier

theorem tier?_cases (hp : pass.tier? = some tier) :
    (pass = redundantPublic ∧ tier = .publicTier) ∨
    (pass = redundantInternal ∧ tier = .internalTier) ∨
    (pass = redundantFileprivate ∧ tier = .fileprivateTier) := by
  cases pass with
  | redundantPublic | redundantInternal | redundantFileprivate => cases hp; simp
  | _ => cases hp

/-- No two passes judge the same tier. -/
theorem eq_of_tier? {other : Pass} (hp : pass.tier? = some tier) (ho : other.tier? = some tier) :
    pass = other := by
  rcases tier?_cases hp with ⟨rfl, rfl⟩ | ⟨rfl, rfl⟩ | ⟨rfl, rfl⟩ <;>
    rcases tier?_cases ho with ⟨rfl, h⟩ | ⟨rfl, h⟩ | ⟨rfl, h⟩ <;>
      first | rfl | cases h

end Pass

end Deadwood

/-
  Folding and cycles of parent links.

  1. **Redirected links (`Redirects`)** — folding gives the members of an extension one new parent.
     Links without cycle stay so exactly where nothing leads from that parent to one of them.

  2. **One turn (`acyclic_foldOne`)** — so a turn keeps parent links without cycle exactly where the
     extension is not folded into one of its own members, or into something inside one
     (`FoldsOutward`).  No check in folding sees to that.

  3. **All turns (`acyclic_foldEach_iff`)** — by induction over the extensions still to come.
-/
import Deadwood.Proofs.DeadTrees
import Deadwood.Proofs.Extensions.Turn

namespace Deadwood

open Deadwood.Graph Relation

/-! ## Redirected links -/

section Redirects

variable {α : Type} {r q : α → α → Prop} {M : α → Prop} {c d e m t : α}

/-- From a place that leads to a member, a path leads to a first member. -/
theorem exists_first (hout : ∀ c p, ¬ M c → q c p → r c p) (hup : ReflTransGen q c m) (hm : M m) :
    ∃ m', M m' ∧ ReflTransGen (fun c p => ¬ M c ∧ r c p) c m' := by
  induction hup using ReflTransGen.head_induction_on with
  | refl => exact ⟨m, hm, .refl⟩
  | @head c p hcp _ ih =>
      by_cases hc : M c
      · exact ⟨c, hc, .refl⟩
      · obtain ⟨m', hm', hpath⟩ := ih
        exact ⟨m', hm', .head ⟨hc, hout c p hc hcp⟩ hpath⟩

/-- `q` is `r`, except that the members of `M` lead to `t`. -/
structure Redirects (r q : α → α → Prop) (M : α → Prop) (t : α) : Prop where
  inside : ∀ c p, M c → (q c p ↔ p = t)
  outside : ∀ c p, ¬ M c → (q c p ↔ r c p)

namespace Redirects

variable (H : Redirects r q M t)

include H

/-- A path either was there before, or goes through a member and on from the new parent. -/
theorem transGen_cases (hpath : TransGen q c d) :
    TransGen r c d ∨ ∃ m, M m ∧ ReflTransGen q c m ∧ ReflTransGen q t d := by
  induction hpath with
  | @single d hcd =>
      by_cases hc : M c
      · obtain rfl := (H.inside c d hc).1 hcd
        exact .inr ⟨c, hc, .refl, .refl⟩
      · exact .inl (.single ((H.outside c d hc).1 hcd))
  | @tail b d hcb hbd ih =>
      by_cases hb : M b
      · obtain rfl := (H.inside b d hb).1 hbd
        exact .inr ⟨b, hb, hcb.to_reflTransGen, .refl⟩
      · rcases ih with hold | ⟨m, hm, hcm, htb⟩
        · exact .inl (hold.tail ((H.outside b d hb).1 hbd))
        · exact .inr ⟨m, hm, hcm, htb.tail hbd⟩

/-- Where the new parent leads to no member, no cycle comes about. -/
theorem acyclic (hacyclic : ∀ d, ¬ TransGen r d d) (hM : ∀ m, M m → ¬ ReflTransGen r t m) :
    ∀ d, ¬ TransGen q d d := by
  intro d hcycle
  rcases H.transGen_cases hcycle with hold | ⟨m, hm, hdm, htd⟩
  · exact hacyclic d hold
  · obtain ⟨m', hm', hpath⟩ := exists_first (fun c p hc => (H.outside c p hc).1) (htd.trans hdm) hm
    exact hM m' hm' (ReflTransGen.mono (fun _ _ h => h.2) _ _ hpath)

/-- Where it leads to a member, it leads to itself. -/
theorem transGen_self (hm : M m) (hup : ReflTransGen r t m) : TransGen q t t := by
  obtain ⟨m', hm', hpath⟩ := exists_first (fun _ _ _ h => h) hup hm
  have hnew : ReflTransGen q t m' :=
    ReflTransGen.mono (fun c p h => (H.outside c p h.1).2 h.2) _ _ hpath
  exact TransGen.tail' hnew ((H.inside m' t hm').2 rfl)

/-- Then it no longer leads to what the members led to before. -/
theorem not_reflTransGen (hacyclic : ∀ d, ¬ TransGen r d d)
    (hunique : ∀ c p p', r c p → r c p' → p = p') (hold : ∀ m, M m → r m e) (hm : M m)
    (hup : ReflTransGen r t m) : ¬ ReflTransGen q t e := by
  -- a path to `e` past no member starts at the new parent again
  have hpast : ∀ c, ReflTransGen q c e → ReflTransGen (fun c p => ¬ M c ∧ r c p) c e ∨
      ReflTransGen (fun c p => ¬ M c ∧ r c p) t e := by
    intro c hpath
    induction hpath using ReflTransGen.head_induction_on with
    | refl => exact .inl .refl
    | @head c p hcp _ ih =>
        by_cases hc : M c
        · obtain rfl := (H.inside c p hc).1 hcp
          exact .inr (ih.elim id id)
        · exact ih.imp_left (.head ⟨hc, (H.outside c p hc).1 hcp⟩)
  -- the only path from there leads to a member first, and so in a circle
  have hon : ∀ c, ReflTransGen (fun c p => ¬ M c ∧ r c p) c e → ReflTransGen r c m →
      ReflTransGen r e m := by
    intro c hpath
    induction hpath using ReflTransGen.head_induction_on with
    | refl => exact id
    | @head c p hcp _ ih =>
        intro hcm
        rcases ReflTransGen.cases_head hcm with rfl | ⟨p', hcp', hrest⟩
        · exact absurd hm hcp.1
        · obtain rfl := hunique c p p' hcp.2 hcp'
          exact ih hrest
  intro hte
  have hem := hon t ((hpast t hte).elim id id) hup
  exact hacyclic e (TransGen.tail' hem (hold m hm))

end Redirects

end Redirects

variable {g h k : Graph} {a c d e m t : DeclId} {ids : List DeclId} {named : Prop} {s : Settings}

/-! ## One turn -/

namespace Graph

/-- The parent link of a declaration. -/
abbrev Parent (g : Graph) (c p : DeclId) : Prop := g.parentOf? c = some p

theorem EnclosedBy.reflTransGen (hup : g.EnclosedBy c a) : ReflTransGen g.Parent c a := by
  rcases hup.eq_or_transGen with rfl | hpath
  · exact .refl
  · exact hpath.to_reflTransGen

theorem Nested.enclosedBy_of_reflTransGen (hg : g.Nested) (hc : g.hasDeclaration c = true)
    (hup : ReflTransGen g.Parent c a) : g.EnclosedBy c a := by
  induction hup with
  | refl => exact .here (mem_declIds.2 hc)
  | tail _ hp ih => exact .step ih (Option.mem_toList.2 hp) (mem_declIds.2 (hg.parent_live hp))

theorem SameTree.acyclic (H : SameTree g h) (hg : g.Acyclic) : h.Acyclic := by
  simpa only [Acyclic, H.parentOf?] using hg

end Graph

namespace Extensions

/-- `FoldsOutward g e`: if the extension `e` is folded at its turn, then neither into a member of its
own nor into something inside one. -/
def FoldsOutward (g : Graph) (e : DeclId) : Prop :=
  ∀ t, Folds g e t → ∀ m ∈ g.membersOf e, ¬ g.EnclosedBy t m

theorem HandsOver.redirects (H : HandsOver named g e t k) :
    Redirects g.Parent k.Parent (· ∈ g.membersOf e) t where
  inside c p hc := by
    rw [Parent, H.parent, if_pos hc, Option.some_inj]
    exact eq_comm
  outside c p hc := by rw [Parent, H.parent, if_neg hc]

/-- Taking declarations out makes no link. -/
theorem parent_of_removeDeclaration (hk : k.Coherent named)
    (hp : (k.removeDeclaration e).Parent c d) : k.Parent c d := by
  have F : Felled (k.subtree e) ((k.subtree e).flatMap k.referencesFrom) k
    (k.removeDeclaration e) := felled_removeDeclaration hk
  by_cases hc : c ∈ k.subtree e
  · rw [Parent, parentOf?, F.declaration, if_pos hc] at hp
    cases hp
  · rwa [Parent, F.parentOf? hc] at hp

/-- So it makes no cycle. -/
theorem acyclic_removeDeclaration (hk : k.Coherent named) (hacyclic : k.Acyclic) :
    (k.removeDeclaration e).Acyclic := fun d hcycle =>
  hacyclic d (TransGen.mono (fun _ _ => parent_of_removeDeclaration hk) _ _ hcycle)

/-- A cycle that does not lead to what is taken out stays. -/
theorem transGen_removeDeclaration (hk : k.Coherent named) (hcycle : TransGen k.Parent t t)
    (hout : ¬ ReflTransGen k.Parent t e) : TransGen (k.removeDeclaration e).Parent t t := by
  have F : Felled (k.subtree e) ((k.subtree e).flatMap k.referencesFrom) k
    (k.removeDeclaration e) := felled_removeDeclaration hk
  have hstays : ∀ c p, ReflTransGen k.Parent t c → k.Parent c p →
      (k.removeDeclaration e).Parent c p := by
    intro c p hc hp
    rw [Parent, F.parentOf? fun hmem => hout (hc.trans
      (hk.toNested.enclosedBy_iff.2 (mem_subtree.1 hmem)).reflTransGen)]
    exact hp
  have hall : ∀ c, TransGen k.Parent t c → TransGen (k.removeDeclaration e).Parent t c := by
    intro c hpath
    induction hpath with
    | single hp => exact .single (hstays t _ .refl hp)
    | tail hpath hp ih => exact ih.tail (hstays _ _ hpath.to_reflTransGen hp)
  exact hall t hcycle

/-- Handing over and taking out makes a cycle exactly where the members go to something inside one of
them. -/
theorem HandsOver.acyclic_iff (hg : g.Coherent named) (hacyclic : g.Acyclic)
    (hlive : g.hasDeclaration t = true) (H : HandsOver named g e t k) :
    (k.removeDeclaration e).Acyclic ↔ ∀ m ∈ g.membersOf e, ¬ g.EnclosedBy t m := by
  constructor
  · intro hafter m hm hup
    have hout : ¬ ReflTransGen k.Parent t e :=
      H.redirects.not_reflTransGen hacyclic
        (fun _ _ _ hp hp' => Option.some.inj (hp.symm.trans hp'))
        (fun m hm => hg.toNested.parentOf?_member hm) hm hup.reflTransGen
    exact hafter t (transGen_removeDeclaration H.coherent
      (H.redirects.transGen_self hm hup.reflTransGen) hout)
  · intro houtward
    refine acyclic_removeDeclaration H.coherent (H.redirects.acyclic hacyclic fun m hm hup => ?_)
    exact houtward m hm (hg.toNested.enclosedBy_of_reflTransGen hlive hup)

/-- **A turn keeps parent links without cycle exactly where the extension is folded outward.** -/
theorem acyclic_foldOne (hg : g.Coherent named) (hacyclic : g.Acyclic) :
    (foldOne g e).graph.Acyclic ↔ FoldsOutward g e := by
  have T : Turn named g e (foldOne g e) := turn_foldOne hg
  generalize foldOne g e = o at T
  cases T with
  | gone hx =>
      refine iff_of_true hacyclic fun t ht => ?_
      obtain ⟨x, _, hx', -⟩ := ht
      rw [hx] at hx'
      cases hx'
  | unmapped hx hk =>
      refine iff_of_true hacyclic fun t ht => ?_
      obtain ⟨x, _, hx', hk', -⟩ := ht
      rw [hx] at hx'
      cases hx'
      rw [hk] at hk'
      cases hk'
  | foreign hx hk hnone =>
      have H : SameOutline g (g.markAll .retained [e]) := sameOutline_markAll
      refine iff_of_true (hacyclic.congr H) fun t ht => ?_
      obtain ⟨_, _, -, -, -, ht⟩ := ht
      rw [hnone] at ht
      cases ht
  | proto hx hk _ =>
      refine iff_of_true hacyclic fun t ht => ?_
      obtain ⟨x, _, hx', hk', hne, -⟩ := ht
      rw [hx] at hx'
      cases hx'
      rw [hk] at hk'
      exact absurd (Option.some.inj hk').symm hne
  | @folded t k hf H =>
      obtain ⟨_, _, -, -, -, ht⟩ := id hf
      have hiff := H.acyclic_iff hg hacyclic (live_of_extendedDeclaration ht)
      constructor
      · intro hafter t' hf'
        -- both are what the extension extends
        obtain ⟨_, _, -, -, -, ht'⟩ := hf'
        rw [ht] at ht'
        cases ht'
        exact hiff.1 hafter
      · intro houtward
        exact hiff.2 (houtward t hf)

/-! ## All turns -/

/-- The extensions of a list are folded outward, each at its turn. -/
def AllFoldOutward (g : Graph) : List DeclId → Prop
  | [] => True
  | e :: rest => FoldsOutward g e ∧
      ((foldOne g e).fault = none → AllFoldOutward (foldOne g e).graph rest)

/-- **Parent links are without cycle after every turn exactly where every extension is folded
outward.** -/
theorem acyclic_foldEach_iff (hg : g.Coherent named) (hacyclic : g.Acyclic) :
    (∀ n, (foldEach g (ids.take n)).graph.Acyclic) ↔ AllFoldOutward g ids := by
  induction ids generalizing g with
  | nil => exact iff_of_true (fun n => by rw [List.take_nil]; exact hacyclic) trivial
  | cons e ids ih =>
      have hc : (foldOne g e).graph.Coherent named := (outlives_foldOne hg).1
      rw [AllFoldOutward, ← acyclic_foldOne hg hacyclic]
      cases hf : (foldOne g e).fault with
      | some fault =>
          have hstop : ∀ xs, (foldEach g (e :: xs)).graph = (foldOne g e).graph := fun xs => by
            rw [foldEach]
            simp only [hf]
          constructor
          · intro hall
            refine ⟨?_, fun hno => by cases hno⟩
            have hone := hall 1
            rwa [List.take_succ_cons, hstop] at hone
          · rintro ⟨hone, -⟩ (_ | n)
            · exact hacyclic
            · rw [List.take_succ_cons, hstop]
              exact hone
      | none =>
          have hon : ∀ xs, (foldEach g (e :: xs)).graph = (foldEach (foldOne g e).graph xs).graph :=
            fun xs => by
              rw [foldEach]
              simp only [hf]
          constructor
          · intro hall
            have hrest : ∀ n, (foldEach (foldOne g e).graph (ids.take n)).graph.Acyclic := fun n => by
              have hn := hall (n + 1)
              rwa [List.take_succ_cons, hon] at hn
            have hone : (foldOne g e).graph.Acyclic := hrest 0
            exact ⟨hone, fun _ => (ih hc hone).1 hrest⟩
          · rintro ⟨hone, hrest⟩ (_ | n)
            · exact hacyclic
            · rw [List.take_succ_cons, hon]
              exact (ih hc hone).2 (hrest rfl) n

end Extensions

end Deadwood

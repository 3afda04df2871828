/-
  Graphs that consist of two parts.

  1. **`Part δ ρ k g`** — what is in `k` is in `g` too, under the names `δ` and `ρ`.

  2. **`Union`** — two parts of one graph that share nothing and leave nothing out.  Merging the
     fragments of a document one after the other builds such unions: what one fragment brings hangs
     together, and no link leads to what another one brings.

  3. **Steps** — one more declaration or reference in the second part and in the whole.  What the
     first part brings is neither the newcomer nor what the newcomer is linked to, so it stays as it
     is.
-/
import Deadwood.Proofs.Ingest.Merging
import Deadwood.Proofs.Renaming.Edit
import Mathlib.Logic.Equiv.Fintype

namespace Deadwood

/-! ## Renamings that agree -/

/-- Two renamings that agree on what a declaration is linked to rename it alike. -/
theorem Declaration.rename_eq_of_agree {δ δ' : DeclId ≃ DeclId} {ρ ρ' : RefId ≃ RefId}
    {x : Declaration} (hp : ∀ p, x.parent = some p → δ' p = δ p)
    (hc : ∀ c ∈ x.children, δ' c = δ c) (hr : ∀ b, ∀ r ∈ (x.held b).toList, ρ' r = ρ r) :
    x.rename δ' ρ' = x.rename δ ρ := by
  have hparent : x.parent.map δ' = x.parent.map δ := by
    cases hx : x.parent with
    | none => rfl
    | some p => exact congrArg some (hp p hx)
  have hmembers : x.members.image δ' = x.members.image δ :=
    SortedSet.image_congr fun c h => hc c (Declaration.mem_children.2 (.inl h))
  have hparameters : x.parameters.image δ' = x.parameters.image δ :=
    SortedSet.image_congr fun c h => hc c (Declaration.mem_children.2 (.inr h))
  rw [← Declaration.rename_congr hr]
  simp only [Declaration.rename, hparent, hmembers, hparameters]

/-- Two renamings that agree on what a reference is linked to rename it alike. -/
theorem Reference.rename_eq_of_agree {δ δ' : DeclId ≃ DeclId} {ρ ρ' : RefId ≃ RefId}
    {x : Reference} (ho : ∀ o, x.owner = some o → o.rename δ' ρ' = o.rename δ ρ)
    (hn : ∀ r ∈ x.nested.toList, ρ' r = ρ r) : x.rename δ' ρ' = x.rename δ ρ := by
  have howner : x.owner.map (Owner.rename δ' ρ') = x.owner.map (Owner.rename δ ρ) := by
    cases hx : x.owner with
    | none => rfl
    | some o => exact congrArg some (ho o hx)
  have hnested : x.nested.image ρ' = x.nested.image ρ := SortedSet.image_congr hn
  simp only [Reference.rename, howner, hnested]

namespace Graph

variable {δ δ' ε ε' : DeclId ≃ DeclId} {ρ ρ' σ σ' : RefId ≃ RefId} {g h k k' l : Graph}
  {c d : DeclId} {r q : RefId} {s : Symbol} {m : Mention}

/-! ## Parts -/

/-- What is in `k` is in `g`, under new names. -/
structure Part (δ : DeclId ≃ DeclId) (ρ : RefId ≃ RefId) (k g : Graph) : Prop where
  declaration : ∀ d x, k.declaration? d = some x → g.declaration? (δ d) = some (x.rename δ ρ)
  reference : ∀ r x, k.reference? r = some x → g.reference? (ρ r) = some (x.rename δ ρ)

namespace Part

theorem hasDeclaration (H : Part δ ρ k g) (hd : k.hasDeclaration d = true) :
    g.hasDeclaration (δ d) = true := by
  obtain ⟨x, hx⟩ := hasDeclaration_iff.1 hd
  exact hasDeclaration_of_eq (H.declaration d x hx)

theorem hasReference (H : Part δ ρ k g) (hr : k.hasReference r = true) :
    g.hasReference (ρ r) = true := by
  obtain ⟨x, hx⟩ := hasReference_iff.1 hr
  exact hasReference_of_eq (H.reference r x hx)

theorem hasOwner (H : Part δ ρ k g) {o : Owner} (ho : k.hasOwner o = true) :
    g.hasOwner (o.rename δ ρ) = true := by
  cases o with
  | declaration d => exact H.hasDeclaration ho
  | reference r => exact H.hasReference ho

end Part

/-- Renamings that agree on what is live rename every entry of a consistent graph alike. -/
theorem Consistent.rename_declaration (hk : k.Consistent)
    (hd : ∀ d, k.hasDeclaration d = true → δ' d = δ d)
    (hr : ∀ r, k.hasReference r = true → ρ' r = ρ r) {x : Declaration}
    (hx : k.declaration? d = some x) : x.rename δ' ρ' = x.rename δ ρ := by
  refine Declaration.rename_eq_of_agree (fun p hp => hd p ?_) (fun c hc => hd c ?_)
    fun b r hmem => hr r ?_
  · exact hk.parent_live (parentOf?_eq_some_iff.2 ⟨x, hx, hp⟩)
  · have hc := (hk.child_iff d c).1 (mem_childrenOf_iff.2 ⟨x, hx, Declaration.mem_children.1 hc⟩)
    obtain ⟨y, hy, -⟩ := parentOf?_eq_some_iff.1 hc
    exact hasDeclaration_of_eq hy
  · obtain ⟨y, hy, -⟩ := (hk.held_iff d b r).1 (mem_heldBy_iff.2 ⟨x, hx, hmem⟩)
    exact hasReference_of_eq hy

theorem rename_owner_eq (hd : ∀ d, k.hasDeclaration d = true → δ' d = δ d)
    (hr : ∀ r, k.hasReference r = true → ρ' r = ρ r) {o : Owner} (ho : k.hasOwner o = true) :
    o.rename δ' ρ' = o.rename δ ρ := by
  cases o with
  | declaration d => exact congrArg Owner.declaration (hd d ho)
  | reference r => exact congrArg Owner.reference (hr r ho)

theorem Consistent.rename_reference (hk : k.Consistent)
    (hd : ∀ d, k.hasDeclaration d = true → δ' d = δ d)
    (hr : ∀ r, k.hasReference r = true → ρ' r = ρ r) {x : Reference}
    (hx : k.reference? r = some x) : x.rename δ' ρ' = x.rename δ ρ := by
  refine Reference.rename_eq_of_agree (fun o ho => ?_) fun q hq => hr q ?_
  · exact rename_owner_eq hd hr (hk.owner_live (ownerOf?_eq_some_iff.2 ⟨x, hx, ho⟩))
  · exact live_of_ownerOf? ((hk.nested_iff r q).1 (mem_nestedReferences_iff.2 ⟨x, hx, hq⟩))

theorem Part.congr (H : Part δ ρ k g) (hk : k.Consistent)
    (hd : ∀ d, k.hasDeclaration d = true → δ' d = δ d)
    (hr : ∀ r, k.hasReference r = true → ρ' r = ρ r) : Part δ' ρ' k g where
  declaration d x hx := by
    rw [hd d (hasDeclaration_of_eq hx), hk.rename_declaration hd hr hx]
    exact H.declaration d x hx
  reference r x hx := by
    rw [hr r (hasReference_of_eq hx), hk.rename_reference hd hr hx]
    exact H.reference r x hx

/-! ## Unions -/

/-- No two references of one owner, or of none, have the same key. -/
def DistinctKeys (g : Graph) : Prop :=
  ∀ r s x y, g.reference? r = some x → g.reference? s = some y → x.owner = y.owner →
    x.toMention.key = y.toMention.key → r = s

/-- `g` consists of `l` and `k`, each under names of its own. -/
structure Union (ε : DeclId ≃ DeclId) (σ : RefId ≃ RefId) (δ : DeclId ≃ DeclId)
    (ρ : RefId ≃ RefId) (l k g : Graph) : Prop where
  left : Part ε σ l g
  right : Part δ ρ k g
  declarations : ∀ d, g.hasDeclaration d = true →
    (∃ c, l.hasDeclaration c = true ∧ ε c = d) ∨ ∃ c, k.hasDeclaration c = true ∧ δ c = d
  references : ∀ r, g.hasReference r = true →
    (∃ q, l.hasReference q = true ∧ σ q = r) ∨ ∃ q, k.hasReference q = true ∧ ρ q = r
  declarations_apart : ∀ c d, l.hasDeclaration c = true → k.hasDeclaration d = true → ε c ≠ δ d
  references_apart : ∀ q r, l.hasReference q = true → k.hasReference r = true → σ q ≠ ρ r
  left_consistent : l.Consistent
  right_consistent : k.Consistent
  consistent : g.Consistent
  unambiguous : g.Unambiguous
  distinct : g.DistinctKeys

namespace Union

variable (U : Union ε σ δ ρ l k g)
include U

theorem symm : Union δ ρ ε σ k l g where
  left := U.right
  right := U.left
  declarations d hd := (U.declarations d hd).symm
  references r hr := (U.references r hr).symm
  declarations_apart c d hc hd := (U.declarations_apart d c hd hc).symm
  references_apart q r hq hr := (U.references_apart r q hr hq).symm
  left_consistent := U.right_consistent
  right_consistent := U.left_consistent
  consistent := U.consistent
  unambiguous := U.unambiguous
  distinct := U.distinct

/-- The names of the second part count only on what is there. -/
theorem congr (hd : ∀ d, k.hasDeclaration d = true → δ' d = δ d)
    (hr : ∀ r, k.hasReference r = true → ρ' r = ρ r) : Union ε σ δ' ρ' l k g where
  left := U.left
  right := U.right.congr U.right_consistent hd hr
  declarations d hl := by
    refine (U.declarations d hl).imp_right fun ⟨c, hc, he⟩ => ⟨c, hc, ?_⟩
    rw [hd c hc, he]
  references r hl := by
    refine (U.references r hl).imp_right fun ⟨q, hq, he⟩ => ⟨q, hq, ?_⟩
    rw [hr q hq, he]
  declarations_apart c d hc hl := by rw [hd d hl]; exact U.declarations_apart c d hc hl
  references_apart q r hq hl := by rw [hr r hl]; exact U.references_apart q r hq hl
  left_consistent := U.left_consistent
  right_consistent := U.right_consistent
  consistent := U.consistent
  unambiguous := U.unambiguous
  distinct := U.distinct

/-- What owns references in one part is apart from what owns references in the other one. -/
theorem owners_apart {v w : Owner} (hv : l.hasOwner v = true) (hw : k.hasOwner w = true) :
    v.rename ε σ ≠ w.rename δ ρ := by
  intro he
  cases v with
  | declaration c =>
      cases w with
      | declaration d => exact U.declarations_apart c d hv hw (Owner.declaration.inj he)
      | reference r => cases he
  | reference q =>
      cases w with
      | declaration d => cases he
      | reference r => exact U.references_apart q r hv hw (Owner.reference.inj he)

/-- The whole carries what its parts carry. -/
theorem carries {usr : String} (hc : g.Carries usr) : l.Carries usr ∨ k.Carries usr := by
  obtain ⟨d, x, hx, hu⟩ := hc
  rcases U.declarations d (hasDeclaration_of_eq hx) with ⟨c, hc, rfl⟩ | ⟨c, hc, rfl⟩
  · obtain ⟨y, hy⟩ := hasDeclaration_iff.1 hc
    rw [U.left.declaration c y hy] at hx
    cases hx
    exact .inl ⟨c, y, hy, hu⟩
  · obtain ⟨y, hy⟩ := hasDeclaration_iff.1 hc
    rw [U.right.declaration c y hy] at hx
    cases hx
    exact .inr ⟨c, y, hy, hu⟩

end Union

/-! ## One more declaration -/

theorem Unambiguous.addDeclaration (hu : g.Unambiguous) {p : Option DeclId}
    (hnew : ∀ usr ∈ s.usrs.toList, ¬ g.Carries usr) :
    (g.addDeclaration s p).1.Unambiguous := by
  -- an entry of the new graph is the newcomer or carries what an entry of the old one carries
  have hold : ∀ d x, (g.addDeclaration s p).1.declaration? d = some x →
      (d = g.nextDeclaration ∧ x.usrs = s.usrs) ∨
        ∃ y, g.declaration? d = some y ∧ x.usrs = y.usrs := by
    intro d x hx
    rw [declaration?_addDeclaration] at hx
    split at hx
    · rename_i hd
      cases hx
      exact .inl ⟨hd, rfl⟩
    · obtain ⟨y, hy, rfl⟩ := Option.map_eq_some_iff.1 hx
      refine .inr ⟨y, hy, ?_⟩
      split <;> simp
  intro c d x y usr hx hy hux huy
  rcases hold c x hx with ⟨hc, hxs⟩ | ⟨x', hx', hxs⟩
  · rcases hold d y hy with ⟨hd, -⟩ | ⟨y', hy', hys⟩
    · exact hc.trans hd.symm
    · exact absurd ⟨d, y', hy', hys ▸ huy⟩ (hnew usr (hxs ▸ hux))
  · rcases hold d y hy with ⟨-, hys⟩ | ⟨y', hy', hys⟩
    · exact absurd ⟨c, x', hx', hxs ▸ hux⟩ (hnew usr (hys ▸ huy))
    · exact hu c d x' y' usr hx' hy' (hxs ▸ hux) (hys ▸ huy)

namespace Part

/-- A declaration added to the whole leaves alone a part that its parent is not in. -/
theorem addDeclaration_beside (H : Part ε σ l g) {p : Option DeclId}
    (hp : ∀ q, p = some q → g.hasDeclaration q = true)
    (hapart : ∀ c, l.hasDeclaration c = true → p ≠ some (ε c)) :
    Part ε σ l (g.addDeclaration s p).1 where
  declaration c x hx := by
    have hc := hasDeclaration_of_eq hx
    rw [declaration?_addDeclaration, if_neg (ne_nextDeclaration (H.hasDeclaration hc)),
      filter_hasDeclaration hp, H.declaration c x hx, Option.map_some, if_neg (hapart c hc)]
  reference q x hx := by
    rw [reference?_addDeclaration]
    exact H.reference q x hx

/-- A declaration added to the part and to the whole, when the next handles correspond. -/
theorem addDeclaration (H : Part δ ρ k g) (hnext : δ k.nextDeclaration = g.nextDeclaration)
    {p : Option DeclId} (hp : ∀ q, p = some q → k.hasDeclaration q = true)
    (hp' : ∀ q, p.map δ = some q → g.hasDeclaration q = true) :
    Part δ ρ (k.addDeclaration s p).1 (g.addDeclaration s (p.map δ)).1 where
  declaration d x hx := by
    rw [declaration?_addDeclaration, filter_hasDeclaration hp] at hx
    rw [declaration?_addDeclaration, filter_hasDeclaration hp', ← hnext]
    by_cases hd : d = k.nextDeclaration
    · rw [if_pos hd] at hx
      cases hx
      rw [if_pos (congrArg δ hd)]
      simp only [Declaration.rename, SortedSet.image_empty]
    · rw [if_neg hd] at hx
      obtain ⟨y, hy, rfl⟩ := Option.map_eq_some_iff.1 hx
      rw [if_neg (δ.injective.ne hd), H.declaration d y hy, Option.map_some]
      have hparent : p.map δ = some (δ d) ↔ p = some d := by
        cases p <;> simp
      by_cases hpd : p = some d
      · rw [if_pos hpd, if_pos (hparent.2 hpd), Declaration.rename_addChild]
      · rw [if_neg hpd, if_neg (mt hparent.1 hpd)]
  reference r x hx := by
    rw [reference?_addDeclaration] at hx ⊢
    exact H.reference r x hx

end Part

namespace Union

/-- **A declaration added to the second part and to the whole**, when the next handles
correspond. -/
theorem addDeclaration_next (U : Union ε σ δ ρ l k g)
    (hnext : δ k.nextDeclaration = g.nextDeclaration) {p : Option DeclId}
    (hp : ∀ q, p = some q → k.hasDeclaration q = true) (hs : s.usrs.toList ≠ [])
    (hnew : ∀ usr ∈ s.usrs.toList, ¬ g.Carries usr) :
    Union ε σ δ ρ l (k.addDeclaration s p).1 (g.addDeclaration s (p.map δ)).1 := by
  have hp' : ∀ c, p.map δ = some c → g.hasDeclaration c = true := by
    intro c hc
    obtain ⟨q, hq, rfl⟩ := Option.map_eq_some_iff.1 hc
    exact U.right.hasDeclaration (hp q hq)
  have hapart : ∀ c, l.hasDeclaration c = true → p.map δ ≠ some (ε c) := by
    intro c hc he
    obtain ⟨q, hq, he⟩ := Option.map_eq_some_iff.1 he
    exact U.declarations_apart c q hc (hp q hq) he.symm
  exact
    { left := U.left.addDeclaration_beside hp' hapart
      right := U.right.addDeclaration hnext hp hp'
      declarations := fun d hd => by
        rcases hasDeclaration_addDeclaration.1 hd with rfl | hd
        · exact .inr ⟨k.nextDeclaration, hasDeclaration_addDeclaration.2 (.inl rfl), hnext⟩
        · rcases U.declarations d hd with hleft | ⟨c, hc, he⟩
          · exact .inl hleft
          · exact .inr ⟨c, hasDeclaration_addDeclaration.2 (.inr hc), he⟩
      references := fun r hr => by
        simp only [Graph.hasReference, reference?_addDeclaration] at hr ⊢
        exact U.references r hr
      declarations_apart := fun c d hc hd => by
        rcases hasDeclaration_addDeclaration.1 hd with rfl | hd
        · rw [hnext]
          exact ne_nextDeclaration (U.left.hasDeclaration hc)
        · exact U.declarations_apart c d hc hd
      references_apart := fun q r hq hr => by
        simp only [Graph.hasReference, reference?_addDeclaration] at hr
        exact U.references_apart q r hq hr
      left_consistent := U.left_consistent
      right_consistent := U.right_consistent.addDeclaration fun _ => hs
      consistent := U.consistent.addDeclaration fun _ => hs
      unambiguous := U.unambiguous.addDeclaration hnew
      distinct := fun r s x y hx hy => by
        rw [reference?_addDeclaration] at hx hy
        exact U.distinct r s x y hx hy }

/-- The same change to a declaration of the second part and to its image in the whole. -/
theorem modifyDeclaration (U : Union ε σ δ ρ l k g) (hd : k.hasDeclaration d = true)
    {f f' : Declaration → Declaration}
    (hf : ∀ x, (f x).rename δ ρ = f' (x.rename δ ρ)) (hu : ∀ x, (f' x).usrs = x.usrs)
    (hk : (k.modifyDeclaration d f).Consistent)
    (hg : (g.modifyDeclaration (δ d) f').Consistent) :
    Union ε σ δ ρ l (k.modifyDeclaration d f) (g.modifyDeclaration (δ d) f') where
  left :=
    { declaration := fun c x hx => by
        have hne : δ d ≠ ε c :=
          (U.declarations_apart c d (hasDeclaration_of_eq hx) hd).symm
        rw [declaration?_modifyDeclaration, U.left.declaration c x hx, Option.map_some, if_neg hne]
      reference := U.left.reference }
  right :=
    { declaration := fun c x hx => by
        rw [declaration?_modifyDeclaration] at hx ⊢
        obtain ⟨y, hy, rfl⟩ := Option.map_eq_some_iff.1 hx
        rw [U.right.declaration c y hy, Option.map_some]
        by_cases hc : d = c
        · rw [if_pos hc, if_pos (congrArg δ hc), hf]
        · rw [if_neg hc, if_neg (δ.injective.ne hc)]
      reference := U.right.reference }
  declarations c hc := by
    simp only [hasDeclaration_modifyDeclaration] at hc ⊢
    exact U.declarations c hc
  references := U.references
  declarations_apart a b ha hb := by
    rw [hasDeclaration_modifyDeclaration] at hb
    exact U.declarations_apart a b ha hb
  references_apart := U.references_apart
  left_consistent := U.left_consistent
  right_consistent := hk
  consistent := hg
  unambiguous := U.unambiguous.of_usrs fun c y hy => by
    rw [declaration?_modifyDeclaration] at hy
    obtain ⟨x, hx, rfl⟩ := Option.map_eq_some_iff.1 hy
    refine ⟨x, hx, ?_⟩
    split
    · exact hu x
    · rfl
  distinct := U.distinct

end Union

/-! ## One more reference -/

theorem DistinctKeys.addReference (hd : g.DistinctKeys) (hg : g.Owned) {w : Option Owner}
    (hw : ∀ o, w = some o → g.hasOwner o = true) (hnew : g.equalReference? m.key w = none) :
    (g.addReference m w).1.DistinctKeys := by
  have hnone := hg.equalReference?_eq_none_iff.1 hnew
  -- an entry of the new graph is the newcomer or says what an entry of the old one says
  have hold : ∀ r x, (g.addReference m w).1.reference? r = some x →
      (r = g.nextReference ∧ x.owner = w ∧ x.toMention.key = m.key) ∨
        ∃ y, g.reference? r = some y ∧ y.owner = x.owner ∧ y.toMention = x.toMention := by
    intro r x hx
    by_cases hr : r = g.nextReference
    · rw [reference?_addReference hnew, if_pos hr, filter_hasOwner hw] at hx
      cases hx
      exact .inl ⟨hr, rfl, rfl⟩
    · exact .inr (exists_reference?_of_addReference hnew hr hx)
  intro r s x y hx hy ho hk
  rcases hold r x hx with ⟨hr, hxo, hxk⟩ | ⟨x', hx', hxo, hxm⟩
  · rcases hold s y hy with ⟨hs, -, -⟩ | ⟨y', hy', hyo, hym⟩
    · exact hr.trans hs.symm
    · exact absurd (by rw [hym, ← hk, hxk]) (hnone s y' hy' (by rw [hyo, ← ho, hxo]))
  · rcases hold s y hy with ⟨-, hyo, hyk⟩ | ⟨y', hy', hyo, hym⟩
    · exact absurd (by rw [hxm, hk, hyk]) (hnone r x' hx' (by rw [hxo, ho, hyo]))
    · exact hd r s x' y' hx' hy' (by rw [hxo, hyo, ho]) (by rw [hxm, hym, hk])

namespace Union

/-- **An equal reference is found in the whole when it is found in the part**, and is its image. -/
theorem equalReference? (U : Union ε σ δ ρ l k g) {w : Option Owner}
    (hw : ∀ o, w = some o → k.hasOwner o = true) (hroot : w = none → ¬ l.RootKey m.key) :
    g.equalReference? m.key (w.map (Owner.rename δ ρ)) = (k.equalReference? m.key w).map ρ := by
  cases hk : k.equalReference? m.key w with
  | some q =>
      obtain ⟨x, hx, ho, hkey⟩ := reference?_of_equalReference? hk
      have hx' := U.right.reference q x hx
      have ho' : (x.rename δ ρ).owner = w.map (Owner.rename δ ρ) := by rw [← ho]; rfl
      cases hg : g.equalReference? m.key (w.map (Owner.rename δ ρ)) with
      | none =>
          have hne := U.consistent.toOwned.equalReference?_eq_none_iff.1 hg (ρ q) _ hx' ho'
          exact absurd hkey hne
      | some q' =>
          obtain ⟨y, hy, hyo, hyk⟩ := reference?_of_equalReference? hg
          have he : q' = ρ q := U.distinct q' (ρ q) y _ hy hx' (hyo.trans ho'.symm)
            (hyk.trans hkey.symm)
          rw [he]
          rfl
  | none =>
      have hnone := U.right_consistent.toOwned.equalReference?_eq_none_iff.1 hk
      refine U.consistent.toOwned.equalReference?_eq_none_iff.2 fun r x hx ho hkey => ?_
      rcases U.references r (hasReference_of_eq hx) with ⟨q, hq, rfl⟩ | ⟨q, hq, rfl⟩
      · -- what the other part owns is owned by the other part, and its roots have other keys
        obtain ⟨y, hy⟩ := hasReference_iff.1 hq
        rw [U.left.reference q y hy] at hx
        cases hx
        cases w with
        | none =>
            have hyo : y.owner = none := by simpa [Reference.rename] using ho
            exact hroot rfl ⟨q, y, hy, hyo, hkey⟩
        | some o =>
            obtain ⟨v, hv, he⟩ := Option.map_eq_some_iff.1 ho
            have hvl := U.left_consistent.owner_live (ownerOf?_eq_some_iff.2 ⟨y, hy, hv⟩)
            exact U.owners_apart hvl (hw o rfl) he
      · obtain ⟨y, hy⟩ := hasReference_iff.1 hq
        rw [U.right.reference q y hy] at hx
        cases hx
        have hyo : y.owner = w := by
          have hinj : Function.Injective (Option.map (Owner.rename δ ρ)) :=
            Option.map_injective Owner.rename_injective
          exact hinj ho
        exact hnone q y hy hyo hkey

end Union

namespace Part

/-- A reference added to the whole leaves alone a part that its owner is not in. -/
theorem addReference_beside (H : Part ε σ l g) {w : Option Owner}
    (hnew : g.equalReference? m.key w = none) (hw : ∀ o, w = some o → g.hasOwner o = true)
    (hapart : ∀ o, l.hasOwner o = true → w ≠ some (o.rename ε σ)) :
    Part ε σ l (g.addReference m w).1 where
  declaration c x hx := by
    have hc : w ≠ some (.declaration (ε c)) := hapart (.declaration c) (hasDeclaration_of_eq hx)
    rw [declaration?_addReference hnew, filter_hasOwner hw, H.declaration c x hx, Option.map_some,
      if_neg hc]
  reference q x hx := by
    have hq := hasReference_of_eq hx
    have hne : w ≠ some (.reference (σ q)) := hapart (.reference q) hq
    rw [reference?_addReference hnew, if_neg (ne_nextReference (H.hasReference hq)),
      filter_hasOwner hw, H.reference q x hx, Option.map_some, if_neg hne]

/-- A reference added to the part and to the whole, when the next handles correspond. -/
theorem addReference (H : Part δ ρ k g) (hnext : ρ k.nextReference = g.nextReference)
    {w : Option Owner} (hnew : k.equalReference? m.key w = none)
    (hnew' : g.equalReference? m.key (w.map (Owner.rename δ ρ)) = none)
    (hw : ∀ o, w = some o → k.hasOwner o = true)
    (hw' : ∀ o, w.map (Owner.rename δ ρ) = some o → g.hasOwner o = true) :
    Part δ ρ (k.addReference m w).1 (g.addReference m (w.map (Owner.rename δ ρ))).1 where
  declaration d x hx := by
    have hdecl : w.map (Owner.rename δ ρ) = some (.declaration (δ d)) ↔ w = some (.declaration d) :=
      map_rename_eq_iff (w := .declaration d)
    rw [declaration?_addReference hnew, filter_hasOwner hw] at hx
    obtain ⟨y, hy, rfl⟩ := Option.map_eq_some_iff.1 hx
    rw [declaration?_addReference hnew', filter_hasOwner hw', H.declaration d y hy, Option.map_some]
    by_cases hwd : w = some (.declaration d)
    · rw [if_pos hwd, if_pos (hdecl.2 hwd), Declaration.rename_addReference, hnext]
    · rw [if_neg hwd, if_neg (mt hdecl.1 hwd)]
  reference r x hx := by
    have href : w.map (Owner.rename δ ρ) = some (.reference (ρ r)) ↔ w = some (.reference r) :=
      map_rename_eq_iff (w := .reference r)
    rw [reference?_addReference hnew, filter_hasOwner hw] at hx
    rw [reference?_addReference hnew', filter_hasOwner hw', ← hnext]
    by_cases hr : r = k.nextReference
    · rw [if_pos hr] at hx
      cases hx
      rw [if_pos (congrArg ρ hr)]
      simp only [Reference.rename, SortedSet.image_empty]
    · rw [if_neg hr] at hx
      obtain ⟨y, hy, rfl⟩ := Option.map_eq_some_iff.1 hx
      rw [if_neg (ρ.injective.ne hr), H.reference r y hy, Option.map_some]
      by_cases hwr : w = some (.reference r)
      · rw [if_pos hwr, if_pos (href.2 hwr)]
        simp only [Reference.rename, SortedSet.image_insert]
      · rw [if_neg hwr, if_neg (mt href.1 hwr)]

end Part

namespace Union

/-- **A reference added to the second part and to the whole**, when there is no equal one and the
next handles correspond. -/
theorem addReference_next (U : Union ε σ δ ρ l k g)
    (hnext : ρ k.nextReference = g.nextReference) {w : Option Owner}
    (hw : ∀ o, w = some o → k.hasOwner o = true) (hnew : k.equalReference? m.key w = none)
    (hnew' : g.equalReference? m.key (w.map (Owner.rename δ ρ)) = none) :
    Union ε σ δ ρ l (k.addReference m w).1
      (g.addReference m (w.map (Owner.rename δ ρ))).1 := by
  have hw' : ∀ o, w.map (Owner.rename δ ρ) = some o → g.hasOwner o = true := by
    intro o ho
    obtain ⟨v, hv, rfl⟩ := Option.map_eq_some_iff.1 ho
    exact U.right.hasOwner (hw v hv)
  have hapart : ∀ o, l.hasOwner o = true → w.map (Owner.rename δ ρ) ≠ some (o.rename ε σ) := by
    intro o ho he
    obtain ⟨v, hv, he⟩ := Option.map_eq_some_iff.1 he
    exact U.owners_apart ho (hw v hv) he.symm
  exact
    { left := U.left.addReference_beside hnew' hw' hapart
      right := U.right.addReference hnext hnew hnew' hw hw'
      declarations := fun d hd => by
        simp only [hasDeclaration_addReference] at hd ⊢
        exact U.declarations d hd
      references := fun r hr => by
        rcases (hasReference_addReference hnew').1 hr with rfl | hr
        · exact .inr ⟨k.nextReference, (hasReference_addReference hnew).2 (.inl rfl), hnext⟩
        · rcases U.references r hr with hleft | ⟨q, hq, he⟩
          · exact .inl hleft
          · exact .inr ⟨q, (hasReference_addReference hnew).2 (.inr hq), he⟩
      declarations_apart := fun c d hc hd => by
        rw [hasDeclaration_addReference] at hd
        exact U.declarations_apart c d hc hd
      references_apart := fun q r hq hr => by
        rcases (hasReference_addReference hnew).1 hr with rfl | hr
        · rw [hnext]
          exact ne_nextReference (U.left.hasReference hq)
        · exact U.references_apart q r hq hr
      left_consistent := U.left_consistent
      right_consistent := U.right_consistent.addReference
      consistent := U.consistent.addReference
      unambiguous := U.unambiguous.addReference
      distinct := U.distinct.addReference U.consistent.toOwned hw' hnew' }

end Union

end Graph

end Deadwood

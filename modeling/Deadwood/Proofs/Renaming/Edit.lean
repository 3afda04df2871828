/-
  The same change to twins, under their new names, makes twins.

  1. **No new handle** — marking, removing, moving, recording: the renaming stays as it is
     (`Twin.markAll`, `Twin.foldl_removeReference`, `Twin.moveDeclaration`, …).

  2. **A new reference (`Twin.addReference`)** — it gets the next number of each graph, and these
     need not correspond.  The renaming is changed by exchanging two numbers that were not given
     out, so everything given out keeps its name.
-/
import Deadwood.Proofs.Renaming.Hierarchy

namespace Deadwood

theorem SortedSet.image_id {α : Type} [Ord α] [Std.TransOrd α] [Std.LawfulEqOrd α]
    {s : SortedSet α} : s.image id = s :=
  SortedSet.eq_of_mem_iff fun a => by simp

theorem SortedSet.image_image {α : Type} [Ord α] [Std.TransOrd α] [Std.LawfulEqOrd α]
    {s : SortedSet α} (f f' : α ≃ α) : (s.image f).image f' = s.image (f.trans f') :=
  SortedSet.eq_of_mem_iff fun a => by simp

theorem SortedSet.image_symm {α : Type} [Ord α] [Std.TransOrd α] [Std.LawfulEqOrd α]
    {s : SortedSet α} (f : α ≃ α) : (s.image f).image f.symm = s := by
  rw [image_image, Equiv.self_trans_symm]
  exact image_id

theorem Declaration.rename_rename {δ δ' : DeclId ≃ DeclId} {ρ ρ' : RefId ≃ RefId}
    (x : Declaration) : (x.rename δ ρ).rename δ' ρ' = x.rename (δ.trans δ') (ρ.trans ρ') := by
  simp [Declaration.rename, SortedSet.image_image, Function.comp_def]

theorem Reference.rename_rename {δ δ' : DeclId ≃ DeclId} {ρ ρ' : RefId ≃ RefId}
    (x : Reference) : (x.rename δ ρ).rename δ' ρ' = x.rename (δ.trans δ') (ρ.trans ρ') := by
  have ho : ∀ o : Owner, Owner.rename δ' ρ' (Owner.rename δ ρ o) =
      Owner.rename (δ.trans δ') (ρ.trans ρ') o := by
    rintro (o | o) <;> rfl
  simp [Reference.rename, SortedSet.image_image, Function.comp_def, ho]

namespace Graph

variable {δ δ' : DeclId ≃ DeclId} {ρ ρ' : RefId ≃ RefId} {g h g' h' k : Graph} {c d e t : DeclId}
  {r q s : RefId}

/-! ## Composing renamings -/

theorem Renamed.refl : Renamed (Equiv.refl _) (Equiv.refl _) g g where
  declaration d := by
    simp [Declaration.rename, SortedSet.image_id]
  reference r := by
    have ho : Owner.rename (Equiv.refl DeclId) (Equiv.refl RefId) = id := by
      funext o
      cases o <;> rfl
    simp [Reference.rename, SortedSet.image_id, ho]
  roots := SortedSet.image_id.symm
  rootReferences := SortedSet.image_id.symm
  notes :=
    { marks := fun _ => SortedSet.image_id.symm
      folded := fun d => by simp
      redundantProtocols := fun d => by simp [RedundantProtocol.rename, SortedSet.image_id]
      redundantAccess := fun _ => rfl
      unusedImports := rfl
      files := rfl
      exports := rfl
      assets := rfl }

theorem Notes.Renamed.trans {l m n : Notes} (R : Notes.Renamed δ ρ l m)
    (R' : Notes.Renamed δ' ρ' m n) : Notes.Renamed (δ.trans δ') (ρ.trans ρ') l n where
  marks mark := by rw [R'.marks, R.marks, SortedSet.image_image]
  folded d := by rw [Equiv.trans_apply, R'.folded, R.folded, Option.map_map]; rfl
  redundantProtocols d := by
    rw [Equiv.trans_apply, R'.redundantProtocols, R.redundantProtocols, Option.map_map]
    refine congrArg (Option.map · _) (funext fun p => ?_)
    simp [RedundantProtocol.rename, SortedSet.image_image]
  redundantAccess d := by rw [Equiv.trans_apply, R'.redundantAccess, R.redundantAccess]
  unusedImports := R'.unusedImports.trans R.unusedImports
  files := R'.files.trans R.files
  exports := R'.exports.trans R.exports
  assets := R'.assets.trans R.assets

theorem Renamed.trans (R : Renamed δ ρ g h) (R' : Renamed δ' ρ' h k) :
    Renamed (δ.trans δ') (ρ.trans ρ') g k where
  declaration d := by
    rw [Equiv.trans_apply, R'.declaration, R.declaration, Option.map_map]
    exact congrArg (Option.map · _) (funext fun x => x.rename_rename)
  reference r := by
    rw [Equiv.trans_apply, R'.reference, R.reference, Option.map_map]
    exact congrArg (Option.map · _) (funext fun x => x.rename_rename)
  roots := by rw [R'.roots, R.roots, SortedSet.image_image]
  rootReferences := by rw [R'.rootReferences, R.rootReferences, SortedSet.image_image]
  notes := R.notes.trans R'.notes

theorem Notes.Renamed.symm {m n : Notes} (R : Notes.Renamed δ ρ m n) :
    Notes.Renamed δ.symm ρ.symm n m where
  marks mark := by rw [R.marks, SortedSet.image_symm]
  folded d := by
    have hd := R.folded (δ.symm d)
    rw [δ.apply_symm_apply] at hd
    rw [hd, Option.map_map]
    simp
  redundantProtocols d := by
    have hd := R.redundantProtocols (δ.symm d)
    rw [δ.apply_symm_apply] at hd
    rw [hd, Option.map_map]
    simp [Function.comp_def, RedundantProtocol.rename, SortedSet.image_symm]
  redundantAccess d := by
    have hd := R.redundantAccess (δ.symm d)
    rw [δ.apply_symm_apply] at hd
    exact hd.symm
  unusedImports := R.unusedImports.symm
  files := R.files.symm
  exports := R.exports.symm
  assets := R.assets.symm

/-- The old names bring the old graph back. -/
theorem Renamed.symm (R : Renamed δ ρ g h) : Renamed δ.symm ρ.symm h g where
  declaration d := by
    have hd := R.declaration (δ.symm d)
    rw [δ.apply_symm_apply] at hd
    rw [hd, Option.map_map]
    simp [Function.comp_def, Declaration.rename, SortedSet.image_symm]
  reference r := by
    have hr := R.reference (ρ.symm r)
    rw [ρ.apply_symm_apply] at hr
    have ho : ∀ o : Owner, Owner.rename δ.symm ρ.symm (Owner.rename δ ρ o) = o := by
      rintro (o | o) <;> simp [Owner.rename]
    rw [hr, Option.map_map]
    simp [Function.comp_def, Reference.rename, SortedSet.image_symm, ho]
  roots := by rw [R.roots, SortedSet.image_symm]
  rootReferences := by rw [R.rootReferences, SortedSet.image_symm]
  notes := R.notes.symm

theorem Twin.symm (T : Twin δ ρ g h) : Twin δ.symm ρ.symm h g :=
  ⟨T.toRenamed.symm, T.right, T.left, T.unambiguous_right⟩

theorem Twin.refl (hg : g.Consistent) (hu : g.Unambiguous) :
    Twin (Equiv.refl _) (Equiv.refl _) g g := ⟨.refl, hg, hg, hu⟩

theorem Twin.trans (T : Twin δ ρ g h) (T' : Twin δ' ρ' h k) :
    Twin (δ.trans δ') (ρ.trans ρ') g k :=
  ⟨T.toRenamed.trans T'.toRenamed, T.left, T'.right, T.unambiguous⟩

namespace Tracks

theorem refl (T : Twin δ ρ g h) : Tracks δ ρ g h g h :=
  ⟨ρ, fun _ _ _ => rfl, Nat.le_refl _, Nat.le_refl _, T⟩

/-- A change that keeps the renaming. -/
theorem of_twin (hg : g.references.size ≤ g'.references.size)
    (hh : h.references.size ≤ h'.references.size) (T : Twin δ ρ g' h') :
    Tracks δ ρ g h g' h' := ⟨ρ, fun _ _ _ => rfl, hg, hh, T⟩

/-- **One change after the other.** -/
theorem bind (H : Tracks δ ρ g h g' h') {g'' h'' : Graph}
    (next : ∀ ρ', (∀ r, r.index < g.references.size → (ρ r).index < h.references.size →
      ρ' r = ρ r) → Twin δ ρ' g' h' → Tracks δ ρ' g' h' g'' h'') :
    Tracks δ ρ g h g'' h'' := by
  obtain ⟨ρ₁, hagree, hg, hh, T⟩ := H
  obtain ⟨ρ₂, hagree', hg', hh', T'⟩ := next ρ₁ hagree T
  refine ⟨ρ₂, fun r hr hr' => ?_, by omega, by omega, T'⟩
  have hone := hagree r hr hr'
  rw [hagree' r (by omega) (by rw [hone]; omega), hone]

/-- **A change of the second graph that differs in numbers only.** -/
theorem along (H : Tracks δ ρ g h g' h') (H' : Tracks (Equiv.refl _) (Equiv.refl _) h h h' k) :
    Tracks δ ρ g h g' k := by
  obtain ⟨ρ₁, hagree, hg, hh, T⟩ := H
  obtain ⟨τ, hτ, _, hk, T'⟩ := H'
  refine ⟨ρ₁.trans τ, fun r hr hr' => ?_, hg, hk, T.trans T'⟩
  rw [Equiv.trans_apply, hagree r hr hr']
  exact hτ (ρ r) hr' hr'

end Tracks

/-! ## What a change has to show -/

theorem Unambiguous.of_usrs (hu : g.Unambiguous)
    (hv : ∀ d y, g'.declaration? d = some y → ∃ x, g.declaration? d = some x ∧ y.usrs = x.usrs) :
    g'.Unambiguous := by
  intro c d x y usr hx hy hux huy
  obtain ⟨x', hx', he⟩ := hv c x hx
  obtain ⟨y', hy', he'⟩ := hv d y hy
  exact hu c d x' y' usr hx' hy' (he ▸ hux) (he' ▸ huy)

/-- A change of declarations and references that leaves the notes alone. -/
theorem Renamed.of_notes (R : Renamed δ ρ g h) (hn : g'.notes = g.notes) (hn' : h'.notes = h.notes)
    (hd : ∀ d, h'.declaration? (δ d) = (g'.declaration? d).map (·.rename δ ρ))
    (hr : ∀ r, h'.reference? (ρ r) = (g'.reference? r).map (·.rename δ ρ))
    (hroots : h'.roots = g'.roots.image δ)
    (hrr : h'.rootReferences = g'.rootReferences.image ρ) : Renamed δ ρ g' h' :=
  ⟨hd, hr, hroots, hrr, by rw [hn, hn']; exact R.notes⟩

theorem Renamed.with_marks (R : Renamed δ ρ g h) {m n : Marks}
    (hm : ∀ mark, n.of mark = (m.of mark).image δ) :
    Renamed δ ρ { g with marks := m } { h with marks := n } :=
  ⟨R.declaration, R.reference, R.roots, R.rootReferences, { R.notes with marks := hm }⟩

/-! ## Marking -/

theorem Twin.markAll (T : Twin δ ρ g h) {mark : Mark} {xs ys : List DeclId}
    (hm : ∀ d, g.hasDeclaration d = true → (δ d ∈ ys ↔ d ∈ xs)) :
    Twin δ ρ (g.markAll mark xs) (h.markAll mark ys) where
  toRenamed := by
    have hg : g.markAll mark xs = { g with marks := (g.markAll mark xs).marks } := markAll_eq
    have hh : h.markAll mark ys = { h with marks := (h.markAll mark ys).marks } := markAll_eq
    rw [hg, hh]
    refine T.toRenamed.with_marks fun other => (SortedSet.eq_image_iff δ).2 fun d => ?_
    have ho : δ d ∈ (h.marks.of other).toList ↔ d ∈ (g.marks.of other).toList :=
      (SortedSet.eq_image_iff δ).1 (T.marks other) d
    rw [mem_marks_markAll, mem_marks_markAll, T.hasDeclaration, ho]
    refine or_congr_left (and_congr_right fun _ => and_congr_left fun hd => hm d hd)
  left := T.left.markAll _
  right := T.right.markAll _
  unambiguous := T.unambiguous.of_usrs fun d y hy => ⟨y, by simpa using hy, rfl⟩

theorem references_size_markAll {mark : Mark} {ids : List DeclId} :
    (g.markAll mark ids).references.size = g.references.size := by rw [markAll_eq]

/-! ## Removing -/

/-- Felling corresponding declarations and references. -/
theorem Twin.felled (T : Twin δ ρ g h) {ids ids' : List DeclId} {gone gone' : List RefId}
    (F : Felled ids gone g g') (F' : Felled ids' gone' h h')
    (hids : ∀ d, δ d ∈ ids' ↔ d ∈ ids) (hgone : ∀ r, ρ r ∈ gone' ↔ r ∈ gone)
    (hg : g'.Consistent) (hh : h'.Consistent) : Twin δ ρ g' h' where
  declaration d := by
    simp only [F'.declaration, F.declaration, T.declaration, hids]
    split
    · rfl
    · rw [Option.map_map, Option.map_map]
      refine congrArg (Option.map · _) (funext fun x => ?_)
      simp only [Function.comp_apply, Declaration.rename, Declaration.without,
        Declaration.withoutChildren, SortedSet.image_without hids, SortedSet.image_without hgone]
  reference r := by
    simp only [F'.reference, F.reference, T.reference, hgone]
    split
    · rfl
    · rw [Option.map_map, Option.map_map]
      refine congrArg (Option.map · _) (funext fun x => ?_)
      simp only [Function.comp_apply, Reference.rename, Reference.without,
        SortedSet.image_without hgone]
  roots := by rw [F'.roots, F.roots, T.roots, SortedSet.image_without hids]
  rootReferences := by
    rw [F'.rootReferences, F.rootReferences, T.rootReferences, SortedSet.image_without hgone]
  notes := by
    have hnotes : Notes.Renamed δ ρ { g'.notes with marks := g.marks }
        { h'.notes with marks := h.marks } := by
      rw [F.results, F'.results]
      exact T.notes
    refine { hnotes with marks := fun mark => ?_ }
    show h'.marks.of mark = (g'.marks.of mark).image δ
    rw [F'.marks, F.marks, T.marks, SortedSet.image_without hids]
  left := hg
  right := hh
  unambiguous := T.unambiguous.of_usrs fun d y hy => by
    rw [F.declaration] at hy
    split at hy
    · cases hy
    · obtain ⟨x, hx, rfl⟩ := Option.map_eq_some_iff.1 hy
      exact ⟨x, hx, rfl⟩

/-- **Removing corresponding references**, in whatever order. -/
theorem Twin.foldl_removeReference (T : Twin δ ρ g h) {xs ys : List RefId}
    (hm : ∀ r, g.hasReference r = true → (ρ r ∈ ys ↔ r ∈ xs)) :
    Twin δ ρ (xs.foldl Graph.removeReference g) (ys.foldl Graph.removeReference h) := by
  refine T.felled (pruned_foldl_removeReference T.left.toOwned xs).felled
    (pruned_foldl_removeReference T.right.toOwned ys).felled (by simp) (fun r => ?_)
    (T.left.foldl_removeReference xs) (T.right.foldl_removeReference ys)
  simp only [List.mem_flatMap]
  constructor
  · rintro ⟨q, hq, hr⟩
    obtain ⟨q, rfl⟩ := ρ.surjective q
    have hr := T.mem_referenceTree.1 hr
    exact ⟨q, (hm q (Graph.mem_referenceTree.1 hr).live_left).1 hq, hr⟩
  · rintro ⟨q, hq, hr⟩
    exact ⟨ρ q, (hm q (Graph.mem_referenceTree.1 hr).live_left).2 hq, T.mem_referenceTree.2 hr⟩

theorem Twin.removeReference (T : Twin δ ρ g h) :
    Twin δ ρ (g.removeReference r) (h.removeReference (ρ r)) := by
  show Twin δ ρ ([r].foldl Graph.removeReference g) ([ρ r].foldl Graph.removeReference h)
  exact T.foldl_removeReference fun s _ => by simp

theorem references_size_foldl_removeReference (hg : g.Owned) (xs : List RefId) :
    (xs.foldl Graph.removeReference g).references.size = g.references.size :=
  (pruned_foldl_removeReference hg xs).references_size

/-- **Removing corresponding declarations.** -/
theorem Twin.removeDeclaration (T : Twin δ ρ g h) :
    Twin δ ρ (g.removeDeclaration d) (h.removeDeclaration (δ d)) := by
  have hids : ∀ c, δ c ∈ h.subtree (δ d) ↔ c ∈ g.subtree d := by
    intro c
    refine mem_explore_map_iff δ (fun a b => T.mem_childrenOf) (fun a => T.mem_declIds)
      fun a => ?_
    simp
  refine T.felled (felled_removeDeclaration T.left) (felled_removeDeclaration T.right) hids
    (fun r => ?_) T.left.removeDeclaration T.right.removeDeclaration
  simp only [List.mem_flatMap]
  constructor
  · rintro ⟨c, hc, hr⟩
    obtain ⟨c, rfl⟩ := δ.surjective c
    exact ⟨c, (hids c).1 hc, T.mem_referencesFrom.1 hr⟩
  · rintro ⟨c, hc, hr⟩
    exact ⟨δ c, (hids c).2 hc, T.mem_referencesFrom.2 hr⟩

theorem references_size_removeDeclaration (hg : g.Consistent) :
    (g.removeDeclaration d).references.size = g.references.size :=
  (felled_removeDeclaration hg).references_size

/-! ## Adding references -/

theorem map_rename_eq_iff {o : Option Owner} {w : Owner} :
    o.map (Owner.rename δ ρ) = some (w.rename δ ρ) ↔ o = some w := by
  cases o with
  | none => simp
  | some v => simp [Owner.rename_injective.eq_iff]

theorem Twin.equalReference?_eq_none_iff (T : Twin δ ρ g h) {key : Mention.Key} {o : Owner} :
    h.equalReference? key (some (o.rename δ ρ)) = none ↔ g.equalReference? key (some o) = none := by
  rw [T.left.toOwned.equalReference?_eq_none_iff, T.right.toOwned.equalReference?_eq_none_iff]
  constructor
  · intro hh r x hx ho hk
    refine hh (ρ r) (x.rename δ ρ) (by rw [T.reference, hx]; rfl) ?_ hk
    exact map_rename_eq_iff.2 ho
  · intro hg r x hx ho hk
    obtain ⟨r, rfl⟩ := ρ.surjective r
    rw [T.reference] at hx
    obtain ⟨y, hy, rfl⟩ := Option.map_eq_some_iff.1 hx
    exact hg r y hy (map_rename_eq_iff.1 ho) hk

/-- The renaming that gives a new entry of the one graph the number it has in the other. -/
def extendAt {α : Type} [DecidableEq α] (e : α ≃ α) (n n' : α) : α ≃ α :=
  e.trans (Equiv.swap (e n) n')

theorem extendAt_self {α : Type} [DecidableEq α] {e : α ≃ α} {n n' : α} :
    extendAt e n n' n = n' := by simp [extendAt]

theorem extendAt_of_ne {α : Type} [DecidableEq α] {e : α ≃ α} {a n n' : α} (ha : a ≠ n)
    (ha' : e a ≠ n') : extendAt e n n' a = e a := by
  rw [extendAt, Equiv.trans_apply, Equiv.swap_apply_of_ne_of_ne (e.injective.ne ha) ha']

/-- What was given out keeps its name. -/
theorem extendAt_of_issued (hr : r.index < g.references.size)
    (hr' : (ρ r).index < h.references.size) :
    extendAt ρ g.nextReference h.nextReference r = ρ r := by
  refine extendAt_of_ne (fun he => ?_) fun he => ?_
  · rw [he] at hr
    exact Nat.lt_irrefl _ hr
  · rw [he] at hr'
    exact Nat.lt_irrefl _ hr'

theorem Twin.renamed_extendAt (T : Twin δ ρ g h) :
    Renamed δ (extendAt ρ g.nextReference h.nextReference) g h := by
  refine T.toRenamed.congr (fun r hr => ?_) T.left.toOwned fun d p r hp hr => ?_
  · exact extendAt_of_issued (index_lt_of_hasReference hr)
      (index_lt_of_hasReference (by rw [T.hasReference]; exact hr))
  · refine extendAt_of_issued (T.left.recorded d p r hp hr) ?_
    have hp' : h.redundantProtocols.find? (δ d) = some (p.rename ρ) := by
      have := T.notes.redundantProtocols d
      rw [show h.notes.redundantProtocols = h.redundantProtocols from rfl,
        show g.notes.redundantProtocols = g.redundantProtocols from rfl, hp] at this
      exact this
    refine T.right.recorded (δ d) (p.rename ρ) (ρ r) hp' ?_
    simpa [RedundantProtocol.rename] using hr

/-- Both graphs get a new reference, and the renaming sends the one to the other. -/
theorem Renamed.addReference (R : Renamed δ ρ g h) {m : Mention} {o o' : Option Owner}
    (ho : o'.filter h.hasOwner = (o.filter g.hasOwner).map (Owner.rename δ ρ))
    (hnext : ρ g.nextReference = h.nextReference)
    (hnew : g.equalReference? m.key o = none) (hnew' : h.equalReference? m.key o' = none) :
    Renamed δ ρ (g.addReference m o).1 (h.addReference m o').1 := by
  refine R.of_notes (notes_addReference hnew) (notes_addReference hnew') (fun c => ?_)
    (fun r => ?_) ?_ ?_
  · rw [declaration?_addReference hnew', declaration?_addReference hnew, R.declaration, ho,
      Option.map_map, Option.map_map]
    refine congrArg (Option.map · _) (funext fun x => ?_)
    have hc : (o.filter g.hasOwner).map (Owner.rename δ ρ) = some (.declaration (δ c)) ↔
        o.filter g.hasOwner = some (.declaration c) := map_rename_eq_iff (w := .declaration c)
    by_cases hoc : o.filter g.hasOwner = some (.declaration c)
    · simp only [Function.comp_apply, if_pos hoc, if_pos (hc.2 hoc),
        Declaration.rename_addReference, hnext]
    · simp only [Function.comp_apply, if_neg hoc, if_neg (mt hc.1 hoc)]
  · rw [reference?_addReference hnew', reference?_addReference hnew, R.reference, ho, ← hnext]
    by_cases hr : r = g.nextReference
    · subst hr
      simp only [if_true, Option.map_some, Reference.rename, SortedSet.image_empty]
    · rw [if_neg (ρ.injective.ne hr), if_neg hr, Option.map_map, Option.map_map]
      refine congrArg (Option.map · _) (funext fun x => ?_)
      have hc : (o.filter g.hasOwner).map (Owner.rename δ ρ) = some (.reference (ρ r)) ↔
          o.filter g.hasOwner = some (.reference r) := map_rename_eq_iff (w := .reference r)
      by_cases hor : o.filter g.hasOwner = some (.reference r)
      · simp only [Function.comp_apply, if_pos hor, if_pos (hc.2 hor), Reference.rename,
          SortedSet.image_insert]
      · simp only [Function.comp_apply, if_neg hor, if_neg (mt hc.1 hor)]
  · rw [roots_addReference hnew', roots_addReference hnew, R.roots]
  · rw [rootReferences_addReference hnew', rootReferences_addReference hnew, R.rootReferences, ho]
    by_cases hon : o.filter g.hasOwner = none
    · rw [if_pos hon, if_pos (by rw [hon]; rfl), SortedSet.image_insert, hnext]
    · rw [if_neg hon, if_neg (by simpa using hon)]

theorem Unambiguous.addReference (hu : g.Unambiguous) {m : Mention} {o : Option Owner} :
    (g.addReference m o).1.Unambiguous := by
  cases hnew : g.equalReference? m.key o with
  | some q => rw [addReference_eq_of_some hnew]; exact hu
  | none =>
      refine hu.of_usrs fun d y hy => ?_
      rw [declaration?_addReference hnew] at hy
      obtain ⟨x, hx, rfl⟩ := Option.map_eq_some_iff.1 hy
      refine ⟨x, hx, ?_⟩
      split <;> simp

/-- **A new reference of corresponding declarations**, where they had no equal one. -/
theorem Twin.addUse (T : Twin δ ρ g h) {m : Mention} :
    Tracks δ ρ g h (g.addUse m d) (h.addUse m (δ d)) := by
  have hequal : h.equalReference? m.key (some (.declaration (δ d))) = none ↔
      g.equalReference? m.key (some (.declaration d)) = none :=
    T.equalReference?_eq_none_iff (o := .declaration d)
  unfold Graph.addUse
  cases hnew : g.equalReference? m.key (some (.declaration d)) with
  | some q =>
      obtain ⟨q', hq'⟩ : ∃ q', h.equalReference? m.key (some (.declaration (δ d))) = some q' := by
        refine Option.ne_none_iff_exists'.1 fun he => ?_
        rw [hequal.1 he] at hnew
        cases hnew
      rw [addReference_eq_of_some hnew, addReference_eq_of_some hq']
      exact .refl T
  | none =>
      have hnew' := hequal.2 hnew
      have howner : (some (Owner.declaration (δ d))).filter h.hasOwner =
          ((some (Owner.declaration d)).filter g.hasOwner).map
            (Owner.rename δ (extendAt ρ g.nextReference h.nextReference)) := by
        have hd : h.hasOwner (.declaration (δ d)) = g.hasOwner (.declaration d) := T.hasDeclaration
        simp only [Option.filter_some, hd]
        split <;> rfl
      refine ⟨extendAt ρ g.nextReference h.nextReference, fun r => extendAt_of_issued, ?_, ?_, ?_⟩
      · rw [references_size_addReference hnew]; omega
      · rw [references_size_addReference hnew']; omega
      · exact ⟨T.renamed_extendAt.addReference howner extendAt_self hnew hnew',
          T.left.addReference, T.right.addReference, T.unambiguous.addReference⟩

/-! ## Moving -/

theorem Twin.nestingOf (T : Twin δ ρ g h) : h.nestingOf (δ d) = g.nestingOf d := by
  unfold Graph.nestingOf
  rw [T.any_parentDeclaration fun x => SortedSet.contains_image δ.injective]

/-- **Moving corresponding declarations.** -/
theorem Twin.moveDeclaration (T : Twin δ ρ g h) :
    Twin δ ρ (g.moveDeclaration d t) (h.moveDeclaration (δ d) (δ t)) := by
  by_cases ht : g.hasDeclaration t = true
  · have ht' : h.hasDeclaration (δ t) = true := by rw [T.hasDeclaration]; exact ht
    cases hx : g.declaration? d with
    | none =>
        have hx' : h.declaration? (δ d) = none := by rw [T.declaration, hx]; rfl
        rw [moveDeclaration_of_none hx, moveDeclaration_of_none hx']
        exact T
    | some x =>
        have hx' : h.declaration? (δ d) = some (x.rename δ ρ) := by rw [T.declaration, hx]; rfl
        have hleft : (g.moveDeclaration d t).Consistent := T.left.moveDeclaration
        have hright : (h.moveDeclaration (δ d) (δ t)).Consistent := T.right.moveDeclaration
        rw [moveDeclaration_eq hx ht] at hleft ⊢
        rw [moveDeclaration_eq hx' ht'] at hright ⊢
        have hparent : ∀ c, (x.rename δ ρ).parent = some (δ c) ↔ x.parent = some c := by
          intro c
          rw [Declaration.parent_rename]
          exact ⟨fun he => by
            obtain ⟨a, ha, he⟩ := Option.map_eq_some_iff.1 he
            rw [ha, δ.injective he], fun he => by rw [he]; rfl⟩
        refine ⟨T.of_notes notes_relocated notes_relocated (fun c => ?_) (fun r => ?_) ?_ ?_,
          hleft, hright, T.unambiguous.of_usrs fun c y hy => ?_⟩
        · rw [declaration?_relocated, declaration?_relocated, T.declaration, Option.map_map,
            Option.map_map]
          refine congrArg (Option.map · _) (funext fun y => ?_)
          simp only [Function.comp_apply, hparent, δ.injective.eq_iff, T.nestingOf]
          split <;> split <;> split <;>
            simp [← Declaration.rename_dropChild, ← Declaration.rename_addChild] <;> rfl
        · rw [reference?_relocated, reference?_relocated, T.reference]
        · rw [roots_relocated, roots_relocated, T.roots, Declaration.parent_rename]
          cases x.parent with
          | none => simp [SortedSet.image_erase δ.injective]
          | some p => simp
        · rw [rootReferences_relocated, rootReferences_relocated, T.rootReferences]
        · rw [declaration?_relocated] at hy
          obtain ⟨z, hz, rfl⟩ := Option.map_eq_some_iff.1 hy
          refine ⟨z, hz, ?_⟩
          simp only
          split <;> split <;> split <;> simp
  · have ht' : h.hasDeclaration (δ t) ≠ true := by rwa [T.hasDeclaration]
    rw [moveDeclaration_of_dead ht, moveDeclaration_of_dead ht']
    exact T

theorem references_moveDeclaration : (g.moveDeclaration d t).references = g.references := by
  obtain he | ⟨x, -, -, he⟩ := moveDeclaration_cases g d t <;> rw [he]
  exact references_relocated

theorem references_size_moveDeclaration :
    (g.moveDeclaration d t).references.size = g.references.size := by
  rw [references_moveDeclaration]

/-- Corresponding references under new owners. -/
theorem Twin.reowned (T : Twin δ ρ g h) {x : Reference}
    (howner : ∀ w : Owner, (x.rename δ ρ).owner = some (w.rename δ ρ) ↔ x.owner = some w)
    (hg : (g.reowned r t x).Consistent)
    (hh : (h.reowned (ρ r) (δ t) (x.rename δ ρ)).Consistent) :
    Twin δ ρ (g.reowned r t x) (h.reowned (ρ r) (δ t) (x.rename δ ρ)) := by
  refine ⟨T.of_notes notes_reowned notes_reowned (fun c => ?_) (fun s => ?_) ?_ ?_, hg, hh,
    T.unambiguous.of_usrs fun c y hy => ?_⟩
  · have hc : (x.rename δ ρ).owner = some (.declaration (δ c)) ↔
        x.owner = some (.declaration c) := howner (.declaration c)
    rw [declaration?_reowned, declaration?_reowned, T.declaration, Option.map_map, Option.map_map]
    refine congrArg (Option.map · _) (funext fun y => ?_)
    simp only [Function.comp_apply, hc, δ.injective.eq_iff]
    split <;> split <;>
      simp only [Declaration.rename_dropReference, Declaration.rename_addReference,
        Reference.toMention_rename]
  · have hs : (x.rename δ ρ).owner = some (.reference (ρ s)) ↔
        x.owner = some (.reference s) := howner (.reference s)
    rw [reference?_reowned, reference?_reowned, T.reference, Option.map_map, Option.map_map]
    refine congrArg (Option.map · _) (funext fun y => ?_)
    simp only [Function.comp_apply, hs, ρ.injective.eq_iff]
    split <;> split <;>
      simp [Reference.rename, SortedSet.image_erase ρ.injective, Owner.rename]
  · rw [roots_reowned, roots_reowned, T.roots]
  · rw [rootReferences_reowned, rootReferences_reowned, T.rootReferences]
    cases hx : x.owner with
    | none => simp [Reference.rename, hx, SortedSet.image_erase ρ.injective]
    | some w => simp [Reference.rename, hx]
  · rw [declaration?_reowned] at hy
    obtain ⟨z, hz, rfl⟩ := Option.map_eq_some_iff.1 hy
    refine ⟨z, hz, ?_⟩
    simp only
    split <;> split <;> simp

/-- **Moving corresponding references.** -/
theorem Twin.moveReference (T : Twin δ ρ g h) :
    Twin δ ρ (g.moveReference r t) (h.moveReference (ρ r) (δ t)) := by
  cases hx : g.reference? r with
  | none =>
      have hx' : h.reference? (ρ r) = none := by rw [T.reference, hx]; rfl
      rw [moveReference_of_none hx, moveReference_of_none hx']
      exact T
  | some x =>
      have hx' : h.reference? (ρ r) = some (x.rename δ ρ) := by rw [T.reference, hx]; rfl
      have hlive : h.hasDeclaration (δ t) = g.hasDeclaration t := T.hasDeclaration
      have howner : ∀ w : Owner, (x.rename δ ρ).owner = some (w.rename δ ρ) ↔ x.owner = some w :=
        fun w => map_rename_eq_iff
      have hequal : h.equalReference? x.toMention.key (some (.declaration (δ t))) = none ↔
          g.equalReference? x.toMention.key (some (.declaration t)) = none :=
        T.equalReference?_eq_none_iff (o := .declaration t)
      have hleft : (g.moveReference r t).Consistent := T.left.moveReference
      have hright : (h.moveReference (ρ r) (δ t)).Consistent := T.right.moveReference
      have hto : (x.rename δ ρ).owner = some (.declaration (δ t)) ↔
          x.owner = some (.declaration t) := howner (.declaration t)
      by_cases hs : g.hasDeclaration t ≠ true ∨ x.owner = some (.declaration t)
      · rw [moveReference_of_stay hx hs, moveReference_of_stay hx' (by rwa [hlive, hto])]
        exact T
      · obtain ⟨ht, ho⟩ := not_or.1 hs
        rw [ne_eq, not_not] at ht
        by_cases he : g.equalReference? x.toMention.key (some (.declaration t)) = none
        · rw [moveReference_of_new hx ht ho he] at hleft ⊢
          rw [moveReference_of_new hx' (hlive.trans ht) (mt hto.1 ho) (hequal.2 he)] at hright ⊢
          exact T.reowned howner hleft hright
        · rw [moveReference_of_equal hx ht ho he,
            moveReference_of_equal hx' (hlive.trans ht) (mt hto.1 ho) (mt hequal.1 he)]
          exact T.removeReference

theorem references_size_moveReference (hg : g.Owned) :
    (g.moveReference r t).references.size = g.references.size := by
  obtain he | he | ⟨x, -, -, -, he⟩ := moveReference_cases g r t <;> rw [he]
  · exact (pruned_removeReference hg r).references_size
  · exact references_size_reowned

/-! ## Recording -/

/-- A change of the notes alone. -/
theorem Twin.of_noted (T : Twin δ ρ g h) (hg : g'.Consistent) (hh : h'.Consistent)
    (hgd : g'.declarations = g.declarations) (hhd : h'.declarations = h.declarations)
    (hgr : g'.references = g.references) (hhr : h'.references = h.references)
    (hgs : g'.roots = g.roots) (hhs : h'.roots = h.roots)
    (hgq : g'.rootReferences = g.rootReferences) (hhq : h'.rootReferences = h.rootReferences)
    (hn : Notes.Renamed δ ρ g'.notes h'.notes) : Twin δ ρ g' h' where
  declaration d := by
    simp only [Graph.declaration?, hgd, hhd]
    exact T.declaration d
  reference r := by
    simp only [Graph.reference?, hgr, hhr]
    exact T.reference r
  roots := by rw [hgs, hhs, T.roots]
  rootReferences := by rw [hgq, hhq, T.rootReferences]
  notes := hn
  left := hg
  right := hh
  unambiguous := T.unambiguous.of_usrs fun d y hy => by
    simp only [Graph.declaration?, hgd] at hy
    exact ⟨y, hy, rfl⟩

/-- Maps that agree under new names agree once both have the same entry. -/
theorem find?_insert_rename {α β : Type} {m : SortedMap DeclId α} {n : SortedMap DeclId β} {f : α → β}
    (H : ∀ c, n.find? (δ c) = (m.find? c).map f) (d : DeclId) (v : α) (c : DeclId) :
    (n.insert (δ d) (f v)).find? (δ c) = ((m.insert d v).find? c).map f := by
  rw [SortedMap.find?_insert, SortedMap.find?_insert]
  by_cases hc : c = d
  · rw [if_pos hc, if_pos (congrArg δ hc)]
    rfl
  · rw [if_neg hc, if_neg (δ.injective.ne hc)]
    exact H c

theorem Twin.recordFolded (T : Twin δ ρ g h) :
    Twin δ ρ (g.recordFolded d t) (h.recordFolded (δ d) (δ t)) := by
  have hop : ∀ {k : Graph} {a b : DeclId}, k.Consistent → (k.recordFolded a b).Consistent :=
    fun {k a b} hk => hk.apply (.recordFolded a b) trivial
  exact T.of_noted (hop T.left) (hop T.right) rfl rfl rfl rfl rfl rfl rfl rfl
    { T.notes with folded := find?_insert_rename T.notes.folded d t }

theorem Twin.recordRedundantAccess (T : Twin δ ρ g h) {result : RedundantAccess} :
    Twin δ ρ (g.recordRedundantAccess d result) (h.recordRedundantAccess (δ d) result) := by
  have hop : ∀ {k : Graph} {a : DeclId}, k.Consistent →
      (k.recordRedundantAccess a result).Consistent :=
    fun {k a} hk => hk.apply (.recordRedundantAccess a result) trivial
  have hold : ∀ c, h.redundantAccess.find? (δ c) = (g.redundantAccess.find? c).map id := fun c => by
    rw [Option.map_id]
    exact T.notes.redundantAccess c
  refine T.of_noted (hop T.left) (hop T.right) rfl rfl rfl rfl rfl rfl rfl rfl
    { T.notes with redundantAccess := fun c => ?_ }
  exact (find?_insert_rename hold d result c).trans (congrFun Option.map_id _)

theorem Twin.recordRedundantProtocol (T : Twin δ ρ g h) {p : RedundantProtocol}
    (hp : ∀ r, r ∈ p.references.toList ∨ r ∈ p.inherited.toList → g.hasReference r = true) :
    Twin δ ρ (g.recordRedundantProtocol d p) (h.recordRedundantProtocol (δ d) (p.rename ρ)) := by
  refine T.of_noted
    (T.left.recordRedundantProtocol fun r hr => index_lt_of_hasReference (hp r hr))
    (T.right.recordRedundantProtocol fun r hr => index_lt_of_hasReference ?_)
    rfl rfl rfl rfl rfl rfl rfl rfl
    { T.notes with redundantProtocols := find?_insert_rename T.notes.redundantProtocols d p }
  obtain ⟨r, rfl⟩ := ρ.surjective r
  rw [T.hasReference]
  refine hp r ?_
  simpa [RedundantProtocol.rename] using hr

theorem Twin.recordUnusedImport (T : Twin δ ρ g h) {i : UnusedImport} :
    Twin δ ρ (g.recordUnusedImport i) (h.recordUnusedImport i) := by
  have hop : ∀ {k : Graph}, k.Consistent → (k.recordUnusedImport i).Consistent :=
    fun {k} hk => hk.apply (.recordUnusedImport i) trivial
  refine T.of_noted (hop T.left) (hop T.right) rfl rfl rfl rfl rfl rfl rfl rfl
    { T.notes with unusedImports := ?_ }
  show h.unusedImports.insert i = g.unusedImports.insert i
  rw [show h.unusedImports = g.unusedImports from T.notes.unusedImports]

end Graph

end Deadwood

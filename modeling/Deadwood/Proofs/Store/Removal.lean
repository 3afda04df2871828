/-
  Removing references from a consistent graph.

  1. **`Pruned gone g h`** — `h` is `g` without the references of the list `gone`: their entries are
     empty, nobody lists them, and everything else is as before.  Taking out one reference after the
     other prunes the list, in whatever order, because in a consistent graph only its owner lists a
     reference.

  2. **Trees** — removing a reference prunes its tree, and removing several prunes all their trees.
     The crux is that trees of references are closed under nesting, so what is still there after a
     removal has the tree it had before, less what is gone.
-/
import Deadwood.Proofs.Search
import Deadwood.Proofs.Store.Consistent

namespace Deadwood

/-- The declaration without some of its references. -/
def Declaration.without (x : Declaration) (gone : List RefId) : Declaration :=
  { x with references := x.references.without gone, related := x.related.without gone }

/-- The reference without some of those nested in it. -/
def Reference.without (x : Reference) (gone : List RefId) : Reference :=
  { x with nested := x.nested.without gone }

@[simp] theorem Declaration.held_without {x : Declaration} {gone : List RefId} {b : Bool} :
    (x.without gone).held b = (x.held b).without gone := by cases b <;> rfl

theorem Declaration.without_congr {x : Declaration} {gone more : List RefId}
    (h : ∀ b, ∀ r ∈ (x.held b).toList, (r ∈ gone ↔ r ∈ more)) :
    x.without gone = x.without more := by
  have hset : ∀ b, (x.held b).without gone = (x.held b).without more := fun b =>
    SortedSet.eq_of_mem_iff fun r => by
      simp only [SortedSet.mem_without]
      exact and_congr_right fun hr => not_congr (h b r hr)
  have href : x.references.without gone = x.references.without more := hset false
  have hrel : x.related.without gone = x.related.without more := hset true
  simp only [Declaration.without, href, hrel]

theorem Reference.without_congr {x : Reference} {gone more : List RefId}
    (h : ∀ r ∈ x.nested.toList, (r ∈ gone ↔ r ∈ more)) : x.without gone = x.without more := by
  have hset : x.nested.without gone = x.nested.without more :=
    SortedSet.eq_of_mem_iff fun r => by
      simp only [SortedSet.mem_without]
      exact and_congr_right fun hr => not_congr (h r hr)
  simp only [Reference.without, hset]

theorem Declaration.without_without {x : Declaration} {gone more : List RefId} :
    (x.without gone).without more = x.without (gone ++ more) := by
  simp only [Declaration.without, SortedSet.without_without]

theorem Reference.without_without {x : Reference} {gone more : List RefId} :
    (x.without gone).without more = x.without (gone ++ more) := by
  simp only [Reference.without, SortedSet.without_without]

@[simp] theorem Declaration.without_nil {x : Declaration} : x.without [] = x := by
  simp [Declaration.without]

@[simp] theorem Reference.without_nil {x : Reference} : x.without [] = x := by
  simp [Reference.without]

theorem Declaration.dropReference_eq_without {x : Declaration} {r : RefId} :
    x.dropReference r = x.without [r] := by
  simp only [Declaration.dropReference, Declaration.without, SortedSet.erase_eq_without]

namespace Graph

variable {g h k : Graph} {c d p : DeclId} {r s id : RefId} {gone more : List RefId}
  {named : Prop}

/-- The references of `h` are those of `g` without some. -/
structure Trimmed (gone : List RefId) (g h : Graph) : Prop where
  reference : ∀ r, h.reference? r = if r ∈ gone then none else (g.reference? r).map (·.without gone)
  rootReferences : h.rootReferences = g.rootReferences.without gone
  uses : ∀ usr, Index.get h.referencesByUsr usr = (Index.get g.referencesByUsr usr).without gone
  references_size : h.references.size = g.references.size
  declarations_size : h.declarations.size = g.declarations.size

/-- `h` is `g` without some references. -/
structure Pruned (gone : List RefId) (g h : Graph) : Prop extends Trimmed gone g h where
  declaration : ∀ d, h.declaration? d = (g.declaration? d).map (·.without gone)
  roots : h.roots = g.roots
  byUsr : h.declarationsByUsr = g.declarationsByUsr
  byKind : h.declarationsByKind = g.declarationsByKind
  notes : h.notes = g.notes

/-- Whoever lists a reference is its owner, and it is there.  This is half of consistency: it
survives also while a tree of references is being taken apart. -/
structure Listed (g : Graph) : Prop where
  held : ∀ d x b r, g.declaration? d = some x → r ∈ (x.held b).toList →
    g.ownerOf? r = some (.declaration d)
  nested : ∀ o x r, g.reference? o = some x → r ∈ x.nested.toList →
    g.ownerOf? r = some (.reference o)
  root : ∀ r ∈ g.rootReferences.toList, g.hasReference r = true ∧ g.ownerOf? r = none
  uses : ∀ usr, ∀ r ∈ (Index.get g.referencesByUsr usr).toList,
    ∃ x, g.reference? r = some x ∧ x.usr = usr

theorem Owned.listed (hg : g.Owned) : g.Listed where
  held d x b r hx hr := by
    obtain ⟨y, hy, ho, -⟩ := (hg.held_iff d b r).1 (mem_heldBy_iff.2 ⟨x, hx, hr⟩)
    exact ownerOf?_eq_some_iff.2 ⟨y, hy, ho⟩
  nested o x r hx hr := (hg.nested_iff o r).1 (mem_nestedReferences_iff.2 ⟨x, hx, hr⟩)
  root r hr := (hg.rootReference_iff r).1 hr
  uses usr r hr := (hg.uses usr r).1 hr

theorem live_of_ownerOf? {o : Owner} (h : g.ownerOf? r = some o) : g.hasReference r = true := by
  obtain ⟨x, hx, -⟩ := ownerOf?_eq_some_iff.1 h
  exact hasReference_of_eq hx

namespace Trimmed

theorem trans (hgh : Trimmed gone g h) (hhk : Trimmed more h k) : Trimmed (gone ++ more) g k where
  reference r := by
    rw [hhk.reference, hgh.reference]
    by_cases hr : r ∈ gone <;> by_cases hm : r ∈ more <;>
      simp [hr, hm, Function.comp_def, Reference.without_without]
  rootReferences := by
    rw [hhk.rootReferences, hgh.rootReferences, SortedSet.without_without]
  uses usr := by rw [hhk.uses, hgh.uses, SortedSet.without_without]
  references_size := hhk.references_size.trans hgh.references_size
  declarations_size := hhk.declarations_size.trans hgh.declarations_size

/-- Only the live references of the list count. -/
theorem congr (hg : g.Listed) (h : Trimmed gone g k)
    (hm : ∀ r, g.hasReference r = true → (r ∈ gone ↔ r ∈ more)) : Trimmed more g k where
  reference r := by
    rw [h.reference]
    cases hx : g.reference? r with
    | none => simp
    | some x =>
        have hw : x.without gone = x.without more :=
          Reference.without_congr fun q hq => hm q (live_of_ownerOf? (hg.nested r x q hx hq))
        simp only [hm r (hasReference_of_eq hx), Option.map_some, hw]
  rootReferences := by
    rw [h.rootReferences]
    refine SortedSet.eq_of_mem_iff fun r => ?_
    simp only [SortedSet.mem_without]
    exact and_congr_right fun hr => not_congr (hm r (hg.root r hr).1)
  uses usr := by
    rw [h.uses]
    refine SortedSet.eq_of_mem_iff fun r => ?_
    simp only [SortedSet.mem_without]
    refine and_congr_right fun hr => not_congr (hm r ?_)
    obtain ⟨x, hx, -⟩ := hg.uses usr r hr
    exact hasReference_of_eq hx
  references_size := h.references_size
  declarations_size := h.declarations_size

theorem ownerOf? (h : Trimmed gone g k) (hr : r ∉ gone) : k.ownerOf? r = g.ownerOf? r := by
  simp only [Graph.ownerOf?, h.reference, if_neg hr]
  cases g.reference? r <;> rfl

theorem hasReference_iff (h : Trimmed gone g k) :
    k.hasReference r = true ↔ g.hasReference r = true ∧ r ∉ gone := by
  simp only [hasReference, h.reference]
  by_cases hr : r ∈ gone <;> simp [hr]

theorem mem_nestedReferences_iff (h : Trimmed gone g k) :
    r ∈ k.nestedReferences s ↔ r ∈ g.nestedReferences s ∧ s ∉ gone ∧ r ∉ gone := by
  simp only [nestedReferences, h.reference]
  by_cases hs : s ∈ gone
  · simp [hs]
  · cases g.reference? s <;> simp [hs, Reference.without]

end Trimmed

/-- Fewer references leave fewer in the lists of a declaration. -/
theorem Listed.without_congr (hg : g.Listed) {x : Declaration} (hx : g.declaration? d = some x)
    (hm : ∀ r, g.hasReference r = true → (r ∈ gone ↔ r ∈ more)) :
    x.without gone = x.without more :=
  Declaration.without_congr fun b r hr => hm r (live_of_ownerOf? (hg.held d x b r hx hr))

namespace Pruned

theorem refl : Pruned [] g g where
  declaration d := by simp
  reference r := by simp
  rootReferences := by simp
  uses usr := by simp
  references_size := rfl
  declarations_size := rfl
  roots := rfl
  byUsr := rfl
  byKind := rfl
  notes := rfl

theorem trans (hgh : Pruned gone g h) (hhk : Pruned more h k) : Pruned (gone ++ more) g k where
  toTrimmed := hgh.toTrimmed.trans hhk.toTrimmed
  declaration d := by
    rw [hhk.declaration, hgh.declaration, Option.map_map]
    simp only [Function.comp_def, Declaration.without_without]
  roots := hhk.roots.trans hgh.roots
  byUsr := hhk.byUsr.trans hgh.byUsr
  byKind := hhk.byKind.trans hgh.byKind
  notes := hhk.notes.trans hgh.notes

/-- Only the live references of the list count. -/
theorem congr (hg : g.Listed) (h : Pruned gone g k)
    (hm : ∀ r, g.hasReference r = true → (r ∈ gone ↔ r ∈ more)) : Pruned more g k where
  toTrimmed := h.toTrimmed.congr hg hm
  declaration d := by
    rw [h.declaration]
    cases hx : g.declaration? d with
    | none => rfl
    | some x => exact congrArg some (hg.without_congr hx hm)
  roots := h.roots
  byUsr := h.byUsr
  byKind := h.byKind
  notes := h.notes

theorem listed (h : Pruned gone g k) (hg : g.Listed) : k.Listed where
  held d x b r hx hr := by
    rw [h.declaration] at hx
    obtain ⟨y, hy, rfl⟩ := Option.map_eq_some_iff.1 hx
    rw [Declaration.held_without, SortedSet.mem_without] at hr
    rw [h.ownerOf? hr.2]
    exact hg.held d y b r hy hr.1
  nested o x r hx hr := by
    rw [h.reference] at hx
    split at hx
    · cases hx
    · obtain ⟨y, hy, rfl⟩ := Option.map_eq_some_iff.1 hx
      have hr := SortedSet.mem_without.1 hr
      rw [h.ownerOf? hr.2]
      exact hg.nested o y r hy hr.1
  root r hr := by
    rw [h.rootReferences, SortedSet.mem_without] at hr
    rw [h.hasReference_iff, h.ownerOf? hr.2]
    have := hg.root r hr.1
    exact ⟨⟨this.1, hr.2⟩, this.2⟩
  uses usr r hr := by
    rw [h.uses, SortedSet.mem_without] at hr
    obtain ⟨x, hx, hu⟩ := hg.uses usr r hr.1
    exact ⟨x.without gone, by rw [h.reference, if_neg hr.2, hx]; rfl, hu⟩

end Pruned

/-! ## Taking out one reference -/

namespace Listed

/-- A declaration that is not the owner of a reference does not list it. -/
theorem without_of_not_owner (hg : g.Listed) {x : Declaration} (hx : g.declaration? d = some x)
    (ho : g.ownerOf? id ≠ some (.declaration d)) : x.without [id] = x := by
  refine (Declaration.without_congr fun b r hr => ?_).trans Declaration.without_nil
  have hne : r ≠ id := fun he => ho (by rw [← he, hg.held d x b r hx hr])
  simp [hne]

/-- A reference that is not the owner of another one does not list it. -/
theorem reference_without_of_not_owner (hg : g.Listed) {x : Reference} (hx : g.reference? s = some x)
    (ho : g.ownerOf? id ≠ some (.reference s)) : x.without [id] = x := by
  refine (Reference.without_congr fun r hr => ?_).trans Reference.without_nil
  have hne : r ≠ id := fun he => ho (by rw [← he, hg.nested s x r hx hr])
  simp [hne]

end Listed

/-- **Taking out a reference prunes it**: only its owner lists it. -/
theorem pruned_takeReference (hg : g.Listed) (id : RefId) :
    Pruned [id] g (g.takeReference id) := by
  unfold takeReference
  cases hx : g.reference? id with
  | none =>
      refine Pruned.refl.congr hg fun r hr => ?_
      have hne : r ≠ id := fun he => by simp [he, hasReference, hx] at hr
      simp [hne]
  | some x =>
      have hown : g.ownerOf? id = x.owner := by simp [ownerOf?, hx]
      exact
        { declaration := fun d => by
            refine declaration?_unlinkReference.trans ?_
            cases hd : g.declaration? d with
            | none => rfl
            | some y =>
                simp only [Option.map_some]
                split
                · rw [Declaration.dropReference_eq_without]
                · rename_i ho
                  rw [hg.without_of_not_owner hd (by rwa [hown])]
          reference := fun r => by
            have he : ∀ k : Graph, ({ k with
                references := k.references.erase id.index
                referencesByUsr := Index.drop g.referencesByUsr x.usr id } : Graph).reference? r =
                if r = id then none else k.reference? r := by
              intro k
              simp only [Graph.reference?, Arena.get?_erase, RefId.index_inj, @eq_comm _ id r]
            refine (he _).trans ?_
            by_cases hr : r = id
            · simp [hr]
            · rw [if_neg hr, if_neg (by simpa using hr), reference?_unlinkReference]
              cases hy : g.reference? r with
              | none => rfl
              | some y =>
                  simp only [Option.map_some]
                  split
                  · simp only [Reference.without, SortedSet.erase_eq_without]
                  · rename_i ho
                    rw [hg.reference_without_of_not_owner hy (by rwa [hown])]
          rootReferences := by
            refine rootReferences_unlinkReference.trans ?_
            split
            · exact SortedSet.erase_eq_without
            · rename_i ho
              exact (SortedSet.without_singleton fun hr => ho (hown.symm.trans (hg.root id hr).2)).symm
          uses := fun usr => Index.get_drop_eq_without fun hr => by
            obtain ⟨y, hy, hyu⟩ := hg.uses usr id hr
            rw [hx] at hy
            cases hy
            exact hyu.symm
          references_size := by
            show (Arena.erase _ _).size = _
            rw [Arena.size_erase, references_size_unlinkReference]
          declarations_size := declarations_size_unlinkReference
          roots := roots_unlinkReference
          byUsr := declarationsByUsr_unlinkReference
          byKind := declarationsByKind_unlinkReference
          notes := notes_unlinkReference }

/-- Taking out one reference after the other prunes them all. -/
theorem pruned_foldl_takeReference (hg : g.Listed) (ids : List RefId) :
    Pruned ids g (ids.foldl takeReference g) := by
  induction ids generalizing g with
  | nil => exact .refl
  | cons id ids ih =>
      have hid := pruned_takeReference hg id
      exact hid.trans (ih (hid.listed hg))

/-! ## Trees -/

/-- A reference is another one, or nested in it at some depth. -/
def Nests (g : Graph) : RefId → RefId → Prop := Reaches g.nestedReferences g.refIds

theorem mem_referenceTree : r ∈ g.referenceTree id ↔ g.Nests id r := by
  simp [referenceTree, mem_explore_iff, Nests]

theorem Nests.live_left (hn : g.Nests id r) : g.hasReference id = true :=
  mem_refIds.1 (Reaches.mem_left hn)

theorem Nests.live_right (hn : g.Nests id r) : g.hasReference r = true :=
  mem_refIds.1 (Reaches.mem_right hn)

/-- Nothing that stays is nested in something that goes. -/
def ClosedUnderNesting (g : Graph) (gone : List RefId) : Prop :=
  ∀ r s, g.ownerOf? s = some (.reference r) → r ∈ gone → s ∈ gone

theorem closedUnderNesting_referenceTree (hg : g.Owned) :
    g.ClosedUnderNesting (g.referenceTree id) := by
  intro r s hs hr
  rw [mem_referenceTree] at hr ⊢
  exact .step hr ((hg.nested_iff r s).2 hs) (mem_refIds.2 (live_of_ownerOf? hs))

theorem closedUnderNesting_flatMap (hg : g.Owned) (ids : List RefId) :
    g.ClosedUnderNesting (ids.flatMap g.referenceTree) := by
  intro r s hs hr
  obtain ⟨id, hid, hr⟩ := List.mem_flatMap.1 hr
  exact List.mem_flatMap.2 ⟨id, hid, closedUnderNesting_referenceTree hg r s hs hr⟩

/-- Whatever is nested in something of a closed list is in the list. -/
theorem ClosedUnderNesting.mem_of_nests (hg : g.Owned) (hc : g.ClosedUnderNesting gone)
    (hn : g.Nests s r) (hs : s ∈ gone) : r ∈ gone := by
  induction hn with
  | here _ => exact hs
  | step _ hz _ ih => exact hc _ _ ((hg.nested_iff _ _).1 hz) ih

namespace Trimmed

/-- What is still there is nested in what it was nested in. -/
theorem nests_iff (h : Trimmed gone g k) (hg : g.Owned) (hc : g.ClosedUnderNesting gone) :
    k.Nests s r ↔ g.Nests s r ∧ r ∉ gone := by
  constructor
  · intro hn
    induction hn with
    | here hx =>
        have hx := h.hasReference_iff.1 (mem_refIds.1 hx)
        exact ⟨.here (mem_refIds.2 hx.1), hx.2⟩
    | step _ hz hm ih =>
        have hm := h.hasReference_iff.1 (mem_refIds.1 hm)
        exact ⟨.step ih.1 (h.mem_nestedReferences_iff.1 hz).1 (mem_refIds.2 hm.1), hm.2⟩
  · rintro ⟨hn, hr⟩
    induction hn with
    | here hx => exact .here (mem_refIds.2 (h.hasReference_iff.2 ⟨mem_refIds.1 hx, hr⟩))
    | @step y z _ hz hm ih =>
        have hy : y ∉ gone := fun hy => hr (hc y z ((hg.nested_iff _ _).1 hz) hy)
        exact .step (ih hy) (h.mem_nestedReferences_iff.2 ⟨hz, hy, hr⟩)
          (mem_refIds.2 (h.hasReference_iff.2 ⟨mem_refIds.1 hm, hr⟩))

/-- What stays of a closed list's complement keeps its owners, when no owner loses a declaration
that still holds something. -/
theorem owned (h : Trimmed gone g k) (hg : g.Owned) (hc : g.ClosedUnderNesting gone)
    (hheld : ∀ d b r, r ∈ k.heldBy d b ↔ r ∈ g.heldBy d b ∧ r ∉ gone) : k.Owned where
  uses usr r := by
    rw [h.uses, SortedSet.mem_without, hg.uses, h.reference]
    by_cases hr : r ∈ gone
    · simp [hr]
    · cases g.reference? r <;> simp [hr, Reference.without]
  held_iff d b r := by
    rw [hheld, hg.held_iff, h.reference]
    by_cases hr : r ∈ gone
    · simp [hr]
    · cases g.reference? r <;> simp [hr, Reference.without]
  nested_iff o r := by
    rw [h.mem_nestedReferences_iff, hg.nested_iff]
    by_cases hr : r ∈ gone
    · simp [hr, Graph.ownerOf?, h.reference]
    · rw [h.ownerOf? hr]
      exact ⟨And.left, fun ho => ⟨ho, fun hog => hr (hc o r ho hog), hr⟩⟩
  rootReference_iff r := by
    rw [h.rootReferences, SortedSet.mem_without, hg.rootReference_iff, h.hasReference_iff]
    by_cases hr : r ∈ gone
    · simp [hr]
    · rw [h.ownerOf? hr]; tauto
  owner_lt r o ho := by
    by_cases hr : r ∈ gone
    · simp [Graph.ownerOf?, h.reference, hr] at ho
    · exact hg.owner_lt r o (h.ownerOf? hr ▸ ho)
  distinct r s x y hx hy := by
    rw [h.reference] at hx hy
    split at hx
    · cases hx
    · split at hy
      · cases hy
      · obtain ⟨x, hx', rfl⟩ := Option.map_eq_some_iff.1 hx
        obtain ⟨y, hy', rfl⟩ := Option.map_eq_some_iff.1 hy
        exact hg.distinct r s x y hx' hy'

end Trimmed

namespace Pruned

theorem hasDeclaration (h : Pruned gone g k) : k.hasDeclaration d = g.hasDeclaration d := by
  simp [Graph.hasDeclaration, h.declaration]

theorem mem_heldBy_iff {b : Bool} (h : Pruned gone g k) :
    r ∈ k.heldBy d b ↔ r ∈ g.heldBy d b ∧ r ∉ gone := by
  simp only [heldBy, h.declaration]
  cases g.declaration? d <;> simp

theorem owned (h : Pruned gone g k) (hg : g.Owned) (hc : g.ClosedUnderNesting gone) : k.Owned :=
  h.toTrimmed.owned hg hc fun _ _ _ => h.mem_heldBy_iff

theorem indexed (h : Pruned gone g k) (hg : g.Indexed) : k.Indexed :=
  hg.congr (fun d => by rw [h.declaration]; cases g.declaration? d <;> rfl) h.byUsr h.byKind

/-- **Pruning a closed list leaves the graph consistent.** -/
theorem coherent (h : Pruned gone g k) (hg : g.Coherent named) (hc : g.ClosedUnderNesting gone) :
    k.Coherent named where
  toIndexed := h.indexed hg.toIndexed
  toNested := hg.toNested.congr
    (fun d => by rw [h.declaration]; cases g.declaration? d <;> rfl) h.roots
  toOwned := h.owned hg.toOwned hc
  toNoted := hg.toNoted.congr h.notes (fun d hd => by rwa [h.hasDeclaration])
    (Nat.le_of_eq h.references_size.symm)
  identified hn d x hx := by
    rw [h.declaration] at hx
    obtain ⟨y, hy, rfl⟩ := Option.map_eq_some_iff.1 hx
    exact hg.identified hn d y hy

end Pruned

/-- **Removing a reference prunes its tree.** -/
theorem pruned_removeReference (hg : g.Owned) (id : RefId) :
    Pruned (g.referenceTree id) g (g.removeReference id) :=
  pruned_foldl_takeReference hg.listed _

theorem Coherent.removeReference (hg : g.Coherent named) : (g.removeReference id).Coherent named :=
  (pruned_removeReference hg.toOwned id).coherent hg (closedUnderNesting_referenceTree hg.toOwned)

/-- **Removing several references prunes all their trees.** -/
theorem pruned_foldl_removeReference (hg : g.Owned) (ids : List RefId) :
    Pruned (ids.flatMap g.referenceTree) g (ids.foldl Graph.removeReference g) := by
  induction ids generalizing g with
  | nil => exact .refl
  | cons id ids ih =>
      have hid := pruned_removeReference hg id
      have hc : g.ClosedUnderNesting (g.referenceTree id) := closedUnderNesting_referenceTree hg
      refine (hid.trans (ih (hid.owned hg hc))).congr hg.listed fun r _ => ?_
      simp only [List.mem_append, List.mem_flatMap, List.flatMap_cons, mem_referenceTree,
        hid.nests_iff hg hc]
      by_cases hr : g.Nests id r
      · simp [hr]
      · simp [hr]

theorem Coherent.foldl_removeReference (hg : g.Coherent named) (ids : List RefId) :
    (ids.foldl Graph.removeReference g).Coherent named :=
  (pruned_foldl_removeReference hg.toOwned ids).coherent hg
    (closedUnderNesting_flatMap hg.toOwned ids)

end Graph

end Deadwood

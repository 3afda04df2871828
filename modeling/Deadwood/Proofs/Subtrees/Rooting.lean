/-
  What stands of the tree after every history, and that answers determine a graph.

  1. **`Rooted`** — whoever lists another declaration is its parent, the roots have none, and marks
     are on what is there.  A parameter that was added to the very handle it got lists itself, and
     nothing worse can happen: one operation keeps the rest (`Rooted.apply`), whatever handles it is
     given.

  2. **`Compact`** — no index keeps an entry with nothing under it.  So graphs that are the same graph
     without the same entries are equal (`Compact.eq_of_felled`).
-/
import Deadwood.Proofs.Filing

namespace Deadwood

open Std

/-- Numbered entries are determined by their answers. -/
theorem Arena.eq_of_get?_eq {α : Type} {a b : Arena α} (hs : a.size = b.size)
    (h : ∀ i, a.get? i = b.get? i) : a = b := by
  obtain ⟨xs⟩ := a
  obtain ⟨ys⟩ := b
  have hs : xs.size = ys.size := hs
  refine congrArg Arena.mk (Array.ext hs fun i hi hi' => ?_)
  have hi := h i
  simp only [get?, Array.getElem?_eq_getElem, *] at hi
  simpa using hi

/-- A change that leaves the entry as it is changes nothing. -/
theorem Arena.modify_eq_self {α : Type} {a : Arena α} {i : Nat} {f : α → α}
    (h : ∀ x, a.get? i = some x → f x = x) : a.modify i f = a := by
  refine Arena.eq_of_get?_eq Arena.size_modify fun j => ?_
  rw [Arena.get?_modify]
  split
  · rename_i hj
    subst hj
    cases hx : a.get? i with
    | none => rfl
    | some x => exact congrArg some (h x hx)
  · rfl

namespace Index

variable {κ : Type} {α : Type} [Ord κ] [Ord α]

/-- Something is filed under every key. -/
def Compact (m : Index κ α) : Prop := ∀ k s, m.find? k = some s → s.toList ≠ []

theorem compact_empty : Compact (∅ : Index κ α) := fun _ _ h => by cases h

variable [TransOrd κ] [LawfulEqOrd κ] {m n : Index κ α} {x : α} {keys : List κ}

section

variable [DecidableEq κ]

theorem Compact.add [TransOrd α] [LawfulEqOrd α] (hm : Compact m) (k : κ) (x : α) :
    Compact (Index.add m k x) := by
  intro a s hs
  rw [Index.add, SortedMap.find?_alter] at hs
  split at hs
  · cases hs
    exact List.ne_nil_of_mem (SortedSet.mem_insert.2 (.inl rfl))
  · exact hm a s hs

theorem Compact.drop (hm : Compact m) (k : κ) (x : α) : Compact (Index.drop m k x) := by
  intro a s hs
  rw [Index.drop, SortedMap.find?_alter] at hs
  split at hs
  · have hne := (Option.filter_eq_some_iff.1 hs).2
    simpa [SortedSet.isEmpty] using hne
  · exact hm a s hs

theorem Compact.foldl_add [TransOrd α] [LawfulEqOrd α] (hm : Compact m) :
    Compact (keys.foldl (fun m k => Index.add m k x) m) := by
  induction keys generalizing m with
  | nil => exact hm
  | cons k keys ih => exact ih (hm.add k x)

theorem Compact.foldl_drop (hm : Compact m) :
    Compact (keys.foldl (fun m k => Index.drop m k x) m) := by
  induction keys generalizing m with
  | nil => exact hm
  | cons k keys ih => exact ih (hm.drop k x)

end

/-- **Compact indices are determined by what they answer.** -/
theorem Compact.eq_of_get (hm : Compact m) (hn : Compact n)
    (h : ∀ k, Index.get m k = Index.get n k) : m = n := by
  refine SortedMap.eq_of_find?_eq fun k => ?_
  have hk := h k
  have hempty : ∀ {l : Index κ α} {s : SortedSet α}, Compact l → l.find? k = some s →
      s ≠ (∅ : SortedSet α) := fun hl hs he => hl k _ hs (he ▸ rfl)
  cases hx : m.find? k with
  | none =>
      cases hy : n.find? k with
      | none => rfl
      | some t => exact absurd (by simpa [Index.get, hx, hy] using hk.symm) (hempty hn hy)
  | some s =>
      cases hy : n.find? k with
      | none => exact absurd (by simpa [Index.get, hx, hy] using hk) (hempty hm hx)
      | some t => simpa [Index.get, hx, hy] using hk

end Index

namespace Graph

variable {g h k : Graph} {c d p target : DeclId} {r : RefId} {s : Symbol} {ids : List DeclId}
  {gone : List RefId}

/-! ## Roots -/

/-- Who lists a declaration after a move listed it before, or is where it was moved to. -/
theorem mem_childrenOf_of_relocated {x : Declaration}
    (hc : c ∈ (g.relocated d target x).childrenOf p) :
    (c = d ∧ target = p) ∨ (c ∈ g.childrenOf p ∧ (x.parent = some p → c ≠ d)) := by
  obtain ⟨y, hy, hc⟩ := mem_childrenOf_iff.1 hc
  rw [declaration?_relocated] at hy
  obtain ⟨z, hz, rfl⟩ := Option.map_eq_some_iff.1 hy
  have hold : c ∈ g.childrenOf p ↔ c ∈ z.children := by simp [childrenOf, hz]
  -- the parent link plays no part in the list of children
  have hlink : ∀ y : Declaration, (if d = p then { y with parent := some target }
      else y : Declaration).children = y.children := by
    intro y; split <;> rfl
  rw [← Declaration.mem_children, hlink] at hc
  rw [hold]
  by_cases hp : x.parent = some p <;> by_cases ht : target = p <;>
    simp_all [Declaration.mem_children_addChild, Declaration.mem_children_dropChild]

namespace Rooted

variable {x : Declaration}

/-- Changes elsewhere leave the tree as it stands. -/
theorem congr (hg : g.Rooted) (hi : h.Indexed)
    (hd : ∀ d, (h.declaration? d).map (·.links) = (g.declaration? d).map (·.links))
    (hr : h.roots = g.roots) (hm : h.marks = g.marks) : h.Rooted where
  child p y c hy hc hne := by
    have hchildren : c ∈ g.childrenOf p := by
      rw [← childrenOf_congr (hd p)]
      exact mem_childrenOf_iff.2 ⟨y, hy, Declaration.mem_children.1 hc⟩
    obtain ⟨x, hx, hc⟩ := mem_childrenOf_iff.1 hchildren
    rw [parentOf?_congr (hd c)]
    exact hg.child p x c hx (Declaration.mem_children.2 hc) hne
  root c hc := by
    rw [hasDeclaration_congr (hd c), parentOf?_congr (hd c)]
    exact hg.root c (hr ▸ hc)
  byUsr usr d hd := (hi.byUsr usr d).1 hd
  byKind kind d hd := (hi.byKind kind d).1 hd
  marked mark d hmd := by
    rw [hasDeclaration_congr (hd d)]
    exact hg.marked mark d (hm ▸ hmd)

/-- Changing a declaration apart from its links leaves the tree as it stands. -/
theorem modifyDeclaration {f : Declaration → Declaration} (hg : g.Rooted)
    (hi : (g.modifyDeclaration d f).Indexed)
    (hl : ∀ x, (f x).links = x.links) : (g.modifyDeclaration d f).Rooted :=
  hg.congr hi (fun _ => map_declaration?_modifyDeclaration hl) rfl rfl

/-- What is added is listed by its parent, or it is a root. -/
theorem addDeclaration (hg : g.Rooted) (hi : g.Indexed) {parent : Option DeclId} :
    (g.addDeclaration s parent).1.Rooted where
  child p y c hy hc hne := by
    have hchildren := mem_childrenOf_iff.2 ⟨y, hy, Declaration.mem_children.1 hc⟩
    rw [parentOf?_addDeclaration]
    rcases mem_childrenOf_addDeclaration.1 hchildren with ⟨rfl, hp⟩ | hold
    · rw [if_pos rfl, hp]
    · obtain ⟨x, hx, hc⟩ := mem_childrenOf_iff.1 hold
      have hp := hg.child p x c hx (Declaration.mem_children.2 hc) hne
      obtain ⟨z, hz, -⟩ := parentOf?_eq_some_iff.1 hp
      rw [if_neg (ne_nextDeclaration (hasDeclaration_of_eq hz)), hp]
  root c hc := by
    have hold : c ∈ g.roots.toList → (g.addDeclaration s parent).1.hasDeclaration c = true ∧
        (g.addDeclaration s parent).1.parentOf? c = none := fun hc => by
      have hroot := hg.root c hc
      rw [hasDeclaration_addDeclaration, parentOf?_addDeclaration,
        if_neg (ne_nextDeclaration hroot.1)]
      exact ⟨.inr hroot.1, hroot.2⟩
    rw [roots_addDeclaration] at hc
    split at hc
    · rename_i hnone
      rcases SortedSet.mem_insert.1 hc with rfl | hc
      · rw [hasDeclaration_addDeclaration, parentOf?_addDeclaration, if_pos rfl]
        exact ⟨.inl rfl, hnone⟩
      · exact hold hc
    · exact hold hc
  byUsr usr d hd := ((indexed_addDeclaration hi).byUsr usr d).1 hd
  byKind kind d hd := ((indexed_addDeclaration hi).byKind kind d).1 hd
  marked mark d hd := by
    have he : (g.addDeclaration s parent).1.marks = g.marks :=
      congrArg Notes.marks (notes_addDeclaration (s := s))
    rw [he] at hd
    exact hasDeclaration_addDeclaration.2 (.inr (hg.marked mark d hd))

/-- A parameter is listed by its function, and a function that was not there is the parameter. -/
theorem addUnusedParameter (hg : g.Rooted) (hf : g.Filed) : (g.addUnusedParameter s d).1.Rooted := by
  have hadd : (g.addDeclaration { s with kind := .parameter } (some d)).1.Rooted :=
    hg.addDeclaration hf.toIndexed
  have hindexed : (g.addUnusedParameter s d).1.Indexed := hf.addUnusedParameter.toIndexed
  rw [addUnusedParameter_fst] at hindexed ⊢
  generalize hk : (g.addDeclaration { s with kind := .parameter } (some d)).1 = k at hadd hindexed ⊢
  have hparent : ∀ c, (k.modifyDeclaration d fun x => (x.dropChild g.nextDeclaration).addChild
      .unusedParameter g.nextDeclaration).parentOf? c = k.parentOf? c :=
    fun _ => parentOf?_modifyDeclaration fun _ => by simp
  exact
    { child := fun p y c hy hc hne => by
        rw [hparent]
        rw [declaration?_modifyDeclaration] at hy
        obtain ⟨x, hx, rfl⟩ := Option.map_eq_some_iff.1 hy
        split at hc
        · rename_i hdp
          rcases Declaration.mem_children_addChild.1 hc with rfl | hc
          · -- the function was there before, since the parameter is not its own
            rw [← hk, parentOf?_addDeclaration, if_pos rfl, hdp]
            have hlive : g.hasDeclaration p = true := by
              have := hasDeclaration_of_eq hx
              rw [← hk, hasDeclaration_addDeclaration] at this
              exact this.resolve_left (Ne.symm hne)
            simp [Option.filter, hlive]
          · exact hadd.child p x c hx (Declaration.mem_children_dropChild.1 hc).1 hne
        · exact hadd.child p x c hx hc hne
      root := fun c hc => by
        rw [hparent, hasDeclaration_modifyDeclaration]
        exact hadd.root c hc
      byUsr := fun usr c hc => (hindexed.byUsr usr c).1 hc
      byKind := fun kind c hc => (hindexed.byKind kind c).1 hc
      marked := fun mark c hc => by
        rw [hasDeclaration_modifyDeclaration]
        exact hadd.marked mark c hc }

theorem addUsr (hg : g.Rooted) (hi : g.Indexed) {usr : String} : (g.addUsr d usr).Rooted := by
  refine hg.congr hi.addUsr (fun _ => links_addUsr) roots_addUsr ?_
  unfold Graph.addUsr
  split <;> rfl

theorem unify (hg : g.Rooted) (hf : g.Filed) : (g.unify d s).Rooted := by
  have husrs : (s.usrs.toList.foldl (fun g usr => g.addUsr d usr) g).Rooted ∧
      (s.usrs.toList.foldl (fun g usr => g.addUsr d usr) g).Filed :=
    List.foldlRecOn (motive := fun k : Graph => k.Rooted ∧ k.Filed) _ _ ⟨hg, hf⟩
      fun _ hk _ _ => ⟨hk.1.addUsr hk.2.toIndexed, hk.2.addUsr⟩
  exact husrs.1.modifyDeclaration hf.unify.toIndexed fun _ => rfl

theorem relocated (hg : g.Rooted) (hi : (g.relocated d target x).Indexed)
    (hx : g.declaration? d = some x) : (g.relocated d target x).Rooted where
  child p y c hy hc hne := by
    rw [parentOf?_relocated hx]
    rcases mem_childrenOf_of_relocated (mem_childrenOf_iff.2
      ⟨y, hy, Declaration.mem_children.1 hc⟩) with ⟨rfl, rfl⟩ | ⟨hold, hkept⟩
    · rw [if_pos rfl]
    · obtain ⟨z, hz, hc⟩ := mem_childrenOf_iff.1 hold
      have hp := hg.child p z c hz (Declaration.mem_children.2 hc) hne
      have hcd : c ≠ d := by
        rintro rfl
        exact hkept (by simpa [parentOf?, hx] using hp) rfl
      rw [if_neg hcd, hp]
  root c hc := by
    rw [hasDeclaration_relocated, parentOf?_relocated hx]
    have hold : c ∈ g.roots.toList ∧ c ≠ d := by
      rw [roots_relocated] at hc
      split at hc
      · exact SortedSet.mem_erase.1 hc
      · rename_i hp
        refine ⟨hc, ?_⟩
        rintro rfl
        exact hp (by simpa [parentOf?, hx] using (hg.root c hc).2)
    rw [if_neg hold.2]
    exact hg.root c hold.1
  byUsr usr c hc := (hi.byUsr usr c).1 hc
  byKind kind c hc := (hi.byKind kind c).1 hc
  marked mark c hc := by
    have he : (g.relocated d target x).notes = g.notes := notes_relocated
    rw [show (g.relocated d target x).marks = g.marks from congrArg Notes.marks he] at hc
    rw [hasDeclaration_relocated]
    exact hg.marked mark c hc

/-- What is moved is struck off where it was listed. -/
theorem moveDeclaration (hg : g.Rooted) (hf : g.Filed) : (g.moveDeclaration d target).Rooted := by
  obtain he | ⟨x, hx, -, he⟩ := moveDeclaration_cases g d target <;> rw [he]
  · exact hg
  · exact hg.relocated (indexed_relocated hf.toIndexed) hx

theorem addReference (hg : g.Rooted) (hi : g.Indexed) {m : Mention} {owner : Option Owner} :
    (g.addReference m owner).1.Rooted := by
  cases hnew : g.equalReference? m.key owner with
  | some q => rw [addReference_eq_of_some hnew]; exact hg
  | none =>
      exact hg.congr hi.addReference
        (fun _ => map_declaration?_addReference hnew _ fun _ _ _ => by simp [Declaration.links])
        (roots_addReference hnew) (congrArg Notes.marks (notes_addReference hnew))

theorem removeReference (hg : g.Rooted) (ho : g.Owned) : (g.removeReference r).Rooted :=
  (pruned_removeReference ho r).felled.rooted hg

theorem moveReference (hg : g.Rooted) (hf : g.Filed) : (g.moveReference r target).Rooted := by
  obtain he | he | ⟨x, -, -, -, he⟩ := moveReference_cases g r target <;> rw [he]
  · exact hg
  · exact hg.removeReference hf.toOwned
  · have hnotes : (g.reowned r target x).notes = g.notes := notes_reowned
    exact hg.congr (indexed_reowned hf.toIndexed)
      (fun _ => map_declaration?_reowned _ (fun _ _ => rfl) fun _ _ _ => by
        simp [Declaration.links]) roots_reowned (congrArg Notes.marks hnotes)

theorem mark (hg : g.Rooted) {mark : Mark} : (g.mark mark d).Rooted := by
  unfold Graph.mark
  split
  · rename_i hd
    refine ⟨hg.child, hg.root, hg.byUsr, hg.byKind, fun other c hc => ?_⟩
    rcases Marks.mem_add.1 hc with ⟨rfl, -⟩ | hc
    · exact hd
    · exact hg.marked other c hc
  · exact hg

/-- **One operation keeps what stands of the tree**, whatever handles it is given. -/
theorem apply (hg : g.Rooted) (hf : g.Filed) (op : Operation) : (op.apply g).Rooted := by
  cases op with
  | addDeclaration s parent => exact hg.addDeclaration hf.toIndexed
  | addUnusedParameter s function => exact hg.addUnusedParameter hf
  | unify id s => exact hg.unify hf
  | setAccess id access =>
      exact hg.modifyDeclaration (hf.apply (.setAccess id access)).toIndexed fun _ => rfl
  | moveDeclaration id target => exact hg.moveDeclaration hf
  | removeDeclaration id => exact (felled_foldl_takeDeclaration hg hf.toOwned _).rooted hg
  | addReference m owner => exact hg.addReference hf.toIndexed
  | removeReference id => exact hg.removeReference hf.toOwned
  | moveReference id target => exact hg.moveReference hf
  | mark mark id => exact hg.mark
  | recordRedundantProtocol | recordFolded | recordRedundantAccess | recordUnusedImport | addFile
    | addModuleExport | addAsset => exact ⟨hg.child, hg.root, hg.byUsr, hg.byKind, hg.marked⟩

end Rooted

/-- **What stands of the tree after every history.** -/
theorem Stored.rooted (hg : g.Stored) : g.Rooted := by
  have hempty : (∅ : Graph).Coherent False := coherent_empty
  exact hg.of_steps hempty.rooted (fun _ op hs hk => hk.apply hs.filed op)
    fun _ _ _ hs hk => hk.addUsr hs.filed.toIndexed

/-! ## One representation -/

/-- No index of the graph keeps an entry with nothing under it. -/
structure Compact (g : Graph) : Prop where
  byUsr : Index.Compact g.declarationsByUsr
  byKind : Index.Compact g.declarationsByKind
  uses : Index.Compact g.referencesByUsr

namespace Compact

theorem of_indices (hg : g.Compact) (hu : h.declarationsByUsr = g.declarationsByUsr)
    (hk : h.declarationsByKind = g.declarationsByKind)
    (hr : h.referencesByUsr = g.referencesByUsr) : h.Compact :=
  ⟨hu ▸ hg.byUsr, hk ▸ hg.byKind, hr ▸ hg.uses⟩

theorem addDeclaration (hg : g.Compact) {parent : Option DeclId} :
    (g.addDeclaration s parent).1.Compact where
  byUsr := hg.byUsr.foldl_add
  byKind := hg.byKind.add _ _
  uses := by rw [referencesByUsr_addDeclaration]; exact hg.uses

theorem addUsr (hg : g.Compact) {usr : String} : (g.addUsr d usr).Compact := by
  unfold Graph.addUsr
  split
  · exact ⟨hg.byUsr.add _ _, hg.byKind, hg.uses⟩
  · exact hg

theorem unify (hg : g.Compact) : (g.unify d s).Compact := by
  have husrs : (s.usrs.toList.foldl (fun g usr => g.addUsr d usr) g).Compact :=
    List.foldlRecOn _ _ hg fun _ hk _ _ => hk.addUsr
  exact husrs.of_indices rfl rfl rfl

theorem moveDeclaration (hg : g.Compact) : (g.moveDeclaration d target).Compact := by
  obtain he | ⟨x, -, -, he⟩ := moveDeclaration_cases g d target <;> rw [he]
  · exact hg
  · exact hg.of_indices declarationsByUsr_relocated declarationsByKind_relocated
      referencesByUsr_relocated

theorem addReference (hg : g.Compact) {m : Mention} {owner : Option Owner} :
    (g.addReference m owner).1.Compact := by
  cases hnew : g.equalReference? m.key owner with
  | some q => rw [addReference_eq_of_some hnew]; exact hg
  | none =>
      refine ⟨?_, ?_, ?_⟩
      · rw [declarationsByUsr_addReference hnew]; exact hg.byUsr
      · rw [declarationsByKind_addReference hnew]; exact hg.byKind
      · rw [referencesByUsr_addReference hnew]; exact hg.uses.add _ _

theorem takeReference (hg : g.Compact) : (g.takeReference r).Compact := by
  unfold Graph.takeReference
  split
  · exact ⟨by simpa using hg.byUsr, by simpa using hg.byKind, hg.uses.drop _ _⟩
  · exact hg

theorem foldl_takeReference (hg : g.Compact) (rs : List RefId) :
    (rs.foldl Graph.takeReference g).Compact := by
  induction rs generalizing g with
  | nil => exact hg
  | cons r rs ih => exact ih hg.takeReference

theorem removeReference (hg : g.Compact) : (g.removeReference r).Compact :=
  hg.foldl_takeReference _

theorem foldl_removeReference (hg : g.Compact) (rs : List RefId) :
    (rs.foldl Graph.removeReference g).Compact := by
  induction rs generalizing g with
  | nil => exact hg
  | cons r rs ih => exact ih hg.removeReference

theorem moveReference (hg : g.Compact) : (g.moveReference r target).Compact := by
  obtain he | he | ⟨x, -, -, -, he⟩ := moveReference_cases g r target <;> rw [he]
  · exact hg
  · exact hg.removeReference
  · exact hg.of_indices declarationsByUsr_reowned declarationsByKind_reowned
      referencesByUsr_reowned

theorem uproot (hg : g.Compact) {x : Declaration} : (g.uproot d x).Compact where
  byUsr := hg.byUsr.foldl_drop
  byKind := hg.byKind.drop _ _
  uses := by
    have he : (g.uproot d x).referencesByUsr = g.referencesByUsr :=
      referencesByUsr_unlinkDeclaration
    rw [he]
    exact hg.uses

theorem takeDeclaration (hg : g.Compact) : (g.takeDeclaration d).Compact := by
  cases hx : g.declaration? d with
  | none =>
      have he : g.takeDeclaration d = g := by simp [Graph.takeDeclaration, hx]
      rw [he]
      exact hg
  | some x =>
      rw [takeDeclaration_eq hx]
      exact (hg.foldl_removeReference _).uproot

theorem foldl_takeDeclaration (hg : g.Compact) (ids : List DeclId) :
    (ids.foldl Graph.takeDeclaration g).Compact := by
  induction ids generalizing g with
  | nil => exact hg
  | cons d ids ih => exact ih hg.takeDeclaration

/-- One operation files nothing under a key without filing something. -/
theorem apply (hg : g.Compact) (op : Operation) : (op.apply g).Compact := by
  cases op with
  | addDeclaration s parent => exact hg.addDeclaration
  | addUnusedParameter s function => exact hg.addDeclaration.of_indices rfl rfl rfl
  | unify id s => exact hg.unify
  | moveDeclaration id target => exact hg.moveDeclaration
  | removeDeclaration id => exact hg.foldl_takeDeclaration _
  | addReference m owner => exact hg.addReference
  | removeReference id => exact hg.removeReference
  | moveReference id target => exact hg.moveReference
  | mark mark id =>
      show (g.mark mark id).Compact
      unfold Graph.mark
      split
      · exact hg.of_indices rfl rfl rfl
      · exact hg
  | setAccess | recordRedundantProtocol | recordFolded | recordRedundantAccess
    | recordUnusedImport | addFile | addModuleExport | addAsset => exact hg.of_indices rfl rfl rfl

/-- **The same declarations and references less make the same graph.** -/
theorem eq_of_felled (hh : h.Compact) (hk : k.Compact) (hgh : Felled ids gone g h)
    (hgk : Felled ids gone g k) : h = k := by
  have hdeclarations : h.declarations = k.declarations :=
    Arena.eq_of_get?_eq (hgh.declarations_size.trans hgk.declarations_size.symm) fun i =>
      (hgh.declaration ⟨i⟩).trans (hgk.declaration ⟨i⟩).symm
  have hreferences : h.references = k.references :=
    Arena.eq_of_get?_eq (hgh.references_size.trans hgk.references_size.symm) fun i =>
      (hgh.reference ⟨i⟩).trans (hgk.reference ⟨i⟩).symm
  have hbyUsr : h.declarationsByUsr = k.declarationsByUsr :=
    hh.byUsr.eq_of_get hk.byUsr fun usr => (hgh.byUsr usr).trans (hgk.byUsr usr).symm
  have hbyKind : h.declarationsByKind = k.declarationsByKind :=
    hh.byKind.eq_of_get hk.byKind fun kind => (hgh.byKind kind).trans (hgk.byKind kind).symm
  have huses : h.referencesByUsr = k.referencesByUsr :=
    hh.uses.eq_of_get hk.uses fun usr => (hgh.uses usr).trans (hgk.uses usr).symm
  have hroots : h.roots = k.roots := hgh.roots.trans hgk.roots.symm
  have hrootReferences : h.rootReferences = k.rootReferences :=
    hgh.rootReferences.trans hgk.rootReferences.symm
  have hmarks : h.marks = k.marks := by
    have hof : ∀ mark, h.marks.of mark = k.marks.of mark := fun mark =>
      (hgh.marks mark).trans (hgk.marks mark).symm
    have hr := hof .retained
    have hu := hof .used
    have hi := hof .ignored
    have ha := hof .assignOnly
    revert hr hu hi ha
    cases h.marks
    cases k.marks
    simp +contextual [Marks.of]
  have hnotes : { h.notes with marks := g.marks } = ({ k.notes with marks := g.marks } : Notes) :=
    hgh.results.trans hgk.results.symm
  cases h
  cases k
  simp only [notes, Notes.mk.injEq] at hnotes
  simp_all

end Compact

/-- No history leaves an entry with nothing under it in an index. -/
theorem Stored.compact (hg : g.Stored) : g.Compact :=
  hg.of_steps ⟨Index.compact_empty, Index.compact_empty, Index.compact_empty⟩
    (fun _ op _ hk => hk.apply op) fun _ _ _ _ hk => hk.addUsr

end Graph

end Deadwood

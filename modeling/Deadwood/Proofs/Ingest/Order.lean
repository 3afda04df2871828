/-
  The order in which fragments are merged does not count.

  1. **Gluing (`Union.glue`)** — a union is determined by its parts: the names of the first part and
     the names of the second part make up one renaming of the whole, because finitely many handles
     are named and any matching of finitely many handles is part of a renaming.

  2. **Two fragments (`merge_comm`)** — after `a` and then `b`, the graph is the union of what `a`
     brings to an empty graph and of what `b` brings to the graph before; after `b` and then `a` it
     is a union of the same parts.

  3. **Many fragments (`foldl_merge_perm`)** — every order comes from any other one by exchanging
     neighbours, and what is merged later does not tell twins apart.
-/
import Deadwood.Proofs.Ingest.Growth
import Mathlib.Data.Finite.Sum
import Mathlib.Data.Set.Finite.Basic

namespace Deadwood

/-- Names for two families of things that are apart can be changed together, when finitely many
things are named. -/
theorem exists_renaming {α : Type} {A B : α → Prop} (hA : {a | A a}.Finite) (hB : {a | B a}.Finite)
    {e e' f f' : α ≃ α} (hapart : ∀ a b, A a → B b → e a ≠ f b)
    (hapart' : ∀ a b, A a → B b → e' a ≠ f' b) :
    ∃ π : α ≃ α, (∀ a, A a → π (e a) = e' a) ∧ ∀ b, B b → π (f b) = f' b := by
  have : Finite {a // A a} := hA
  have : Finite {b // B b} := hB
  have hinj : ∀ {i j : α ≃ α}, (∀ a b, A a → B b → i a ≠ j b) → Function.Injective
      (Sum.elim (fun a : {a // A a} => i a) fun b : {b // B b} => j b) := by
    intro i j hij
    refine Function.Injective.sumElim (i.injective.comp Subtype.val_injective)
      (j.injective.comp Subtype.val_injective) fun a b => hij a b a.2 b.2
  obtain ⟨π, hπ⟩ := Equiv.Perm.exists_extending_pair _ _ (hinj hapart) (hinj hapart')
  exact ⟨π, fun a ha => hπ (.inl ⟨a, ha⟩), fun b hb => hπ (.inr ⟨b, hb⟩)⟩

namespace Graph

variable {δ δ' ε ε' : DeclId ≃ DeclId} {ρ ρ' σ σ' : RefId ≃ RefId} {g h k l : Graph}

/-! ## Gluing -/

/-- Notes that nothing is marked or found out in: only files, exports and assets are known. -/
def Notes.Blank (n : Notes) : Prop :=
  n = { (∅ : Graph).notes with files := n.files, exports := n.exports, assets := n.assets }

theorem Notes.Blank.renamed {n : Notes} (hn : n.Blank) : Notes.Renamed δ ρ n n := by
  rw [hn]
  exact
    { marks := fun mark => by cases mark <;> rfl
      folded := fun _ => rfl
      redundantProtocols := fun _ => rfl
      redundantAccess := fun _ => rfl
      unusedImports := rfl
      files := rfl
      exports := rfl
      assets := rfl }

/-- Between consistent graphs the roots correspond when the entries do. -/
theorem Renamed.of_entries (hg : g.Consistent) (hh : h.Consistent)
    (hd : ∀ d, h.declaration? (δ d) = (g.declaration? d).map (·.rename δ ρ))
    (hr : ∀ r, h.reference? (ρ r) = (g.reference? r).map (·.rename δ ρ))
    (hn : Notes.Renamed δ ρ g.notes h.notes) : Renamed δ ρ g h where
  declaration := hd
  reference := hr
  roots := by
    refine (SortedSet.eq_image_iff δ).2 fun d => ?_
    rw [hh.root_iff, hg.root_iff]
    simp only [Graph.hasDeclaration, Graph.parentOf?, hd]
    cases g.declaration? d <;> simp
  rootReferences := by
    refine (SortedSet.eq_image_iff ρ).2 fun r => ?_
    rw [hh.rootReference_iff, hg.rootReference_iff]
    simp only [Graph.hasReference, Graph.ownerOf?, hr]
    cases g.reference? r <;> simp [Reference.rename]
  notes := hn

theorem finite_declarations (g : Graph) : {d | g.hasDeclaration d = true}.Finite :=
  (List.finite_toSet g.declIds).subset fun _ hd => mem_declIds.2 hd

theorem finite_references (g : Graph) : {r | g.hasReference r = true}.Finite :=
  (List.finite_toSet g.refIds).subset fun _ hr => mem_refIds.2 hr

section Glue

variable {α : DeclId ≃ DeclId} {β : RefId ≃ RefId} (H : Part ε σ l g) (H' : Part ε' σ' l h)
  (hl : l.Consistent) (hα : ∀ c, l.hasDeclaration c = true → α (ε c) = ε' c)
  (hβ : ∀ q, l.hasReference q = true → β (σ q) = σ' q)
include H H' hl hα hβ

/-- A part of both graphs: the one image is the other one under the common names. -/
theorem Part.declaration_image {c : DeclId} (hc : l.hasDeclaration c = true) :
    h.declaration? (α (ε c)) = (g.declaration? (ε c)).map (·.rename α β) := by
  obtain ⟨x, hx⟩ := hasDeclaration_iff.1 hc
  have hname : x.rename (ε.trans α) (σ.trans β) = x.rename ε' σ' := hl.rename_declaration hα hβ hx
  rw [hα c hc, H'.declaration c x hx, H.declaration c x hx, Option.map_some,
    Declaration.rename_rename, hname]

theorem Part.reference_image {q : RefId} (hq : l.hasReference q = true) :
    h.reference? (β (σ q)) = (g.reference? (σ q)).map (·.rename α β) := by
  obtain ⟨x, hx⟩ := hasReference_iff.1 hq
  have hname : x.rename (ε.trans α) (σ.trans β) = x.rename ε' σ' := hl.rename_reference hα hβ hx
  rw [hβ q hq, H'.reference q x hx, H.reference q x hx, Option.map_some,
    Reference.rename_rename, hname]

end Glue

/-- **Two unions of the same parts are twins.** -/
theorem Union.glue (U : Union ε σ δ ρ l k g) (V : Union ε' σ' δ' ρ' l k h)
    (hn : h.notes = g.notes) (hb : g.notes.Blank) : ∃ α β, Twin α β g h := by
  obtain ⟨α, hαl, hαk⟩ := exists_renaming l.finite_declarations k.finite_declarations
    U.declarations_apart V.declarations_apart
  obtain ⟨β, hβl, hβk⟩ := exists_renaming l.finite_references k.finite_references
    U.references_apart V.references_apart
  have hdeclaration : ∀ d, h.declaration? (α d) = (g.declaration? d).map (·.rename α β) := by
    intro d
    by_cases hd : g.hasDeclaration d = true
    · rcases U.declarations d hd with ⟨c, hc, rfl⟩ | ⟨c, hc, rfl⟩
      · exact U.left.declaration_image V.left U.left_consistent hαl hβl hc
      · exact U.right.declaration_image V.right U.right_consistent hαk hβk hc
    · -- the images of what is there are used up, so this one names nothing
      have hd' : ¬ h.hasDeclaration (α d) = true := by
        intro hd'
        rcases V.declarations _ hd' with ⟨c, hc, he⟩ | ⟨c, hc, he⟩
        · rw [← hαl c hc] at he
          exact hd (α.injective he ▸ U.left.hasDeclaration hc)
        · rw [← hαk c hc] at he
          exact hd (α.injective he ▸ U.right.hasDeclaration hc)
      rw [Option.not_isSome_iff_eq_none.1 hd, Option.not_isSome_iff_eq_none.1 hd']
      rfl
  have hreference : ∀ r, h.reference? (β r) = (g.reference? r).map (·.rename α β) := by
    intro r
    by_cases hr : g.hasReference r = true
    · rcases U.references r hr with ⟨q, hq, rfl⟩ | ⟨q, hq, rfl⟩
      · exact U.left.reference_image V.left U.left_consistent hαl hβl hq
      · exact U.right.reference_image V.right U.right_consistent hαk hβk hq
    · have hr' : ¬ h.hasReference (β r) = true := by
        intro hr'
        rcases V.references _ hr' with ⟨q, hq, he⟩ | ⟨q, hq, he⟩
        · rw [← hβl q hq] at he
          exact hr (β.injective he ▸ U.left.hasReference hq)
        · rw [← hβk q hq] at he
          exact hr (β.injective he ▸ U.right.hasReference hq)
      rw [Option.not_isSome_iff_eq_none.1 hr, Option.not_isSome_iff_eq_none.1 hr']
      rfl
  have hnotes : Notes.Renamed α β g.notes h.notes := by
    rw [hn]
    exact hb.renamed
  exact ⟨α, β, .of_entries U.consistent V.consistent hdeclaration hreference hnotes,
    U.consistent, V.consistent, U.unambiguous⟩

/-! ## Graphs under construction -/

/-- A graph to which fragments are being merged. -/
structure Budding (g : Graph) : Prop where
  consistent : g.Consistent
  unambiguous : g.Unambiguous
  distinct : g.DistinctKeys
  blank : g.notes.Blank

theorem budding_empty : (∅ : Graph).Budding where
  consistent := coherent_empty
  unambiguous c d x y usr hx := by simp at hx
  distinct r s x y hx := by simp at hx
  blank := rfl

/-- Twins are a union, with nothing in the first part. -/
theorem Twin.union (T : Twin δ ρ g h) (hh : h.DistinctKeys) :
    Union (Equiv.refl _) (Equiv.refl _) δ ρ ∅ g h where
  left := ⟨fun d x hx => by simp at hx, fun r x hx => by simp at hx⟩
  right :=
    { declaration := fun d x hx => by rw [T.declaration, hx]; rfl
      reference := fun r x hx => by rw [T.reference, hx]; rfl }
  declarations d hd := by
    obtain ⟨c, rfl⟩ := δ.surjective d
    rw [T.hasDeclaration] at hd
    exact .inr ⟨c, hd, rfl⟩
  references r hr := by
    obtain ⟨q, rfl⟩ := ρ.surjective r
    rw [T.hasReference] at hr
    exact .inr ⟨q, hr, rfl⟩
  declarations_apart c d hc := by simp [Graph.hasDeclaration] at hc
  references_apart q r hq := by simp [Graph.hasReference] at hq
  left_consistent := coherent_empty
  right_consistent := T.left
  consistent := T.right
  unambiguous := T.unambiguous_right
  distinct := hh

theorem Budding.union (hg : g.Budding) : Union (Equiv.refl _) (Equiv.refl _) (Equiv.refl _)
    (Equiv.refl _) ∅ g g := (Twin.refl hg.consistent hg.unambiguous).union hg.distinct

/-! ## Fragments that may come in any order -/

end Graph

namespace PreparedFragment

/-- The symbols of a fragment have identifiers, and no two of them have one in common. -/
structure Neat (f : PreparedFragment) : Prop where
  identified : f.Identified
  apart : f.symbols.Pairwise fun s t => ∀ usr ∈ s.usrs.toList, usr ∉ t.usrs.toList

/-- Two fragments have neither the file, nor an identifier, nor the key of a root reference in
common. -/
structure Apart (a b : PreparedFragment) : Prop where
  file : a.file.path.components ≠ b.file.path.components
  symbols : ∀ s ∈ a.symbols, ∀ t ∈ b.symbols, ∀ usr ∈ s.usrs.toList, usr ∉ t.usrs.toList
  references : ∀ s ∈ a.references, ∀ t ∈ b.references, s.mention.key ≠ t.mention.key

theorem Apart.symm {a b : PreparedFragment} (H : Apart a b) : Apart b a where
  file := H.file.symm
  symbols t ht s hs usr hu hus := H.symbols s hs t ht usr hus hu
  references t ht s hs := (H.references s hs t ht).symm

end PreparedFragment

namespace Graph

open PreparedFragment

variable {δ : DeclId ≃ DeclId} {ρ : RefId ≃ RefId} {g h : Graph} {a b f : PreparedFragment}
  {fs fs' : List PreparedFragment}

/-- Nothing in the graph has an identifier, or is a root reference with a key, of the fragment. -/
structure Admits (g : Graph) (f : PreparedFragment) : Prop where
  symbols : ∀ s ∈ f.symbols, ∀ usr ∈ s.usrs.toList, ¬ g.Carries usr
  references : ∀ t ∈ f.references, ¬ g.RootKey t.mention.key

theorem admits_empty : (∅ : Graph).Admits f where
  symbols s _ usr _ hc := by
    obtain ⟨d, x, hx, -⟩ := hc
    simp at hx
  references t _ hk := by
    obtain ⟨r, x, hx, -⟩ := hk
    simp at hx

/-- What is apart from the fragments merged so far is still admitted. -/
theorem Admits.merge (hf : g.Admits f) (hab : a.Apart f) : (g.merge a).Admits f where
  symbols t ht usr hu hc := by
    rcases carries_merge hc with ⟨s, hs, hus⟩ | hc
    · exact hab.symbols s hs t ht usr hus hu
    · exact hf.symbols t ht usr hu hc
  references t ht hk := by
    rcases rootKey_merge hk with ⟨s, hs, he⟩ | hk
    · exact hab.references s hs t ht he
    · exact hf.references t ht hk

theorem Twin.admits (T : Twin δ ρ g h) (hf : g.Admits f) : h.Admits f where
  symbols s hs usr hu hc := by
    obtain ⟨d, x, hx, hux⟩ := hc
    obtain ⟨c, rfl⟩ := δ.surjective d
    rw [T.declaration] at hx
    obtain ⟨y, hy, rfl⟩ := Option.map_eq_some_iff.1 hx
    exact hf.symbols s hs usr hu ⟨c, y, hy, hux⟩
  references t ht hk := by
    obtain ⟨r, x, hx, ho, hkey⟩ := hk
    obtain ⟨q, rfl⟩ := ρ.surjective r
    rw [T.reference] at hx
    obtain ⟨y, hy, rfl⟩ := Option.map_eq_some_iff.1 hx
    exact hf.references t ht ⟨q, y, hy, by simpa [Reference.rename] using ho, hkey⟩

theorem Admits.newcomers {l k : Graph} (hl : l.Admits f) (hk : k.Admits f) (hf : f.Neat) :
    Newcomers l k f.symbols := ⟨hf.identified, hl.symbols, hk.symbols, hf.apart⟩

theorem Notes.Blank.addFile {n : Notes} (hn : n.Blank) {file : SourceFile} :
    (n.addFile file).Blank := by
  unfold Notes.Blank at hn ⊢
  rw [hn]
  rfl

/-- Files of different paths are noted in any order. -/
theorem Notes.addFile_comm {n : Notes} {file file' : SourceFile}
    (hne : file.path.components ≠ file'.path.components) :
    (n.addFile file).addFile file' = (n.addFile file').addFile file := by
  simp only [Notes.addFile, SortedMap.alter_comm hne]

/-- **Merging keeps a graph under construction**, whatever files and root references come again. -/
theorem Budding.merge_newcomers (hg : g.Budding) (hnew : Newcomers ∅ g f.symbols) :
    (g.merge f).Budding := by
  obtain ⟨δ, ρ, -, U⟩ := hg.union.merge hnew admits_empty.references
  refine ⟨U.consistent, U.unambiguous, U.distinct, ?_⟩
  rw [notes_merge]
  exact hg.blank.addFile

theorem Budding.merge (hg : g.Budding) (hf : f.Neat) (hnew : g.Admits f) :
    (g.merge f).Budding := hg.merge_newcomers (admits_empty.newcomers hnew hf)

/-- The two graphs differ in the numbers of their handles only, and know the same files. -/
def Same (g h : Graph) : Prop := h.notes = g.notes ∧ ∃ δ ρ, Twin δ ρ g h

theorem Same.refl (hg : g.Budding) : Same g g :=
  ⟨rfl, _, _, .refl hg.consistent hg.unambiguous⟩

theorem Same.trans {k : Graph} (H : Same g h) (H' : Same h k) : Same g k := by
  obtain ⟨hn, δ, ρ, T⟩ := H
  obtain ⟨hn', δ', ρ', T'⟩ := H'
  exact ⟨hn'.trans hn, _, _, T.trans T'⟩

/-- **Two fragments that are apart are merged in any order.** -/
theorem merge_comm (hg : g.Budding) (ha : a.Neat) (hb : b.Neat) (hga : g.Admits a)
    (hgb : g.Admits b) (hab : a.Apart b) : Same ((g.merge a).merge b) ((g.merge b).merge a) := by
  have hgb' := hg.merge hb hgb
  have hadmits : (g.merge b).Admits a := hga.merge hab.symm
  -- first `a`, taken as a part of its own, and then `b`, merged into the other part
  obtain ⟨δ₁, ρ₁, -, U₁⟩ := hg.union.symm.merge (hga.newcomers admits_empty ha) hga.references
  have hb' : ((∅ : Graph).merge a).Admits b := admits_empty.merge hab
  obtain ⟨δ₂, ρ₂, -, U₂⟩ := U₁.symm.merge (hb'.newcomers hgb hb) hb'.references
  -- first `b`, and then `a`, taken as a part of its own
  obtain ⟨δ₃, ρ₃, -, U₃⟩ := hgb'.union.symm.merge (hadmits.newcomers admits_empty ha)
    hadmits.references
  have hnotes : ((g.merge b).merge a).notes = ((g.merge a).merge b).notes := by
    simp only [notes_merge]
    exact Notes.addFile_comm hab.file.symm
  refine ⟨hnotes, U₂.glue U₃.symm hnotes ?_⟩
  simp only [notes_merge]
  exact hg.blank.addFile.addFile

/-- A fragment merged into graphs that differ in numbers makes graphs that differ in numbers. -/
theorem Same.merge (H : Same g h) (hg : g.Budding) (hh : h.Budding) (hf : f.Neat)
    (hnew : g.Admits f) : Same (g.merge f) (h.merge f) := by
  obtain ⟨hn, δ, ρ, T⟩ := H
  have hnotes : (h.merge f).notes = (g.merge f).notes := by rw [notes_merge, notes_merge, hn]
  have hcome := admits_empty.newcomers hnew hf
  obtain ⟨δ₁, ρ₁, -, U⟩ := hg.union.merge hcome admits_empty.references
  obtain ⟨δ₂, ρ₂, -, V⟩ := (T.union hh.distinct).merge hcome admits_empty.references
  exact ⟨hnotes, U.glue V hnotes (hg.merge hf hnew).blank⟩

/-! ## Many fragments -/

/-- Fragments that may be merged one after the other. -/
structure Admissible (g : Graph) (fs : List PreparedFragment) : Prop where
  neat : ∀ f ∈ fs, f.Neat
  admits : ∀ f ∈ fs, g.Admits f
  apart : fs.Pairwise Apart

namespace Admissible

theorem head (H : g.Admissible (f :: fs)) : f.Neat ∧ g.Admits f :=
  ⟨H.neat f (by simp), H.admits f (by simp)⟩

theorem tail (H : g.Admissible (f :: fs)) : (g.merge f).Admissible fs where
  neat a ha := H.neat a (by simp [ha])
  admits a ha := (H.admits a (by simp [ha])).merge ((List.pairwise_cons.1 H.apart).1 a ha)
  apart := (List.pairwise_cons.1 H.apart).2

theorem perm (H : g.Admissible fs) (hp : fs.Perm fs') : g.Admissible fs' where
  neat f hf := H.neat f (hp.mem_iff.2 hf)
  admits f hf := H.admits f (hp.mem_iff.2 hf)
  apart := hp.pairwise H.apart fun h => h.symm

end Admissible

theorem Same.foldl_merge (H : Same g h) (hg : g.Budding) (hh : h.Budding)
    (hfs : g.Admissible fs) : Same (fs.foldl Graph.merge g) (fs.foldl Graph.merge h) := by
  induction fs generalizing g h with
  | nil => exact H
  | cons f fs ih =>
      obtain ⟨hf, hnew⟩ := hfs.head
      have hnew' : h.Admits f := by
        obtain ⟨-, δ, ρ, T⟩ := H
        exact T.admits hnew
      exact ih (H.merge hg hh hf hnew) (hg.merge hf hnew) (hh.merge hf hnew') hfs.tail

/-- **Fragments that are apart may be merged in any order.** -/
theorem foldl_merge_perm (hp : fs.Perm fs') (hg : g.Budding) (H : g.Admissible fs) :
    Same (fs.foldl Graph.merge g) (fs'.foldl Graph.merge g) := by
  induction hp generalizing g with
  | nil => exact .refl hg
  | cons f _ ih => exact ih (hg.merge H.head.1 H.head.2) H.tail
  | swap a b fs =>
      obtain ⟨hb, hgb⟩ := H.head
      obtain ⟨ha, hgba⟩ := H.tail.head
      have hab : b.Apart a := (List.pairwise_cons.1 H.apart).1 a (by simp)
      have hga : g.Admits a := H.admits a (by simp)
      -- exchange the two, then go on from graphs that differ in numbers only
      refine (merge_comm hg hb ha hgb hga hab).foldl_merge ((hg.merge hb hgb).merge ha hgba)
        ((hg.merge ha hga).merge hb (hgb.merge hab.symm)) H.tail.tail
  | trans hp _ ih ih' => exact (ih hg H).trans (ih' hg (H.perm hp))

end Graph

end Deadwood

/-
  Merging a fragment into one part of a graph.

  1. **`Extends`** — what was in a part is still there, under the name that it had.

  2. **`Grows`** — the part and the whole have both taken something in, and the whole is again the
     union of the part and of the other one.  Growing is closed under doing one thing after another.

  3. **Steps** — one reference (`Union.addReference`), one symbol (`Union.placeSymbol`).  A reference
     is compared with what its owner has, and the owner is in the same part; a root is compared with
     all roots, so its key must not be one of the other part's.  A symbol is joined with what shares
     an identifier with it, so its identifiers must not be carried yet.

  4. **Runs** — by recursion over the trees, the whole fragment (`Union.merge`).
-/
import Deadwood.Proofs.Ingest.Union

namespace Deadwood

namespace Graph

variable {δ δ' δ'' ε : DeclId ≃ DeclId} {ρ ρ' ρ'' σ : RefId ≃ RefId} {g g' g'' k k' k'' l : Graph}
  {c d : DeclId} {r q : RefId} {s : Symbol} {m : Mention}

/-! ## Growing -/

/-- What was in `k` is in `k'`, and has kept its name. -/
structure Extends (δ : DeclId ≃ DeclId) (ρ : RefId ≃ RefId) (δ' : DeclId ≃ DeclId)
    (ρ' : RefId ≃ RefId) (k k' : Graph) : Prop where
  declaration : ∀ d, k.hasDeclaration d = true → k'.hasDeclaration d = true ∧ δ' d = δ d
  reference : ∀ r, k.hasReference r = true → k'.hasReference r = true ∧ ρ' r = ρ r

namespace Extends

theorem refl : Extends δ ρ δ ρ k k := ⟨fun _ hd => ⟨hd, rfl⟩, fun _ hr => ⟨hr, rfl⟩⟩

theorem trans (E : Extends δ ρ δ' ρ' k k') (E' : Extends δ' ρ' δ'' ρ'' k' k'') :
    Extends δ ρ δ'' ρ'' k k'' where
  declaration d hd := by
    obtain ⟨hd', he⟩ := E.declaration d hd
    obtain ⟨hd'', he'⟩ := E'.declaration d hd'
    exact ⟨hd'', he'.trans he⟩
  reference r hr := by
    obtain ⟨hr', he⟩ := E.reference r hr
    obtain ⟨hr'', he'⟩ := E'.reference r hr'
    exact ⟨hr'', he'.trans he⟩

theorem owner (E : Extends δ ρ δ' ρ' k k') {o : Owner} (ho : k.hasOwner o = true) :
    k'.hasOwner o = true ∧ o.rename δ' ρ' = o.rename δ ρ := by
  refine ⟨?_, rename_owner_eq (fun d hd => (E.declaration d hd).2)
    (fun r hr => (E.reference r hr).2) ho⟩
  cases o with
  | declaration d => exact (E.declaration d ho).1
  | reference r => exact (E.reference r ho).1

/-- An owner that is asked for stays live and keeps its name. -/
theorem owner? (E : Extends δ ρ δ' ρ' k k') {w : Option Owner}
    (hw : ∀ o, w = some o → k.hasOwner o = true) :
    (∀ o, w = some o → k'.hasOwner o = true) ∧
      w.map (Owner.rename δ ρ) = w.map (Owner.rename δ' ρ') := by
  cases w with
  | none => exact ⟨fun o ho => (by cases ho), rfl⟩
  | some o =>
      obtain ⟨ho, he⟩ := E.owner (hw o rfl)
      exact ⟨fun v hv => by cases hv; exact ho, congrArg some he.symm⟩

/-- A parent that is asked for stays live and keeps its name. -/
theorem parent? (E : Extends δ ρ δ' ρ' k k') {p : Option DeclId}
    (hp : ∀ q, p = some q → k.hasDeclaration q = true) :
    (∀ q, p = some q → k'.hasDeclaration q = true) ∧ p.map δ = p.map δ' := by
  cases p with
  | none => exact ⟨fun q hq => (by cases hq), rfl⟩
  | some q =>
      obtain ⟨hq, he⟩ := E.declaration q (hp q rfl)
      exact ⟨fun v hv => by cases hv; exact hq, congrArg some he.symm⟩

end Extends

/-- The second part and the whole have grown alike. -/
def Grows (ε : DeclId ≃ DeclId) (σ : RefId ≃ RefId) (δ : DeclId ≃ DeclId) (ρ : RefId ≃ RefId)
    (l k k' g' : Graph) : Prop :=
  ∃ δ' ρ', Extends δ ρ δ' ρ' k k' ∧ Union ε σ δ' ρ' l k' g'

namespace Grows

theorem refl (U : Union ε σ δ ρ l k g) : Grows ε σ δ ρ l k k g := ⟨δ, ρ, .refl, U⟩

/-- **One growth after the other.** -/
theorem bind (H : Grows ε σ δ ρ l k k' g')
    (next : ∀ δ' ρ', Extends δ ρ δ' ρ' k k' → Union ε σ δ' ρ' l k' g' →
      Grows ε σ δ' ρ' l k' k'' g'') : Grows ε σ δ ρ l k k'' g'' := by
  obtain ⟨δ', ρ', E, U⟩ := H
  obtain ⟨δ'', ρ'', E', U'⟩ := next δ' ρ' E U
  exact ⟨δ'', ρ'', E.trans E', U'⟩

end Grows

/-! ## References -/

/-- **One reference into the part and into the whole.** -/
theorem Union.addReference (U : Union ε σ δ ρ l k g) {w : Option Owner}
    (hw : ∀ o, w = some o → k.hasOwner o = true) (hroot : w = none → ¬ l.RootKey m.key) :
    ∃ ρ', Extends δ ρ δ ρ' k (k.addReference m w).1 ∧
      Union ε σ δ ρ' l (k.addReference m w).1 (g.addReference m (w.map (Owner.rename δ ρ))).1 ∧
      ρ' (k.addReference m w).2 = (g.addReference m (w.map (Owner.rename δ ρ))).2 := by
  have hequal := U.equalReference? hw hroot
  cases hnew : k.equalReference? m.key w with
  | some q =>
      rw [hnew] at hequal
      rw [addReference_eq_of_some hnew, addReference_eq_of_some hequal]
      exact ⟨ρ, .refl, U, rfl⟩
  | none =>
      rw [hnew] at hequal
      -- the next handles are made to correspond; nothing live changes its name
      set ρ' := extendAt ρ k.nextReference g.nextReference with hρ'
      have hagree : ∀ r, k.hasReference r = true → ρ' r = ρ r := fun r hr =>
        extendAt_of_ne (ne_nextReference hr) (ne_nextReference (U.right.hasReference hr))
      have hnext : ρ' k.nextReference = g.nextReference := extendAt_self
      have hname : w.map (Owner.rename δ ρ) = w.map (Owner.rename δ ρ') := by
        cases w with
        | none => rfl
        | some o => exact congrArg some (rename_owner_eq (fun _ _ => rfl) hagree (hw o rfl)).symm
      have U' : Union ε σ δ ρ' l k g := U.congr (fun _ _ => rfl) hagree
      refine ⟨ρ', ⟨fun d hd => ⟨hasDeclaration_addReference.trans hd, rfl⟩, fun r hr =>
        ⟨hasReference_addReference_of_live hr, hagree r hr⟩⟩, ?_, ?_⟩
      · rw [hname] at hequal ⊢
        exact U'.addReference_next hnext hw hnew hequal
      · simp only [Graph.addReference, hnew, hequal]
        exact hnext

mutual

/-- A reference with what is nested in it. -/
theorem Union.mergeReference {δ : DeclId ≃ DeclId} {ρ : RefId ≃ RefId} {k g : Graph}
    (U : Union ε σ δ ρ l k g) (t : ReferenceTree) {w : Option Owner}
    (hw : ∀ o, w = some o → k.hasOwner o = true)
    (hroot : w = none → ¬ l.RootKey t.mention.key) :
    Grows ε σ δ ρ l k (k.mergeReference w t) (g.mergeReference (w.map (Owner.rename δ ρ)) t) := by
  obtain ⟨mention, nested⟩ := t
  obtain ⟨ρ', E, U', hid⟩ := U.addReference hw hroot
  have hnested := U'.mergeReferences nested
    (w := some (.reference (k.addReference mention w).2))
    (fun o ho => by cases ho; exact hasReference_addReference_snd) (by simp)
  obtain ⟨δ'', ρ'', E', U''⟩ := hnested
  refine ⟨δ'', ρ'', E.trans E', ?_⟩
  simp only [Option.map_some, Owner.rename, hid] at U''
  exact U''

/-- The references of a list. -/
theorem Union.mergeReferences {δ : DeclId ≃ DeclId} {ρ : RefId ≃ RefId} {k g : Graph}
    (U : Union ε σ δ ρ l k g) (ts : List ReferenceTree) {w : Option Owner}
    (hw : ∀ o, w = some o → k.hasOwner o = true)
    (hroot : w = none → ∀ t ∈ ts, ¬ l.RootKey t.mention.key) :
    Grows ε σ δ ρ l k (k.mergeReferences w ts)
      (g.mergeReferences (w.map (Owner.rename δ ρ)) ts) := by
  cases ts with
  | nil => exact .refl U
  | cons t ts =>
      refine (U.mergeReference t hw fun he => hroot he t (by simp)).bind fun δ' ρ' E U' => ?_
      obtain ⟨hw', hname⟩ := E.owner? hw
      have hrest := U'.mergeReferences ts hw' fun he u hu => hroot he u (by simp [hu])
      rwa [← hname] at hrest

end

/-! ## Declarations -/

/-- Nothing that carries an identifier of the symbol, nothing that it is a part of. -/
theorem Indexed.partner?_eq_none (hg : g.Indexed)
    (hnew : ∀ usr ∈ s.usrs.toList, ¬ g.Carries usr) : g.partner? s = none := by
  cases hp : g.partner? s with
  | none => rfl
  | some d =>
      exfalso
      obtain ⟨usr, hu, hfound⟩ := List.exists_of_findSome?_eq_some hp
      have hd : g.declarationWithUsr? usr = some d := (Option.filter_eq_some_iff.1 hfound).1
      obtain ⟨x, hx, hux⟩ := hg.carries_of_declarationWithUsr? hd
      exact hnew usr hu ⟨d, x, hx, hux⟩

theorem placeSymbol_eq_addDeclaration {n : Nesting} {p : Option DeclId}
    (hs : g.partner? s = none) (h : n = .member ∨ p = none) :
    g.placeSymbol s n p = g.addDeclaration s p := by
  simp only [placeSymbol, hs]
  rcases h with rfl | rfl
  · rfl
  · cases n <;> rfl

theorem placeSymbol_eq_addUnusedParameter (hs : g.partner? s = none) :
    g.placeSymbol s .unusedParameter (some d) = g.addUnusedParameter s d := by
  simp only [placeSymbol, hs]

/-- **One symbol into the part and into the whole**, when nothing carries its identifiers. -/
theorem Union.placeSymbol (U : Union ε σ δ ρ l k g) {n : Nesting} {p : Option DeclId}
    (hp : ∀ q, p = some q → k.hasDeclaration q = true) (hs : s.usrs.toList ≠ [])
    (hleft : ∀ usr ∈ s.usrs.toList, ¬ l.Carries usr)
    (hright : ∀ usr ∈ s.usrs.toList, ¬ k.Carries usr) :
    ∃ δ', Extends δ ρ δ' ρ k (k.placeSymbol s n p).1 ∧
      Union ε σ δ' ρ l (k.placeSymbol s n p).1 (g.placeSymbol s n (p.map δ)).1 ∧
      δ' (k.placeSymbol s n p).2 = (g.placeSymbol s n (p.map δ)).2 := by
  have hnew : ∀ usr ∈ s.usrs.toList, ¬ g.Carries usr := fun usr hu hc =>
    (U.carries hc).elim (hleft usr hu) (hright usr hu)
  have hpartner := U.right_consistent.toIndexed.partner?_eq_none hright
  have hpartner' := U.consistent.toIndexed.partner?_eq_none hnew
  -- the next handles are made to correspond; nothing live changes its name
  set δ' := extendAt δ k.nextDeclaration g.nextDeclaration with hδ'
  have hagree : ∀ d, k.hasDeclaration d = true → δ' d = δ d := fun d hd =>
    extendAt_of_ne (ne_nextDeclaration hd) (ne_nextDeclaration (U.right.hasDeclaration hd))
  have hnext : δ' k.nextDeclaration = g.nextDeclaration := extendAt_self
  have hname : p.map δ = p.map δ' := by
    cases p with
    | none => rfl
    | some q => exact congrArg some (hagree q (hp q rfl)).symm
  have U' : Union ε σ δ' ρ l k g := U.congr hagree fun _ _ => rfl
  refine ⟨δ', ⟨fun d hd => ⟨hasDeclaration_placeSymbol.2 (.inr hd), hagree d hd⟩, fun r hr =>
    ⟨by simpa only [hasReference, reference?_placeSymbol] using hr, rfl⟩⟩, ?_⟩
  rw [hname]
  by_cases hcase : n = .member ∨ p = none
  · rw [placeSymbol_eq_addDeclaration hpartner hcase,
      placeSymbol_eq_addDeclaration hpartner' (hcase.imp_right fun he => by rw [he]; rfl)]
    exact ⟨U'.addDeclaration_next hnext hp hs hnew, hnext⟩
  · -- a parameter is added as a member first, and then listed in its proper place
    obtain ⟨hn, hp'⟩ := not_or.1 hcase
    obtain ⟨q, rfl⟩ := Option.ne_none_iff_exists'.1 hp'
    have hn : n = .unusedParameter := by
      cases n with
      | member => exact absurd rfl hn
      | unusedParameter => rfl
    subst hn
    have hq := hp q rfl
    have hq' := U'.right.hasDeclaration hq
    have hadded := U'.addDeclaration_next (s := { s with kind := .parameter }) hnext hp hs hnew
    rw [Option.map_some, placeSymbol_eq_addUnusedParameter hpartner,
      placeSymbol_eq_addUnusedParameter hpartner']
    refine ⟨?_, hnext⟩
    rw [addUnusedParameter_fst, addUnusedParameter_fst]
    refine hadded.modifyDeclaration (hasDeclaration_addDeclaration.2 (.inr hq)) (fun x => ?_)
      (fun x => by simp) ?_ ?_
    · rw [Declaration.rename_addChild, Declaration.rename_dropChild, hnext]
    · exact U.right_consistent.addUnusedParameter (fun _ => hs) (ne_nextDeclaration hq)
    · exact U.consistent.addUnusedParameter (fun _ => hs) (ne_nextDeclaration hq')

/-- Symbols that can be merged: they have identifiers, which they share neither with each other nor
with anything in the two graphs. -/
structure Newcomers (l k : Graph) (ss : List Symbol) : Prop where
  identified : ∀ s ∈ ss, s.usrs.toList ≠ []
  left : ∀ s ∈ ss, ∀ usr ∈ s.usrs.toList, ¬ l.Carries usr
  right : ∀ s ∈ ss, ∀ usr ∈ s.usrs.toList, ¬ k.Carries usr
  apart : ss.Pairwise fun s t => ∀ usr ∈ s.usrs.toList, usr ∉ t.usrs.toList

namespace Newcomers

variable {ss ts : List Symbol}

theorem of_append_left (H : Newcomers l k (ss ++ ts)) : Newcomers l k ss where
  identified s hs := H.identified s (by simp [hs])
  left s hs := H.left s (by simp [hs])
  right s hs := H.right s (by simp [hs])
  apart := (List.pairwise_append.1 H.apart).1

/-- When the first symbols are merged, the others are still new. -/
theorem of_append_right (H : Newcomers l k (ss ++ ts))
    (hk : ∀ usr, k'.Carries usr → (∃ s ∈ ss, usr ∈ s.usrs.toList) ∨ k.Carries usr) :
    Newcomers l k' ts where
  identified s hs := H.identified s (by simp [hs])
  left s hs := H.left s (by simp [hs])
  right t ht usr hu hc := by
    rcases hk usr hc with ⟨s, hs, hus⟩ | hc
    · exact (List.pairwise_append.1 H.apart).2.2 s hs t ht usr hus hu
    · exact H.right t (by simp [ht]) usr hu hc
  apart := (List.pairwise_append.1 H.apart).2.1

end Newcomers

mutual

/-- A declaration with everything nested in it. -/
theorem Union.mergeDeclaration {δ : DeclId ≃ DeclId} {ρ : RefId ≃ RefId} {k g : Graph}
    (U : Union ε σ δ ρ l k g) (t : DeclarationTree) {n : Nesting} {p : Option DeclId}
    (hp : ∀ q, p = some q → k.hasDeclaration q = true) (hnew : Newcomers l k t.symbols) :
    Grows ε σ δ ρ l k (k.mergeDeclaration n p t) (g.mergeDeclaration n (p.map δ) t) := by
  obtain ⟨symbol, members, parameters, references⟩ := t
  have hnew : Newcomers l k ([symbol] ++ (DeclarationTree.symbolsOf members ++
    DeclarationTree.symbolsOf parameters)) := hnew
  obtain ⟨δ₁, E₁, U₁, hid⟩ := U.placeSymbol (n := n) hp (hnew.identified symbol (by simp))
    (hnew.left symbol (by simp)) (hnew.right symbol (by simp))
  -- everything nested goes to the declaration just placed, under its name in either graph
  set id := (k.placeSymbol symbol n p).2 with hdef
  have hlive : ∀ q, some id = some q →
      (k.placeSymbol symbol n p).1.hasDeclaration q = true := by
    intro q hq
    cases hq
    exact hasDeclaration_placeSymbol.2 (.inl rfl)
  have hinner : Newcomers l (k.placeSymbol symbol n p).1 (DeclarationTree.symbolsOf members ++
      DeclarationTree.symbolsOf parameters) :=
    hnew.of_append_right fun usr hc =>
      (carries_placeSymbol hc).imp_left fun hu => ⟨symbol, by simp, hu⟩
  have hmembers := U₁.mergeDeclarations members (n := .member) hlive hinner.of_append_left
  obtain ⟨δ₂, ρ₂, E₂, U₂⟩ := hmembers
  obtain ⟨hlive₂, hname₂⟩ := E₂.parent? hlive
  have hparameters := U₂.mergeDeclarations parameters (n := .unusedParameter) hlive₂
    (hinner.of_append_right fun usr hc => carries_mergeDeclarations hlive hc)
  obtain ⟨δ₃, ρ₃, E₃, U₃⟩ := hparameters
  obtain ⟨hlive₃, hname₃⟩ := E₃.parent? hlive₂
  have hreferences := U₃.mergeReferences references (w := some (.declaration id))
    (fun o ho => by cases ho; exact hlive₃ id rfl) (by simp)
  obtain ⟨δ₄, ρ₄, E₄, U₄⟩ := hreferences
  refine ⟨δ₄, ρ₄, E₁.trans (E₂.trans (E₃.trans E₄)), ?_⟩
  have hid₂ : δ₂ id = (g.placeSymbol symbol n (p.map δ)).2 :=
    (Option.some.inj hname₂).symm.trans hid
  have hid₃ : δ₃ id = (g.placeSymbol symbol n (p.map δ)).2 :=
    (Option.some.inj hname₃).symm.trans hid₂
  simp only [Option.map_some, Owner.rename, hid, hid₂, hid₃] at U₄
  exact U₄

/-- The declarations of a list. -/
theorem Union.mergeDeclarations {δ : DeclId ≃ DeclId} {ρ : RefId ≃ RefId} {k g : Graph}
    (U : Union ε σ δ ρ l k g) (ts : List DeclarationTree) {n : Nesting} {p : Option DeclId}
    (hp : ∀ q, p = some q → k.hasDeclaration q = true)
    (hnew : Newcomers l k (DeclarationTree.symbolsOf ts)) :
    Grows ε σ δ ρ l k (k.mergeDeclarations n p ts) (g.mergeDeclarations n (p.map δ) ts) := by
  cases ts with
  | nil => exact .refl U
  | cons t ts =>
      have hnew : Newcomers l k (t.symbols ++ DeclarationTree.symbolsOf ts) := hnew
      refine (U.mergeDeclaration t (n := n) hp hnew.of_append_left).bind fun δ' ρ' E U' => ?_
      obtain ⟨hp', hname⟩ := E.parent? hp
      have hrest := U'.mergeDeclarations ts (n := n) hp'
        (hnew.of_append_right fun usr hc => carries_mergeDeclaration hp hc)
      rwa [← hname] at hrest

end

/-! ## Fragments -/

theorem Coherent.addFile {named : Prop} (hg : g.Coherent named) {file : SourceFile} :
    (g.addFile file).Coherent named :=
  hg.of_noted ⟨hg.marked_live, hg.recorded⟩ rfl rfl rfl rfl rfl rfl rfl

theorem Union.addFile (U : Union ε σ δ ρ l k g) {file : SourceFile} :
    Union ε σ δ ρ l (k.addFile file) (g.addFile file) where
  left := ⟨U.left.declaration, U.left.reference⟩
  right := ⟨U.right.declaration, U.right.reference⟩
  declarations := U.declarations
  references := U.references
  declarations_apart := U.declarations_apart
  references_apart := U.references_apart
  left_consistent := U.left_consistent
  right_consistent := U.right_consistent.addFile
  consistent := U.consistent.addFile
  unambiguous := U.unambiguous
  distinct := U.distinct

/-- **A whole fragment into the part and into the whole.** -/
theorem Union.merge (U : Union ε σ δ ρ l k g) {f : PreparedFragment}
    (hnew : Newcomers l k f.symbols) (hroot : ∀ t ∈ f.references, ¬ l.RootKey t.mention.key) :
    Grows ε σ δ ρ l k (k.merge f) (g.merge f) := by
  have hfile : Union ε σ δ ρ l (k.addFile f.file) (g.addFile f.file) := U.addFile
  have hdeclarations := hfile.mergeDeclarations f.declarations (n := .member) (p := none) (by simp)
    ⟨hnew.identified, hnew.left, hnew.right, hnew.apart⟩
  obtain ⟨δ', ρ', E, U'⟩ := hdeclarations
  obtain ⟨δ'', ρ'', E', U''⟩ := U'.mergeReferences f.references (w := none) (by simp)
    fun _ => hroot
  exact ⟨δ'', ρ'', ⟨(E.trans E').declaration, (E.trans E').reference⟩, U''⟩

end Graph

end Deadwood

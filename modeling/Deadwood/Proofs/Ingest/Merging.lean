/-
  What merging a document can do to a graph.

  1. **Runs** — merging a fragment registers its file, then places symbols and adds references, each
     under something that is live.  `merge_induction` says so once: a property that these three
     steps keep is kept by the whole merge, however deep the trees are.

  2. **Consequences** — every graph that comes out of a document is reachable, so it is consistent
     (`reachable_ofDocument`).  What a declaration carries, and the keys of the root references, come
     from the fragments and from nowhere else.
-/
import Deadwood.Proofs.Ingest.Preparing
import Deadwood.Proofs.Store.Reachable

namespace Deadwood

/-- The exports of the document, added to those that are known. -/
def Document.extendExports (doc : Document) (known : Index String String) : Index String String :=
  doc.moduleExports.entries.foldl (fun known e =>
    e.2.foldl (fun known exported => Index.add known e.1 exported) known) known

namespace Graph

variable {P : Graph → Prop} {g : Graph} {c d : DeclId} {r : RefId} {o : Owner}

/-! ## What is there stays there -/

theorem hasReference_addReference_of_live {m : Mention} {owner : Option Owner}
    (hr : g.hasReference r = true) : (g.addReference m owner).1.hasReference r = true := by
  cases hnew : g.equalReference? m.key owner with
  | some q => rw [addReference_eq_of_some hnew]; exact hr
  | none => exact (hasReference_addReference hnew).2 (.inr hr)

@[simp] theorem hasDeclaration_addReference {m : Mention} {owner : Option Owner} :
    (g.addReference m owner).1.hasDeclaration d = g.hasDeclaration d := by
  cases hnew : g.equalReference? m.key owner with
  | some q => rw [addReference_eq_of_some hnew]
  | none => simp [hasDeclaration, declaration?_addReference hnew]

/-- The reference that is answered is there, new or not. -/
theorem hasReference_addReference_snd {m : Mention} {owner : Option Owner} :
    (g.addReference m owner).1.hasReference (g.addReference m owner).2 = true := by
  cases hnew : g.equalReference? m.key owner with
  | some q =>
      rw [addReference_eq_of_some hnew]
      obtain ⟨x, hx, -⟩ := reference?_of_equalReference? hnew
      exact hasReference_of_eq hx
  | none =>
      have hid : (g.addReference m owner).2 = g.nextReference := by
        simp only [addReference, hnew]
        rfl
      rw [hid]
      exact (hasReference_addReference hnew).2 (.inl rfl)

theorem hasDeclaration_unify {s : Symbol} :
    (g.unify c s).hasDeclaration d = g.hasDeclaration d := by
  simp [hasDeclaration, declaration?_unify]

theorem hasDeclaration_addUnusedParameter {s : Symbol} :
    (g.addUnusedParameter s c).1.hasDeclaration d = true ↔
      d = g.nextDeclaration ∨ g.hasDeclaration d = true := by
  rw [addUnusedParameter_fst, hasDeclaration_modifyDeclaration, hasDeclaration_addDeclaration]

/-- The declaration that a newcomer is another part of is there, with its kind and at its place. -/
theorem declaration?_of_partner? {s : Symbol} (h : g.partner? s = some d) : ∃ x, g.declaration? d = some x ∧
    x.kind = s.kind ∧ x.location.place = s.location.place := by
  obtain ⟨usr, -, hu⟩ := List.exists_of_findSome?_eq_some h
  have hany := (Option.filter_eq_some_iff.1 hu).2
  cases hx : g.declaration? d with
  | none => simp [hx] at hany
  | some x =>
      simp only [hx, Option.any_some, Bool.and_eq_true, beq_iff_eq] at hany
      exact ⟨x, rfl, hany.1, hany.2⟩

theorem hasDeclaration_of_partner? {s : Symbol} (h : g.partner? s = some d) :
    g.hasDeclaration d = true := by
  obtain ⟨x, hx, -⟩ := declaration?_of_partner? h
  exact hasDeclaration_of_eq hx

/-- **What placing a symbol does**: the symbol is joined with its other part, or added as a
parameter of a function, or added as a member or root. -/
theorem placeSymbol_cases (g : Graph) (s : Symbol) (nesting : Nesting) (parent : Option DeclId) :
    (∃ d, g.partner? s = some d ∧ g.placeSymbol s nesting parent = (g.unify d s, d)) ∨
      g.partner? s = none ∧
        ((∃ p, nesting = .unusedParameter ∧ parent = some p ∧
            g.placeSymbol s nesting parent = g.addUnusedParameter s p) ∨
          g.placeSymbol s nesting parent = g.addDeclaration s parent) := by
  unfold placeSymbol
  cases g.partner? s with
  | some d => exact .inl ⟨d, rfl, rfl⟩
  | none =>
      refine .inr ⟨rfl, ?_⟩
      cases nesting with
      | member => exact .inr rfl
      | unusedParameter =>
          cases parent with
          | none => exact .inr rfl
          | some p => exact .inl ⟨p, rfl, rfl, rfl⟩

theorem hasDeclaration_placeSymbol {s : Symbol} {nesting : Nesting} {parent : Option DeclId} :
    (g.placeSymbol s nesting parent).1.hasDeclaration d = true ↔
      d = (g.placeSymbol s nesting parent).2 ∨ g.hasDeclaration d = true := by
  rcases placeSymbol_cases g s nesting parent with
    ⟨c, hc, he⟩ | ⟨-, ⟨p, -, -, he⟩ | he⟩ <;> rw [he]
  · rw [hasDeclaration_unify]
    exact ⟨.inr, fun h => h.elim (fun h => h ▸ hasDeclaration_of_partner? hc) id⟩
  · exact hasDeclaration_addUnusedParameter
  · exact hasDeclaration_addDeclaration

/-! ## Runs -/

mutual

/-- **The run lemma of a reference tree.**  Every reference is added under something live; only the
outermost one can be a root. -/
theorem mergeReference_induction {P : Graph → Prop} {g : Graph} {w : Option Owner}
    (t : ReferenceTree) (live : ∀ o, w = some o → ∀ g, P g → g.hasOwner o = true)
    (refer : ∀ g m v, P g → (∀ o, v = some o → g.hasOwner o = true) →
      (v = none → w = none ∧ m = t.mention) → P (g.addReference m v).1)
    (hg : P g) : P (g.mergeReference w t) := by
  obtain ⟨mention, nested⟩ := t
  -- what is nested goes to the reference just added, which stays live meanwhile
  have hnested := mergeReferences_induction (P := fun k => P k ∧ k.hasReference
    (g.addReference mention w).2 = true) (w := some (.reference _)) nested
    (fun o ho k hk => by cases ho; exact hk.2)
    (fun k m v hk hv hroot => ⟨refer k m v hk.1 hv fun he => (by cases (hroot he).1),
      hasReference_addReference_of_live hk.2⟩)
    ⟨refer g mention w hg (fun o ho => live o ho g hg) fun he => ⟨he, rfl⟩,
      hasReference_addReference_snd⟩
  exact hnested.1

/-- The run lemma of a list of reference trees. -/
theorem mergeReferences_induction {P : Graph → Prop} {g : Graph} {w : Option Owner}
    (ts : List ReferenceTree) (live : ∀ o, w = some o → ∀ g, P g → g.hasOwner o = true)
    (refer : ∀ g m v, P g → (∀ o, v = some o → g.hasOwner o = true) →
      (v = none → w = none ∧ ∃ t ∈ ts, m = t.mention) → P (g.addReference m v).1)
    (hg : P g) : P (g.mergeReferences w ts) := by
  cases ts with
  | nil => exact hg
  | cons t ts =>
      have hfirst : P (g.mergeReference w t) :=
        mergeReference_induction t live
          (fun g m v hP hv hroot => refer g m v hP hv fun he =>
            ⟨(hroot he).1, t, by simp, (hroot he).2⟩) hg
      refine mergeReferences_induction ts live (fun g m v hP hv hroot => refer g m v hP hv
        fun he => ?_) hfirst
      obtain ⟨hw, u, hu, hm⟩ := hroot he
      exact ⟨hw, u, by simp [hu], hm⟩

end

mutual

/-- **The run lemma of a declaration tree.** -/
theorem mergeDeclaration_induction {P : Graph → Prop} {g : Graph} {n : Nesting}
    {p : Option DeclId} (t : DeclarationTree)
    (live : ∀ q, p = some q → ∀ g, P g → g.hasDeclaration q = true)
    (place : ∀ g s n p, s ∈ t.symbols → P g → (∀ q, p = some q → g.hasDeclaration q = true) →
      P (g.placeSymbol s n p).1)
    (refer : ∀ g m o, P g → g.hasOwner o = true → P (g.addReference m (some o)).1)
    (hg : P g) : P (g.mergeDeclaration n p t) := by
  obtain ⟨symbol, members, parameters, references⟩ := t
  simp only [DeclarationTree.symbols, List.mem_cons, List.mem_append] at place
  -- what is nested goes to the declaration just placed, which stays live meanwhile
  set id := (g.placeSymbol symbol n p).2 with hid
  have hplaced : P (g.placeSymbol symbol n p).1 ∧
      (g.placeSymbol symbol n p).1.hasDeclaration id = true :=
    ⟨place g symbol n p (.inl rfl) hg fun q hq => live q hq g hg,
      hasDeclaration_placeSymbol.2 (.inl rfl)⟩
  have hmembers := mergeDeclarations_induction
    (P := fun k => P k ∧ k.hasDeclaration id = true) (p := some id) (n := .member)
    members (fun q hq k hk => by cases hq; exact hk.2)
    (fun k s n p hs hk hp => ⟨place k s n p (.inr (.inl hs)) hk.1 hp,
      hasDeclaration_placeSymbol.2 (.inr hk.2)⟩)
    (fun k m o hk ho => ⟨refer k m o hk.1 ho, hasDeclaration_addReference.trans hk.2⟩) hplaced
  have hparameters := mergeDeclarations_induction
    (P := fun k => P k ∧ k.hasDeclaration id = true) (p := some id) (n := .unusedParameter)
    parameters (fun q hq k hk => by cases hq; exact hk.2)
    (fun k s n p hs hk hp => ⟨place k s n p (.inr (.inr hs)) hk.1 hp,
      hasDeclaration_placeSymbol.2 (.inr hk.2)⟩)
    (fun k m o hk ho => ⟨refer k m o hk.1 ho, hasDeclaration_addReference.trans hk.2⟩) hmembers
  have hreferences := mergeReferences_induction
    (P := fun k => P k ∧ k.hasDeclaration id = true) (w := some (.declaration id))
    references (fun o ho k hk => by cases ho; exact hk.2)
    (fun k m v hk hv hroot => by
      cases v with
      | none => cases (hroot rfl).1
      | some o => exact ⟨refer k m o hk.1 (hv o rfl), hasDeclaration_addReference.trans hk.2⟩)
    hparameters
  exact hreferences.1

/-- The run lemma of a list of declaration trees. -/
theorem mergeDeclarations_induction {P : Graph → Prop} {g : Graph} {n : Nesting}
    {p : Option DeclId} (ts : List DeclarationTree)
    (live : ∀ q, p = some q → ∀ g, P g → g.hasDeclaration q = true)
    (place : ∀ g s n p, s ∈ DeclarationTree.symbolsOf ts → P g →
      (∀ q, p = some q → g.hasDeclaration q = true) → P (g.placeSymbol s n p).1)
    (refer : ∀ g m o, P g → g.hasOwner o = true → P (g.addReference m (some o)).1)
    (hg : P g) : P (g.mergeDeclarations n p ts) := by
  cases ts with
  | nil => exact hg
  | cons t ts =>
      simp only [DeclarationTree.symbolsOf, List.mem_append] at place
      exact mergeDeclarations_induction ts live
        (fun g s n p hs => place g s n p (.inr hs)) refer
        (mergeDeclaration_induction t live (fun g s n p hs => place g s n p (.inl hs)) refer hg)

end

/-- **The run lemma of a fragment**: what registering its file, placing its symbols and adding
references keep, the merge keeps. -/
theorem merge_induction {f : PreparedFragment} (file : ∀ g, P g → P (g.addFile f.file))
    (place : ∀ g s n p, s ∈ f.symbols → P g → (∀ q, p = some q → g.hasDeclaration q = true) →
      P (g.placeSymbol s n p).1)
    (refer : ∀ g m w, P g → (∀ o, w = some o → g.hasOwner o = true) →
      (w = none → ∃ t ∈ f.references, m = t.mention) → P (g.addReference m w).1)
    (hg : P g) : P (g.merge f) := by
  refine mergeReferences_induction f.references (fun w hw => by cases hw)
    (fun g m w hP hw hroot => refer g m w hP hw fun he => (hroot he).2) ?_
  refine mergeDeclarations_induction f.declarations (fun p hp => by cases hp) place
    (fun g m o hP ho => refer g m (some o) hP (fun v hv => by cases hv; exact ho) (by simp)) ?_
  exact file g hg

/-! ## Reachability -/

/-- What ingestion does: it adds, and joins what is added with what is there. -/
def Operation.isIngestion : Operation → Bool
  | .addDeclaration .. | .addUnusedParameter .. | .unify .. | .addReference .. | .addFile _
  | .addModuleExport .. | .addAsset _ => true
  | _ => false

abbrev Ingests : Graph → Graph → Prop := Evolves fun op => op.isIngestion = true

theorem ingests_placeSymbol {s : Symbol} {n : Nesting} {p : Option DeclId}
    (hs : s.usrs.toList ≠ []) (hp : ∀ q, p = some q → g.hasDeclaration q = true) :
    Ingests g (g.placeSymbol s n p).1 := by
  rcases placeSymbol_cases g s n p with ⟨c, -, he⟩ | ⟨-, ⟨q, -, hq, he⟩ | he⟩ <;> rw [he]
  · exact .one (.unify c s) rfl trivial
  · exact .one (.addUnusedParameter s q) rfl ⟨hs, index_lt_of_hasDeclaration (hp q hq)⟩
  · exact .one (.addDeclaration s p) rfl hs

/-- **Merging a fragment is a series of sound operations.** -/
theorem ingests_merge {f : PreparedFragment} (hf : f.Identified) : Ingests g (g.merge f) :=
  merge_induction (fun _ H => H.trans (.one (.addFile f.file) rfl trivial))
    (fun _ s _ _ hs H hp => H.trans (ingests_placeSymbol (hf s hs) hp))
    (fun _ m w H _ _ => H.trans (.one (.addReference m w) rfl trivial)) .refl

theorem ingests_addMetadata {doc : Document} : Ingests g (g.addMetadata doc) := by
  have hexports : Ingests g (doc.moduleExports.entries.foldl (fun g e =>
      e.2.foldl (fun g exported => g.addModuleExport e.1 exported) g) g) :=
    .foldl fun _ e _ => .foldl fun _ name _ => .one (.addModuleExport e.1 name) rfl trivial
  exact hexports.trans (.foldl fun _ asset _ => .one (.addAsset asset) rfl trivial)

/-- **Ingesting a document is a series of sound operations.** -/
theorem ingests_ingest (doc : Document) : Ingests g (g.ingest doc).1 := by
  refine Evolves.trans (.foldl fun k f hf => ?_) ingests_addMetadata
  obtain ⟨p, hp, rfl⟩ := List.mem_map.1 hf
  obtain ⟨f, -, rfl⟩ := List.mem_map.1 hp
  exact ingests_merge (identified_prepare f)

/-- A new declaration is younger than its parent, and no other one gets another parent. -/
theorem parentOf?_apply {op : Operation} (hop : op.isIngestion = true)
    (hc : (op.apply g).parentOf? c = some d) : g.parentOf? c = some d ∨ d.index < c.index := by
  have hsame : ∀ {k : Graph}, k.parentOf? c = some d →
      (k.declaration? c).map (·.parent) = (g.declaration? c).map (·.parent) →
      g.parentOf? c = some d := by
    intro k hk hmap
    obtain ⟨x, hx, hp⟩ := parentOf?_eq_some_iff.1 hk
    rw [hx] at hmap
    obtain ⟨y, hy, hyx⟩ := Option.map_eq_some_iff.1 hmap.symm
    exact parentOf?_eq_some_iff.2 ⟨y, hy, hyx.trans hp⟩
  have hadd : ∀ {s : Symbol} {p : Option DeclId}, (g.addDeclaration s p).1.parentOf? c = some d →
      g.parentOf? c = some d ∨ d.index < c.index := by
    intro s p hp
    rw [parentOf?_addDeclaration] at hp
    split at hp
    · rename_i hnew
      rw [hnew]
      exact .inr (index_lt_of_hasDeclaration (hasDeclaration_of_filter hp))
    · exact .inl hp
  cases op with
  | addDeclaration s p => exact hadd hc
  | addUnusedParameter s p =>
      rw [Operation.apply, addUnusedParameter_fst, parentOf?_modifyDeclaration fun _ => by simp] at hc
      exact hadd hc
  | unify id s =>
      refine .inl (hsame hc ?_)
      rw [Operation.apply, declaration?_unify, Option.map_map]
      refine congrArg (Option.map · _) (funext fun x => ?_)
      rw [Function.comp_apply]
      split <;> rfl
  | addReference m w =>
      refine .inl (hsame hc ?_)
      cases hnew : g.equalReference? m.key w with
      | some q => rw [Operation.apply, addReference_eq_of_some hnew]
      | none => exact map_declaration?_addReference hnew _ fun _ _ _ => by simp
  | addFile | addModuleExport | addAsset => exact .inl hc
  | setAccess | moveDeclaration | removeDeclaration | removeReference | moveReference | mark
  | recordFolded | recordRedundantProtocol | recordRedundantAccess | recordUnusedImport => cases hop

theorem Evolves.parent_lt {h : Graph} (H : Ingests g h)
    (hg : ∀ {c d}, g.parentOf? c = some d → d.index < c.index) (hc : h.parentOf? c = some d) :
    d.index < c.index := by
  induction H with
  | refl => exact hg hc
  | step op _ hop _ ih => exact (parentOf?_apply hop hc).elim ih id

theorem Reachable.merge {f : PreparedFragment} (hg : g.Reachable) (hf : f.Identified) :
    (g.merge f).Reachable := hg.evolves (ingests_merge hf)

/-- **Every graph that comes out of a document is reachable.** -/
theorem reachable_ofDocument (doc : Document) : (ofDocument doc).1.Reachable :=
  Reachable.empty.evolves (ingests_ingest doc)

/-! ## Identifiers -/

/-- Some declaration carries the identifier. -/
def Carries (g : Graph) (usr : String) : Prop :=
  ∃ d x, g.declaration? d = some x ∧ usr ∈ x.usrs.toList

/-- A change after which no declaration carries more identifiers than before. -/
theorem carries_of_usrs {h : Graph} {usr : String} (hc : h.Carries usr)
    (hv : ∀ d y, h.declaration? d = some y → ∃ x, g.declaration? d = some x ∧ y.usrs = x.usrs) :
    g.Carries usr := by
  obtain ⟨d, y, hy, hu⟩ := hc
  obtain ⟨x, hx, he⟩ := hv d y hy
  exact ⟨d, x, hx, he ▸ hu⟩

theorem carries_addReference {m : Mention} {w : Option Owner} {usr : String}
    (hc : (g.addReference m w).1.Carries usr) : g.Carries usr := by
  cases hnew : g.equalReference? m.key w with
  | some q => rwa [addReference_eq_of_some hnew] at hc
  | none =>
      refine carries_of_usrs hc fun d y hy => ?_
      rw [declaration?_addReference hnew] at hy
      obtain ⟨x, hx, rfl⟩ := Option.map_eq_some_iff.1 hy
      refine ⟨x, hx, ?_⟩
      split <;> simp

theorem carries_addDeclaration {s : Symbol} {p : Option DeclId} {usr : String}
    (hc : (g.addDeclaration s p).1.Carries usr) : usr ∈ s.usrs.toList ∨ g.Carries usr := by
  obtain ⟨d, y, hy, hu⟩ := hc
  rw [declaration?_addDeclaration] at hy
  split at hy
  · cases hy
    exact .inl hu
  · obtain ⟨x, hx, rfl⟩ := Option.map_eq_some_iff.1 hy
    refine .inr ⟨d, x, hx, ?_⟩
    split at hu <;> simpa using hu

theorem carries_unify {s : Symbol} {usr : String} (hc : (g.unify d s).Carries usr) :
    usr ∈ s.usrs.toList ∨ g.Carries usr := by
  obtain ⟨c, y, hy, hu⟩ := hc
  rw [declaration?_unify] at hy
  obtain ⟨x, hx, rfl⟩ := Option.map_eq_some_iff.1 hy
  split at hu
  · rcases SortedSet.mem_union.1 hu with hu | hu
    · exact .inr ⟨c, x, hx, hu⟩
    · exact .inl hu
  · exact .inr ⟨c, x, hx, hu⟩

/-- A symbol brings its own identifiers and no others. -/
theorem carries_placeSymbol {s : Symbol} {n : Nesting} {p : Option DeclId} {usr : String}
    (hc : (g.placeSymbol s n p).1.Carries usr) : usr ∈ s.usrs.toList ∨ g.Carries usr := by
  rcases placeSymbol_cases g s n p with ⟨c, -, he⟩ | ⟨-, ⟨q, -, -, he⟩ | he⟩ <;> rw [he] at hc
  · exact carries_unify hc
  · rw [addUnusedParameter_fst] at hc
    refine carries_addDeclaration (s := { s with kind := .parameter }) (p := some q)
      (carries_of_usrs hc fun c y hy => ?_)
    rw [declaration?_modifyDeclaration] at hy
    obtain ⟨x, hx, rfl⟩ := Option.map_eq_some_iff.1 hy
    refine ⟨x, hx, ?_⟩
    split <;> simp
  · exact carries_addDeclaration hc

/-- **Merging trees brings the identifiers of their symbols and no others.** -/
theorem carries_mergeDeclarations {n : Nesting} {p : Option DeclId} {ts : List DeclarationTree}
    {usr : String} (hp : ∀ q, p = some q → g.hasDeclaration q = true)
    (hc : (g.mergeDeclarations n p ts).Carries usr) :
    (∃ s ∈ DeclarationTree.symbolsOf ts, usr ∈ s.usrs.toList) ∨ g.Carries usr := by
  have hrun := mergeDeclarations_induction (g := g) (n := n) (p := p) ts
    (P := fun k => (∀ q, p = some q → k.hasDeclaration q = true) ∧
      (k.Carries usr → (∃ s ∈ DeclarationTree.symbolsOf ts, usr ∈ s.usrs.toList) ∨ g.Carries usr))
    (fun q hq k hk => hk.1 q hq)
    (fun k s n' p' hs hk hp' => ⟨fun q hq => hasDeclaration_placeSymbol.2 (.inr (hk.1 q hq)),
      fun hc => (carries_placeSymbol hc).elim (fun hu => .inl ⟨s, hs, hu⟩) hk.2⟩)
    (fun k m o hk ho => ⟨fun q hq => hasDeclaration_addReference.trans (hk.1 q hq),
      fun hc => hk.2 (carries_addReference hc)⟩) ⟨hp, .inr⟩
  exact hrun.2 hc

theorem carries_mergeDeclaration {n : Nesting} {p : Option DeclId} {t : DeclarationTree}
    {usr : String} (hp : ∀ q, p = some q → g.hasDeclaration q = true)
    (hc : (g.mergeDeclaration n p t).Carries usr) :
    (∃ s ∈ t.symbols, usr ∈ s.usrs.toList) ∨ g.Carries usr := by
  have hc : (g.mergeDeclarations n p [t]).Carries usr := hc
  simpa [DeclarationTree.symbolsOf] using carries_mergeDeclarations hp hc

theorem carries_merge {f : PreparedFragment} {usr : String} (hc : (g.merge f).Carries usr) :
    (∃ s ∈ f.symbols, usr ∈ s.usrs.toList) ∨ g.Carries usr := by
  have hrun := merge_induction (g := g) (f := f)
    (P := fun k => k.Carries usr → (∃ s ∈ f.symbols, usr ∈ s.usrs.toList) ∨ g.Carries usr)
    (fun k hk hc => hk hc)
    (fun k s n p hs hk _ hc => (carries_placeSymbol hc).elim (fun hu => .inl ⟨s, hs, hu⟩) hk)
    (fun k m w hk _ _ hc => hk (carries_addReference hc)) .inr
  exact hrun hc

/-! ## Root references -/

/-- Some root reference has the key. -/
def RootKey (g : Graph) (key : Mention.Key) : Prop :=
  ∃ r x, g.reference? r = some x ∧ x.owner = none ∧ x.toMention.key = key

/-- Placing a symbol leaves the references alone, and the notes. -/
theorem references_placeSymbol {s : Symbol} {n : Nesting} {p : Option DeclId} :
    (g.placeSymbol s n p).1.references = g.references ∧
      (g.placeSymbol s n p).1.notes = g.notes := by
  have haddUsr : ∀ (g : Graph) c usr, (g.addUsr c usr).references = g.references ∧
      (g.addUsr c usr).notes = g.notes := by
    intro g c usr
    unfold addUsr
    split <;> exact ⟨rfl, rfl⟩
  have hfold : ∀ c (usrs : List String) (g : Graph),
      (usrs.foldl (fun g usr => g.addUsr c usr) g).references = g.references ∧
        (usrs.foldl (fun g usr => g.addUsr c usr) g).notes = g.notes := by
    intro c usrs
    induction usrs with
    | nil => exact fun _ => ⟨rfl, rfl⟩
    | cons usr usrs ih =>
        intro g
        have hone := haddUsr g c usr
        have hrest := ih (g.addUsr c usr)
        exact ⟨hrest.1.trans hone.1, hrest.2.trans hone.2⟩
  rcases placeSymbol_cases g s n p with ⟨c, -, he⟩ | ⟨-, ⟨q, -, -, he⟩ | he⟩ <;> rw [he]
  · exact hfold c s.usrs.toList g
  · exact ⟨references_addDeclaration (s := { s with kind := .parameter }),
      notes_addDeclaration (s := { s with kind := .parameter })⟩
  · exact ⟨references_addDeclaration, notes_addDeclaration⟩

theorem reference?_placeSymbol {s : Symbol} {n : Nesting} {p : Option DeclId} :
    (g.placeSymbol s n p).1.reference? r = g.reference? r := by
  unfold reference?
  rw [references_placeSymbol.1]

/-- A reference under something live is no root. -/
theorem rootKey_addReference {m : Mention} {w : Option Owner} {key : Mention.Key}
    (hw : ∀ o, w = some o → g.hasOwner o = true) (hk : (g.addReference m w).1.RootKey key) :
    w = none ∧ m.key = key ∨ g.RootKey key := by
  cases hnew : g.equalReference? m.key w with
  | some q =>
      rw [addReference_eq_of_some hnew] at hk
      exact .inr hk
  | none =>
      obtain ⟨r, x, hx, ho, hkey⟩ := hk
      rw [reference?_addReference hnew, filter_hasOwner hw] at hx
      split at hx
      · cases hx
        exact .inl ⟨ho, hkey⟩
      · obtain ⟨y, hy, rfl⟩ := Option.map_eq_some_iff.1 hx
        refine .inr ⟨r, y, hy, ?_, ?_⟩
        · split at ho <;> exact ho
        · split at hkey <;> exact hkey

/-- **The keys of the root references come from the fragment.** -/
theorem rootKey_merge {f : PreparedFragment} {key : Mention.Key} (hk : (g.merge f).RootKey key) :
    (∃ t ∈ f.references, t.mention.key = key) ∨ g.RootKey key := by
  have hrun := merge_induction (g := g) (f := f)
    (P := fun k => k.RootKey key → (∃ t ∈ f.references, t.mention.key = key) ∨ g.RootKey key)
    (fun k hP hk => hP hk)
    (fun k s n p _ hP _ hk => hP (by simpa only [RootKey, reference?_placeSymbol] using hk))
    (fun k m w hP hw hroot hk => by
      rcases rootKey_addReference hw hk with ⟨he, hkey⟩ | hk
      · obtain ⟨t, ht, rfl⟩ := hroot he
        exact .inl ⟨t, ht, hkey⟩
      · exact hP hk) .inr
  exact hrun hk

/-! ## Notes -/

/-- The notes with one more file. -/
def Notes.addFile (n : Notes) (file : SourceFile) : Notes :=
  { n with
    files := n.files.alter file.path.components fun known =>
      some ((known.map (·.merge file)).getD file) }

/-- Merging a fragment notes its file and nothing else. -/
theorem notes_merge {f : PreparedFragment} : (g.merge f).notes = g.notes.addFile f.file := by
  have hrefer : ∀ (k : Graph) m w, (k.addReference m w).1.notes = k.notes := by
    intro k m w
    cases hnew : k.equalReference? m.key w with
    | some q => rw [addReference_eq_of_some hnew]
    | none => exact notes_addReference hnew
  have hdeclarations := mergeDeclarations_induction (g := g.addFile f.file) (n := .member)
    (p := none) f.declarations (P := fun k => k.notes = g.notes.addFile f.file)
    (fun q hq => by cases hq) (fun k s n p _ hk _ => references_placeSymbol.2.trans hk)
    (fun k m o hk _ => (hrefer k m (some o)).trans hk) rfl
  exact mergeReferences_induction f.references
    (P := fun k => k.notes = g.notes.addFile f.file) (fun o ho => by cases ho)
    (fun k m w hk _ _ => (hrefer k m w).trans hk) hdeclarations

/-- Metadata is the exports and the assets. -/
theorem addMetadata_eq (g : Graph) (doc : Document) : g.addMetadata doc =
    { g with
      exports := doc.extendExports g.exports
      assets := doc.assetReferences.foldl SortedSet.insert g.assets } := by
  have hmodule : ∀ (module : String) (names : List String) (g : Graph),
      names.foldl (fun g exported => g.addModuleExport module exported) g =
        { g with
          exports := names.foldl (fun known name => Index.add known module name) g.exports } := by
    intro module names
    induction names with
    | nil => exact fun _ => rfl
    | cons name names ih => exact fun g => ih _
  have hexports : ∀ (entries : List (String × List String)) (g : Graph),
      entries.foldl (fun g e =>
        e.2.foldl (fun g exported => g.addModuleExport e.1 exported) g) g =
        { g with
          exports := entries.foldl (fun known e =>
            e.2.foldl (fun known exported => Index.add known e.1 exported) known) g.exports } := by
    intro entries
    induction entries with
    | nil => exact fun _ => rfl
    | cons e entries ih =>
        intro g
        rw [List.foldl_cons, hmodule, ih]
        rfl
  have hassets : ∀ (assets : List AssetReference) (g : Graph),
      assets.foldl Graph.addAsset g =
        { g with assets := assets.foldl SortedSet.insert g.assets } := by
    intro assets
    induction assets with
    | nil => exact fun _ => rfl
    | cons asset assets ih => exact fun g => ih _
  unfold addMetadata
  simp only [hexports, hassets]
  rfl

/-- The graph of a document: its fragments one after the other, then its metadata. -/
theorem ofDocument_eq (doc : Document) : (ofDocument doc).1 =
    ((doc.fragments.map (·.prepare.1)).foldl merge ∅).addMetadata doc := by
  simp only [ofDocument, ingest, List.map_map]
  rfl

/-! ## What ingestion leaves behind -/

/-- The graphs that ingestion leaves behind: fragments were merged, and metadata recorded. -/
inductive Ingested : Graph → Prop where
  | empty : Ingested ∅
  | merge {g : Graph} (hg : Ingested g) (f : Fragment) : Ingested (g.merge f.prepare.1)
  | addMetadata {g : Graph} (hg : Ingested g) (doc : Document) : Ingested (g.addMetadata doc)

namespace Ingested

theorem foldl_merge (hg : g.Ingested) {fs : List PreparedFragment}
    (hfs : ∀ f ∈ fs, ∃ a : Fragment, f = a.prepare.1) : (fs.foldl Graph.merge g).Ingested := by
  induction fs generalizing g with
  | nil => exact hg
  | cons f fs ih =>
      obtain ⟨a, rfl⟩ := hfs _ List.mem_cons_self
      exact ih (hg.merge a) fun f hf => hfs f (List.mem_cons_of_mem _ hf)

theorem ingest (hg : g.Ingested) (doc : Document) : (g.ingest doc).1.Ingested := by
  refine .addMetadata (hg.foldl_merge fun f hf => ?_) doc
  obtain ⟨_, hp, rfl⟩ := List.mem_map.1 hf
  obtain ⟨a, -, rfl⟩ := List.mem_map.1 hp
  exact ⟨a, rfl⟩

theorem reachable (hg : g.Ingested) : g.Reachable := by
  induction hg with
  | empty => exact .empty
  | merge _ f ih => exact ih.merge (identified_prepare f)
  | addMetadata _ doc ih => exact ih.evolves ingests_addMetadata

/-- Ingestion notes nothing but files, exports and assets. -/
theorem unjudged (hg : g.Ingested) :
    { g.notes with files := ∅, exports := ∅, assets := ∅ } = (∅ : Graph).notes := by
  induction hg with
  | empty => rfl
  | merge _ f ih =>
      rw [notes_merge]
      exact ih
  | addMetadata _ doc ih =>
      rw [addMetadata_eq]
      exact ih

/-- Ingestion puts no marks. -/
theorem marks (hg : g.Ingested) : g.marks = {} := congrArg Notes.marks hg.unjudged

/-- Parents are older than what they enclose. -/
theorem parent_lt (hg : g.Ingested) (hc : g.parentOf? c = some d) : d.index < c.index := by
  induction hg generalizing c d with
  | empty => cases hc
  | merge _ f ih => exact (ingests_merge (identified_prepare f)).parent_lt ih hc
  | addMetadata _ doc ih => exact ingests_addMetadata.parent_lt ih hc

end Ingested

end Graph

end Deadwood

/-
  What lasts through the passes.

  1. **The tree (`SameTree`)** — only folding changes what encloses what.  What the source says of a
     declaration never changes, apart from its accessibility.

  2. **Marks (`mem_marks_apply`)** — a mark is put by a pass that puts such marks, and goes with its
     declaration only.

  3. **Survivors (`Outlives`)** — no pass adds a declaration.  What is there in the end was there all
     along, and has the marks that it had.

  4. **Results** — only the pass that looks for them records them.
-/
import Deadwood.Proofs.Evolution
import Deadwood.Proofs.Pipeline

namespace Deadwood

open Deadwood.Graph

/-- What the source says of a declaration, leaving out its accessibility. -/
def Declaration.signature (x : Declaration) : Symbol := { x.toSymbol with access := .unwritten }

theorem Declaration.kind_eq_of_signature {x y : Declaration} (h : x.signature = y.signature) :
    x.kind = y.kind := (congrArg Symbol.kind h : x.signature.kind = y.signature.kind)

theorem Declaration.nameText_eq_of_signature {x y : Declaration} (h : x.signature = y.signature) :
    x.nameText = y.nameText := (congrArg Symbol.nameText h : x.signature.nameText = y.signature.nameText)

namespace Graph

variable {g h k : Graph} {d : DeclId} {mark : Mark} {op : Operation} {pass : Pass} {named : Prop}

/-! ## The tree of declarations -/

/-- The same declarations, nested alike; accessibility may differ. -/
def SameTree (g h : Graph) : Prop :=
  ∀ d, (h.declaration? d).map (fun x => (x.signature, x.links)) =
    (g.declaration? d).map fun x => (x.signature, x.links)

namespace SameTree

theorem refl : SameTree g g := fun _ => rfl

theorem trans (H : SameTree g h) (H' : SameTree h k) : SameTree g k := fun d =>
  (H' d).trans (H d)

theorem of_sameOutline (H : SameOutline g h) : SameTree g h := fun d => by
  have hd := congrArg (Option.map fun p : Symbol × _ => ({ p.1 with access := .unwritten }, p.2)) (H d)
  rwa [Option.map_map, Option.map_map] at hd

theorem of_declarations (hd : h.declarations = g.declarations) : SameTree g h := fun d => by
  simp only [declaration?, hd]

theorem symm (H : SameTree g h) : SameTree h g := fun d => (H d).symm

theorem hasDeclaration (H : SameTree g h) : h.hasDeclaration d = g.hasDeclaration d :=
  hasDeclaration_congr (H d)

theorem links (H : SameTree g h) : (h.declaration? d).map (·.links) = (g.declaration? d).map (·.links) := by
  have hd := congrArg (Option.map Prod.snd) (H d)
  rwa [Option.map_map, Option.map_map] at hd

theorem parentOf? (H : SameTree g h) : h.parentOf? d = g.parentOf? d := parentOf?_congr H.links

theorem signature (H : SameTree g h) :
    (h.declaration? d).map (·.signature) = (g.declaration? d).map (·.signature) := by
  have hd := congrArg (Option.map Prod.fst) (H d)
  rwa [Option.map_map, Option.map_map] at hd

theorem exists_declaration (H : SameTree g h) {x : Declaration} (hx : g.declaration? d = some x) :
    ∃ y, h.declaration? d = some y ∧ y.signature = x.signature := by
  have hd := H.signature (d := d)
  rw [hx] at hd
  exact Option.map_eq_some_iff.1 hd

end SameTree

/-- Whether an operation changes what encloses what, or what is there. -/
def Operation.reshapes : Operation → Bool
  | .moveDeclaration .. | .removeDeclaration _ => true
  | _ => false

/-- Other operations of passes leave the tree alone. -/
theorem sameTree_apply (hg : g.Coherent named) (hop : pass.MayDo op) (hs : op.reshapes = false) :
    SameTree g (op.apply g) := by
  cases op with
  | addReference m owner => exact .of_sameOutline sameOutline_addReference
  | removeReference id => exact .of_sameOutline (pruned_removeReference hg.toOwned id).sameOutline
  | moveReference id target =>
      obtain he | he | ⟨x, -, -, -, he⟩ := moveReference_cases g id target
      · rw [Operation.apply, he]
        exact .refl
      · rw [Operation.apply, he]
        exact .of_sameOutline (pruned_removeReference hg.toOwned id).sameOutline
      · rw [Operation.apply, he]
        exact fun d => map_declaration?_reowned _ (fun _ _ => rfl) fun y b r => by
          simp [Declaration.signature, Declaration.links]
  | setAccess id access =>
      intro d
      rw [Operation.apply, setAccess, declaration?_modifyDeclaration, Option.map_map]
      refine congrArg (Option.map · _) (funext fun x => ?_)
      rw [Function.comp_apply]
      split <;> rfl
  | mark m id =>
      refine .of_declarations ?_
      rw [Operation.apply, Graph.mark]
      split <;> rfl
  | recordFolded | recordRedundantProtocol | recordRedundantAccess | recordUnusedImport =>
      exact .of_declarations rfl
  | moveDeclaration | removeDeclaration => cases hs
  | addDeclaration | addUnusedParameter | unify | addFile | addModuleExport | addAsset =>
      exact hop.elim

/-- Moving a declaration leaves alone which declarations there are, and what the source says of
them. -/
theorem signature_moveDeclaration {id target : DeclId} :
    ((g.moveDeclaration id target).declaration? d).map (·.signature) =
      (g.declaration? d).map (·.signature) := by
  obtain he | ⟨x, -, -, he⟩ := moveDeclaration_cases g id target <;> rw [he]
  exact map_declaration?_relocated _ (fun _ _ => rfl)
    (fun y n c => by simp [Declaration.signature]) fun _ _ => rfl

/-! ## Notes -/

/-- Whether an operation changes what is noted of the program. -/
def Operation.notes : Operation → Bool
  | .mark .. | .removeDeclaration _ | .recordFolded .. | .recordRedundantProtocol ..
  | .recordRedundantAccess .. | .recordUnusedImport _ => true
  | _ => false

/-- Other operations of passes leave the notes alone. -/
theorem notes_apply (hg : g.Coherent named) (hop : pass.MayDo op) (hn : op.notes = false) :
    (op.apply g).notes = g.notes := by
  cases op with
  | addReference m owner =>
      cases hnew : g.equalReference? m.key owner with
      | some q => rw [Operation.apply, addReference_eq_of_some hnew]
      | none => exact notes_addReference hnew
  | removeReference id => exact (pruned_removeReference hg.toOwned id).notes
  | moveDeclaration => exact notes_moveDeclaration
  | moveReference => exact notes_moveReference hg.toOwned
  | setAccess => rfl
  | mark | removeDeclaration | recordFolded | recordRedundantProtocol | recordRedundantAccess
    | recordUnusedImport => cases hn
  | addDeclaration | addUnusedParameter | unify | addFile | addModuleExport | addAsset =>
      exact hop.elim

/-- **What is marked after an operation of a pass**: what the operation marks, and what was marked and
is still there. -/
theorem mem_marks_apply (hg : g.Coherent named) (hop : pass.MayDo op) :
    d ∈ ((op.apply g).marks.of mark).toList ↔ (op = .mark mark d ∧ g.hasDeclaration d = true) ∨
      (d ∈ (g.marks.of mark).toList ∧ (op.apply g).hasDeclaration d = true) := by
  -- where neither the marks nor the declarations change
  have hsame : ∀ {k : Graph}, k.marks = g.marks → k.hasDeclaration d = g.hasDeclaration d →
      op ≠ .mark mark d → (d ∈ (k.marks.of mark).toList ↔
        (op = .mark mark d ∧ g.hasDeclaration d = true) ∨
          (d ∈ (g.marks.of mark).toList ∧ k.hasDeclaration d = true)) := by
    intro k hm hd hne
    rw [hm, hd]
    simp only [hne, false_and, false_or]
    exact (and_iff_left_of_imp (hg.marked_live mark d)).symm
  cases op with
  | mark m c =>
      have hlive : (g.mark m c).hasDeclaration d = g.hasDeclaration d := by
        unfold Graph.mark
        split <;> rfl
      have hput : d ∈ ((g.markAll m [c]).marks.of mark).toList ↔
          (m = mark ∧ d ∈ [c] ∧ g.hasDeclaration d = true) ∨ d ∈ (g.marks.of mark).toList :=
        mem_marks_markAll
      rw [markAll, List.foldl_cons, List.foldl_nil, List.mem_singleton] at hput
      rw [Operation.apply, hput, hlive]
      constructor
      · rintro (⟨rfl, rfl, hd⟩ | hd)
        · exact .inl ⟨rfl, hd⟩
        · exact .inr ⟨hd, hg.marked_live mark d hd⟩
      · rintro (⟨he, hd⟩ | ⟨hd, -⟩)
        · cases he
          exact .inl ⟨rfl, rfl, hd⟩
        · exact .inr hd
  | removeDeclaration id =>
      have F : Felled (g.subtree id) ((g.subtree id).flatMap g.referencesFrom) g
        (g.removeDeclaration id) := felled_removeDeclaration hg
      rw [Operation.apply, F.marks, SortedSet.mem_without, F.hasDeclaration_iff]
      simp only [reduceCtorEq, false_and, false_or]
      exact and_congr_right fun hd => (and_iff_right (hg.marked_live mark d hd)).symm
  | moveDeclaration id target =>
      exact hsame (congrArg Notes.marks (notes_apply hg hop rfl))
        (hasDeclaration_congr signature_moveDeclaration) (by simp)
  | addReference | removeReference | moveReference | setAccess =>
      exact hsame (congrArg Notes.marks (notes_apply hg hop rfl))
        (sameTree_apply hg hop rfl).hasDeclaration (by simp)
  | recordFolded | recordRedundantProtocol | recordRedundantAccess | recordUnusedImport =>
      exact hsame rfl rfl (by simp)
  | addDeclaration | addUnusedParameter | unify | addFile | addModuleExport | addAsset =>
      exact hop.elim

/-- Taking declarations out, and marking, leaves the results alone. -/
theorem results_apply (hg : g.Coherent named) (hop : pass.MayDo op) :
    ((op.apply g).redundantProtocols = g.redundantProtocols ∨ pass = .redundantProtocols) ∧
      ((op.apply g).redundantAccess = g.redundantAccess ∨ pass.judgesAccess = true) := by
  have hsame : ∀ {k : Graph} {m : Marks}, { k.notes with marks := m } = g.notes →
      (k.redundantProtocols = g.redundantProtocols ∨ pass = .redundantProtocols) ∧
        (k.redundantAccess = g.redundantAccess ∨ pass.judgesAccess = true) := fun hk =>
    ⟨.inl (congrArg Notes.redundantProtocols hk), .inl (congrArg Notes.redundantAccess hk)⟩
  cases op with
  | removeDeclaration id => exact hsame (felled_removeDeclaration hg).results
  | mark m c =>
      rw [Operation.apply, Graph.mark]
      split <;> exact ⟨.inl rfl, .inl rfl⟩
  | recordFolded | recordUnusedImport => exact ⟨.inl rfl, .inl rfl⟩
  | recordRedundantProtocol => exact ⟨.inr hop, .inl rfl⟩
  | recordRedundantAccess => exact ⟨.inl rfl, .inr hop⟩
  | addReference | removeReference | moveReference | moveDeclaration | setAccess =>
      exact hsame (notes_apply hg hop rfl)
  | addDeclaration | addUnusedParameter | unify | addFile | addModuleExport | addAsset =>
      exact hop.elim

/-! ## Survivors -/

/-- What is there in `h` was there in `g`, where the source said the same of it, and has the marks
that it had. -/
structure Outlives (g h : Graph) : Prop where
  declaration : ∀ d y, h.declaration? d = some y →
    ∃ x, g.declaration? d = some x ∧ y.signature = x.signature
  marked : ∀ mark d, h.hasDeclaration d = true → g.isMarked mark d = true → h.isMarked mark d = true

namespace Outlives

theorem refl : Outlives g g := ⟨fun _ y hy => ⟨y, hy, rfl⟩, fun _ _ _ hm => hm⟩

theorem live (H : Outlives g h) (hd : h.hasDeclaration d = true) : g.hasDeclaration d = true := by
  obtain ⟨y, hy⟩ := hasDeclaration_iff.1 hd
  obtain ⟨x, hx, -⟩ := H.declaration d y hy
  exact hasDeclaration_of_eq hx

theorem trans (H : Outlives g h) (H' : Outlives h k) : Outlives g k where
  declaration d z hz := by
    obtain ⟨y, hy, hzy⟩ := H'.declaration d z hz
    obtain ⟨x, hx, hyx⟩ := H.declaration d y hy
    exact ⟨x, hx, hzy.trans hyx⟩
  marked mark d hd hm := H'.marked mark d hd (H.marked mark d (H'.live hd) hm)

theorem kind (H : Outlives g h) {y : Declaration} (hy : h.declaration? d = some y) :
    ∃ x, g.declaration? d = some x ∧ x.kind = y.kind := by
  obtain ⟨x, hx, hs⟩ := H.declaration d y hy
  exact ⟨x, hx, (congrArg Symbol.kind hs).symm⟩

/-- One operation of a pass. -/
theorem apply (hg : g.Coherent named) (hop : pass.MayDo op) : Outlives g (op.apply g) where
  declaration d y hy := by
    have hof : (((op.apply g).declaration? d).map (·.signature) =
        (g.declaration? d).map (·.signature)) →
        ∃ x, g.declaration? d = some x ∧ y.signature = x.signature := by
      intro hs
      rw [hy] at hs
      obtain ⟨x, hx, he⟩ := Option.map_eq_some_iff.1 hs.symm
      exact ⟨x, hx, he.symm⟩
    cases op with
    | moveDeclaration id target => exact hof signature_moveDeclaration
    | removeDeclaration id =>
        rw [Operation.apply, (felled_removeDeclaration hg).declaration] at hy
        split at hy
        · cases hy
        · obtain ⟨x, hx, rfl⟩ := Option.map_eq_some_iff.1 hy
          exact ⟨x, hx, rfl⟩
    | addDeclaration | addUnusedParameter | unify | setAccess | addReference | removeReference
    | moveReference | mark | recordFolded | recordRedundantProtocol | recordRedundantAccess
    | recordUnusedImport | addFile | addModuleExport | addAsset =>
        exact hof (sameTree_apply hg hop rfl).signature
  marked mark d hd hm := isMarked_iff.2 ((mem_marks_apply hg hop).2 (.inr ⟨isMarked_iff.1 hm, hd⟩))

end Outlives

/-! ## Series of operations -/

namespace Evolves

/-- What is there after the operations of a pass outlives them. -/
theorem outlives (hg : g.Coherent named) (H : Evolves pass.MayDo g h) : Outlives g h := by
  induction H with
  | refl => exact .refl
  | step op H hop _ ih => exact ih.trans (.apply (H.coherent hg) hop)

/-- Only folding changes the tree. -/
theorem sameTree (hg : g.Coherent named) (hp : pass ≠ .foldExtensions)
    (H : Evolves pass.MayDo g h) : SameTree g h := by
  induction H with
  | refl => exact .refl
  | step op H hop _ ih =>
      refine ih.trans (sameTree_apply (H.coherent hg) hop ?_)
      cases op <;> first | rfl | exact absurd hop hp

/-- Marks that a pass does not put were there before. -/
theorem isMarked_of_not_puts (hg : g.Coherent named) (hp : mark ∉ pass.puts)
    (H : Evolves pass.MayDo g h) (hd : h.isMarked mark d = true) : g.isMarked mark d = true := by
  induction H with
  | refl => exact hd
  | step op H hop _ ih =>
      rcases (mem_marks_apply (H.coherent hg) hop).1 (isMarked_iff.1 hd) with ⟨rfl, -⟩ | ⟨hd, -⟩
      · exact absurd hop hp
      · exact ih (isMarked_iff.2 hd)

/-- Only its own pass records redundant protocols, and only the passes for accessibility record
redundant tiers. -/
theorem results (hg : g.Coherent named) (H : Evolves pass.MayDo g h) :
    (h.redundantProtocols = g.redundantProtocols ∨ pass = .redundantProtocols) ∧
      (h.redundantAccess = g.redundantAccess ∨ pass.judgesAccess = true) := by
  induction H with
  | refl => exact ⟨.inl rfl, .inl rfl⟩
  | step op H hop _ ih =>
      obtain ⟨hprotocols, haccess⟩ := results_apply (H.coherent hg) hop
      refine ⟨?_, ?_⟩
      · exact hprotocols.elim (fun he => ih.1.imp_left he.trans) .inr
      · exact haccess.elim (fun he => ih.2.imp_left he.trans) .inr

end Evolves

end Graph

/-! ## Runs -/

variable {s : Settings} {g : Graph} {d : DeclId} {mark : Mark} {pass : Pass} {xs : List Pass}
  {named : Prop}

theorem coherent_runPasses (hg : g.Coherent named) : (runPasses s g xs).graph.Coherent named :=
  runPasses_keeps (fun _ _ _ hk => Pass.coherent_run hk) hg

/-- What is there after a run outlived it, also where the run was cut short. -/
theorem outlives_runPasses (hg : g.Coherent named) : Outlives g (runPasses s g xs).graph :=
  (runPasses_keeps (P := fun k => k.Coherent named ∧ Outlives g k)
    (fun _ _ _ hk => ⟨Pass.coherent_run hk.1, hk.2.trans (Pass.evolves_run.outlives hk.1)⟩)
    ⟨hg, .refl⟩).2

/-- Passes other than folding leave the tree alone. -/
theorem sameTree_runPasses (hg : g.Coherent named) (hxs : .foldExtensions ∉ xs) :
    SameTree g (runPasses s g xs).graph :=
  (runPasses_keeps (P := fun k => k.Coherent named ∧ SameTree g k)
    (fun _ _ hp hk => ⟨Pass.coherent_run hk.1, hk.2.trans
      (Pass.evolves_run.sameTree hk.1 fun he => hxs (he ▸ hp))⟩) ⟨hg, .refl⟩).2

/-- What is there in the end outlived the start of every pass. -/
theorem outlives_whenStarts (hg : g.Coherent named) (hnone : (analyse s g).failure = none) :
    Outlives (whenStarts s g pass) (analyse s g).graph := by
  have hcut : standardPasses s =
      (standardPasses s).takeWhile (· ≠ pass) ++ (standardPasses s).dropWhile (· ≠ pass) :=
    List.takeWhile_append_dropWhile.symm
  rw [analyse, hcut, graph_runPasses_append (failure_whenStarts hnone pass)]
  exact outlives_runPasses (coherent_runPasses hg)

/-- When a pass starts and folding is over, the tree is that of the end. -/
theorem sameTree_whenStarts {before after : List Pass} (hall : Pass.all = before ++ pass :: after)
    (hon : pass.isEnabled s.detection = true) (hnew : pass ∉ before)
    (hfold : .foldExtensions ∉ pass :: after) (hg : g.Coherent named)
    (hnone : (analyse s g).failure = none) :
    SameTree (whenStarts s g pass) (analyse s g).graph := by
  obtain ⟨-, -, -, hend⟩ := analyse_cut hall hon hnew hnone
  have hk : (whenStarts s g pass).Coherent named := coherent_runPasses hg
  have hone : SameTree (whenStarts s g pass) (pass.run s (whenStarts s g pass)).graph :=
    Pass.evolves_run.sameTree hk fun he => hfold (he ▸ List.mem_cons_self)
  rw [hend]
  refine hone.trans (sameTree_runPasses (Pass.coherent_run hk) fun hmem => hfold ?_)
  exact List.mem_cons_of_mem _ (List.mem_filter.1 hmem).1

/-- Marks that no pass of a list puts were there before. -/
theorem isMarked_of_runPasses (hg : g.Coherent named) (hxs : ∀ p ∈ xs, mark ∉ p.puts)
    (hd : (runPasses s g xs).graph.isMarked mark d = true) : g.isMarked mark d = true :=
  (runPasses_keeps (P := fun k => k.Coherent named ∧ (k.isMarked mark d = true →
      g.isMarked mark d = true))
    (fun _ _ hp hk => ⟨Pass.coherent_run hk.1, fun hd =>
      hk.2 (Pass.evolves_run.isMarked_of_not_puts hk.1 (hxs _ hp) hd)⟩) ⟨hg, id⟩).2 hd

/-- Passes that record no results leave the results alone. -/
theorem results_runPasses (hg : g.Coherent named)
    (hxs : ∀ p ∈ xs, p ≠ .redundantProtocols ∧ p.judgesAccess = false) :
    (runPasses s g xs).graph.redundantProtocols = g.redundantProtocols ∧
      (runPasses s g xs).graph.redundantAccess = g.redundantAccess :=
  (runPasses_keeps (P := fun k => k.Coherent named ∧ k.redundantProtocols = g.redundantProtocols ∧
      k.redundantAccess = g.redundantAccess) (fun k p hp hk => by
    have H : Evolves p.MayDo k (p.run s k).graph := Pass.evolves_run
    obtain ⟨hprotocols, haccess⟩ := H.results hk.1
    obtain ⟨hne, hno⟩ := hxs p hp
    exact ⟨Pass.coherent_run hk.1, (hprotocols.resolve_right hne).trans hk.2.1,
      (haccess.resolve_right fun hyes => by rw [hno] at hyes; cases hyes).trans hk.2.2⟩)
    ⟨hg, rfl, rfl⟩).2

end Deadwood

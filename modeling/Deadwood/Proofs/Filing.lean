/-
  What is filed stays right, whatever handles are passed.

  1. **Any handles (`Stored`)** — graphs that come about through operations of the store, documents and
     passes in any order, where an operation may be given any handle at all: of something that is
     there, of something that is gone, or one that was never given out.

  2. **What such a handle can upset** — the tree of declarations.  A parameter added to the very
     handle that it is about to get lists itself.  So `Coherent` is too much to ask here.

  3. **What it cannot upset (`Filed`)** — the indices of declarations (`Indexed`) and the links of
     references (`Owned`).  One operation keeps both (`Filed.apply`), so every history does
     (`Stored.filed`): a removal takes out one declaration after the other, and each of them leaves
     the indices and takes its own references along, whoever lists it.
-/
import Deadwood.Proofs.Evolution
import Deadwood.Proofs.Ingest.Merging

namespace Deadwood.Graph

variable {g h : Graph} {d target : DeclId} {r : RefId} {s : Symbol}

/-- The indices of declarations and the links of references are right. -/
structure Filed (g : Graph) : Prop extends Indexed g, Owned g

namespace Filed

theorem empty : (∅ : Graph).Filed := by
  have hempty : (∅ : Graph).Coherent False := coherent_empty
  exact ⟨hempty.toIndexed, hempty.toOwned⟩

/-- Notes are not filed. -/
theorem of_entries (hg : g.Filed) (hd : h.declarations = g.declarations)
    (hr : h.references = g.references) (hu : h.declarationsByUsr = g.declarationsByUsr)
    (hk : h.declarationsByKind = g.declarationsByKind)
    (hru : h.referencesByUsr = g.referencesByUsr) (hrr : h.rootReferences = g.rootReferences) :
    h.Filed := by
  have hdecl : ∀ d, h.declaration? d = g.declaration? d := fun d => by simp only [declaration?, hd]
  have href : ∀ r, h.reference? r = g.reference? r := fun r => by simp only [reference?, hr]
  exact ⟨hg.toIndexed.congr (fun d => by rw [hdecl]) hu hk,
    hg.toOwned.congr href (fun d b r => by simp only [heldBy, hdecl]) hrr hru⟩

/-! ## Steps -/

theorem addDeclaration (hg : g.Filed) {parent : Option DeclId} :
    (g.addDeclaration s parent).1.Filed :=
  ⟨indexed_addDeclaration hg.toIndexed, owned_addDeclaration hg.toOwned⟩

theorem modifyDeclaration (hg : g.Filed) {f : Declaration → Declaration}
    (hu : ∀ x, (f x).usrs = x.usrs) (hk : ∀ x, (f x).kind = x.kind)
    (hh : ∀ x b, (f x).held b = x.held b) : (g.modifyDeclaration d f).Filed :=
  ⟨hg.toIndexed.modifyDeclaration hu hk, hg.toOwned.modifyDeclaration hh⟩

/-- A parameter is filed, even where the function is the parameter itself. -/
theorem addUnusedParameter (hg : g.Filed) : (g.addUnusedParameter s d).1.Filed :=
  hg.addDeclaration.modifyDeclaration (fun _ => rfl) (fun _ => rfl) fun _ _ => by simp

theorem addUsr (hg : g.Filed) {usr : String} : (g.addUsr d usr).Filed :=
  ⟨hg.toIndexed.addUsr, hg.toOwned.addUsr⟩

theorem unify (hg : g.Filed) : (g.unify d s).Filed := by
  have husrs : (s.usrs.toList.foldl (fun g usr => g.addUsr d usr) g).Filed :=
    List.foldlRecOn _ _ hg fun _ hk _ _ => hk.addUsr
  exact husrs.modifyDeclaration (fun _ => rfl) (fun _ => rfl) fun _ _ => rfl

theorem moveDeclaration (hg : g.Filed) : (g.moveDeclaration d target).Filed := by
  obtain he | ⟨x, -, -, he⟩ := moveDeclaration_cases g d target <;> rw [he]
  · exact hg
  · exact ⟨indexed_relocated hg.toIndexed, owned_relocated hg.toOwned⟩

theorem addReference (hg : g.Filed) {m : Mention} {owner : Option Owner} :
    (g.addReference m owner).1.Filed := by
  cases hnew : g.equalReference? m.key owner with
  | some q => rw [addReference_eq_of_some hnew]; exact hg
  | none => exact ⟨hg.toIndexed.addReference, owned_addReference hg.toOwned hnew⟩

theorem removeReference (hg : g.Filed) : (g.removeReference r).Filed := by
  have hp := pruned_removeReference hg.toOwned r
  exact ⟨hp.indexed hg.toIndexed,
    hp.owned hg.toOwned (closedUnderNesting_referenceTree hg.toOwned)⟩

theorem moveReference (hg : g.Filed) : (g.moveReference r target).Filed := by
  obtain he | he | ⟨x, hx, ht, hnew, he⟩ := moveReference_cases g r target <;> rw [he]
  · exact hg
  · exact hg.removeReference
  · exact ⟨indexed_reowned hg.toIndexed, owned_reowned hg.toOwned hx ht hnew⟩

theorem foldl_takeDeclaration (hg : g.Filed) (ids : List DeclId) :
    (ids.foldl takeDeclaration g).Filed := by
  induction ids generalizing g with
  | nil => exact hg
  | cons id ids ih =>
      have hone : (g.takeDeclaration id).Indexed ∧ (g.takeDeclaration id).Owned :=
        filed_takeDeclaration hg.toIndexed hg.toOwned
      exact ih ⟨hone.1, hone.2⟩

theorem mark (hg : g.Filed) {mark : Mark} : (g.mark mark d).Filed := by
  unfold Graph.mark
  split
  · exact hg.of_entries rfl rfl rfl rfl rfl rfl
  · exact hg

/-- **One operation keeps what is filed right**, whatever handles it is given. -/
theorem apply (hg : g.Filed) (op : Operation) : (op.apply g).Filed := by
  cases op with
  | addDeclaration s parent => exact hg.addDeclaration
  | addUnusedParameter s function => exact hg.addUnusedParameter
  | unify id s => exact hg.unify
  | setAccess id access =>
      exact hg.modifyDeclaration (fun _ => rfl) (fun _ => rfl) fun _ _ => rfl
  | moveDeclaration id target => exact hg.moveDeclaration
  | removeDeclaration id => exact hg.foldl_takeDeclaration _
  | addReference m owner => exact hg.addReference
  | removeReference id => exact hg.removeReference
  | moveReference id target => exact hg.moveReference
  | mark mark id => exact hg.mark
  | recordRedundantProtocol | recordFolded | recordRedundantAccess | recordUnusedImport | addFile
    | addModuleExport | addAsset => exact hg.of_entries rfl rfl rfl rfl rfl rfl

end Filed

/-! ## Histories -/

/-- Graphs that come about through operations with any handles, documents, and passes. -/
inductive Stored : Graph → Prop where
  | empty : Stored ∅
  | apply {g : Graph} (hg : Stored g) (op : Operation) : Stored (op.apply g)
  | addUsr {g : Graph} (hg : Stored g) (id : DeclId) (usr : String) : Stored (g.addUsr id usr)
  | ingest {g : Graph} (hg : Stored g) (doc : Document) : Stored (g.ingest doc).1
  | run {g : Graph} (hg : Stored g) (pass : Pass) (s : Settings) : Stored (pass.run s g).graph

theorem Stored.foldl_apply (hg : g.Stored) (ops : List Operation) :
    (ops.foldl Operation.apply g).Stored := by
  induction ops generalizing g with
  | nil => exact hg
  | cons op ops ih => exact ih (hg.apply op)

theorem Stored.evolves {P : Operation → Prop} (hg : g.Stored) (H : Evolves P g h) : h.Stored := by
  induction H with
  | refl => exact hg
  | step op _ _ _ ih => exact ih.apply op

/-- **What one operation keeps, and one more identifier, holds after every history** if it holds of the
empty graph: documents and passes are series of operations. -/
theorem Stored.of_steps {I : Graph → Prop} (hempty : I ∅)
    (hop : ∀ (k : Graph) (op : Operation), k.Stored → I k → I (op.apply k))
    (husr : ∀ (k : Graph) (id : DeclId) (usr : String), k.Stored → I k → I (k.addUsr id usr))
    (hg : g.Stored) : I g := by
  have hrun : ∀ {P : Operation → Prop} {k l : Graph}, k.Stored → I k → Evolves P k l → I l := by
    intro P k l hk hI H
    induction H with
    | refl => exact hI
    | step op H _ _ ih => exact hop _ op (hk.evolves H) ih
  induction hg with
  | empty => exact hempty
  | apply hg op ih => exact hop _ op hg ih
  | addUsr hg id usr ih => exact husr _ id usr hg ih
  | ingest hg doc ih => exact hrun hg ih (ingests_ingest doc)
  | run hg pass s ih => exact hrun hg ih Pass.evolves_run

/-- **What is filed is right after every history.** -/
theorem Stored.filed (hg : g.Stored) : g.Filed :=
  hg.of_steps .empty (fun _ op _ hk => hk.apply op) fun _ _ _ _ hk => hk.addUsr

end Deadwood.Graph

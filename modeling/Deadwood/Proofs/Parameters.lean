/-
  Unused parameters are parameters.

  1. **`ListsParameters`** — what a declaration lists among its unused parameters is a parameter.

  2. **Operations (`ListsParameters.apply`)** — most operations list no more unused parameters and change
     no kind (`Lists`).  Of the others, one adds a parameter, and a move leaves a parameter one.

  3. **What is built (`Built.listsParameters`)** — so this holds whatever is merged, and after any
     passes.
-/
import Deadwood.Proofs.Ownership
import Deadwood.Proofs.Persistence

namespace Deadwood

open Deadwood.Graph

namespace Graph

variable {g h : Graph} {d p : DeclId} {op : Operation}

/-- A parameter that is there. -/
def IsParameter (g : Graph) (p : DeclId) : Prop :=
  ∃ x, g.declaration? p = some x ∧ x.kind = .parameter

/-- What is listed as an unused parameter is a parameter. -/
def ListsParameters (g : Graph) : Prop :=
  ∀ d x p, g.declaration? d = some x → p ∈ x.parameters.toList → g.IsParameter p

theorem IsParameter.of_signature (hp : g.IsParameter p)
    (hs : (h.declaration? p).map (·.signature) = (g.declaration? p).map (·.signature)) :
    h.IsParameter p := by
  obtain ⟨x, hx, hk⟩ := hp
  rw [hx] at hs
  obtain ⟨y, hy, he⟩ := Option.map_eq_some_iff.1 hs
  exact ⟨y, hy, (congrArg Symbol.kind he).trans hk⟩

theorem IsParameter.of_sameTree (hp : g.IsParameter p) (H : SameTree g h) : h.IsParameter p :=
  hp.of_signature H.signature

/-- A parameter, or a declaration that stands in one. -/
def InParameter (g : Graph) (d : DeclId) : Prop := ∃ p, g.EnclosedBy d p ∧ g.IsParameter p

theorem IsParameter.kind {x : Declaration} (hp : g.IsParameter p) (hx : g.declaration? p = some x) :
    x.kind = .parameter := by
  obtain ⟨y, hy, hk⟩ := hp
  rw [hx] at hy
  cases hy
  exact hk

theorem IsParameter.live (hp : g.IsParameter p) : g.hasDeclaration p = true := by
  obtain ⟨x, hx, -⟩ := hp
  exact hasDeclaration_of_eq hx

theorem IsParameter.inParameter (hp : g.IsParameter p) : g.InParameter p :=
  ⟨p, .here (mem_declIds.2 hp.live), hp⟩

theorem inParameter_iff : g.InParameter d ↔
    ∃ p ∈ g.lineage d, (g.declaration? p).any (·.kind == .parameter) = true := by
  refine exists_congr fun p => and_congr ?_ ?_
  · rw [lineage, mem_explore_iff]
    simp [EnclosedBy]
  · rw [IsParameter, Option.any_eq_true]
    simp

instance : Decidable (g.InParameter d) := decidable_of_iff _ inParameter_iff.symm

/-- Where an accessor stands in a parameter, so does its property. -/
theorem InParameter.of_accessor {x : Declaration} (hd : g.InParameter d)
    (hx : g.declaration? d = some x) (hk : x.kind.isAccessor = true) (hp : x.parent = some p) :
    g.InParameter p := by
  obtain ⟨q, hup, hq⟩ := hd
  have hne : q ≠ d := by
    rintro rfl
    rw [hq.kind hx] at hk
    cases hk
  rcases hup.avoid hne with ⟨habsurd, -⟩ | ⟨c, hc, hup⟩
  · exact absurd rfl habsurd
  · have hparent : g.parentOf? d = some p := parentOf?_eq_some_iff.2 ⟨x, hx, hp⟩
    rw [hparent] at hc
    obtain rfl := List.mem_singleton.1 hc
    exact ⟨q, hup.mono List.erase_subset, hq⟩

/-! ## Changes that list nothing more -/

/-- `Lists g h`: what is there in `h` was there in `g`, is of the same kind and lists no unused parameters
that it did not list. -/
def Lists (g h : Graph) : Prop :=
  ∀ d y, h.declaration? d = some y →
    ∃ x, g.declaration? d = some x ∧ y.kind = x.kind ∧ y.parameters.toList ⊆ x.parameters.toList

theorem Lists.of_map {f : DeclId → Declaration → Declaration}
    (hf : ∀ d, h.declaration? d = (g.declaration? d).map (f d))
    (hkind : ∀ d x, (f d x).kind = x.kind)
    (hlist : ∀ d x, (f d x).parameters.toList ⊆ x.parameters.toList) : Lists g h := by
  intro d y hy
  rw [hf] at hy
  obtain ⟨x, hx, rfl⟩ := Option.map_eq_some_iff.1 hy
  exact ⟨x, hx, hkind d x, hlist d x⟩

theorem SameTree.lists (H : SameTree g h) : Lists g h := by
  intro d y hy
  have hd := H d
  rw [hy] at hd
  obtain ⟨x, hx, he⟩ := Option.map_eq_some_iff.1 hd.symm
  have hkind : x.kind = y.kind := congrArg (fun e => e.1.kind) he
  have hlist : x.parameters = y.parameters := congrArg (fun e => e.2.2.2) he
  exact ⟨x, hx, hkind.symm, by rw [hlist]; exact List.Subset.refl _⟩

theorem ListsParameters.of_lists (hg : g.ListsParameters) (hh : h.Nested) (H : Lists g h) :
    h.ListsParameters := by
  intro d y p hy hp
  obtain ⟨x, hx, -, hsub⟩ := H d y hy
  obtain ⟨z, hz, hkind⟩ := hg d x p hx (hsub hp)
  -- what is listed is there
  have hparent : h.parentOf? p = some d :=
    (hh.child_iff d p).1 (mem_childrenOf_iff.2 ⟨y, hy, .inr hp⟩)
  obtain ⟨w, hw, -⟩ := parentOf?_eq_some_iff.1 hparent
  obtain ⟨z', hz', hsame, -⟩ := H p w hw
  rw [hz] at hz'
  cases hz'
  exact ⟨w, hw, hsame.trans hkind⟩

/-! ## Additions and moves -/

theorem ListsParameters.addDeclaration (hg : g.ListsParameters) {s : Symbol} {parent : Option DeclId} :
    (g.addDeclaration s parent).1.ListsParameters := by
  intro d y p hy hp
  rw [declaration?_addDeclaration] at hy
  split at hy
  · -- the newcomer lists nothing
    cases hy
    cases hp
  · obtain ⟨x, hx, rfl⟩ := Option.map_eq_some_iff.1 hy
    have hold : p ∈ x.parameters.toList := by
      split at hp
      · exact hp
      · exact hp
    obtain ⟨z, hz, hkind⟩ := hg d x p hx hold
    have hne : p ≠ g.nextDeclaration := by
      rintro rfl
      simp at hz
    rw [IsParameter, declaration?_addDeclaration, if_neg hne, hz]
    refine ⟨_, rfl, ?_⟩
    split
    · exact hkind
    · exact hkind

theorem ListsParameters.addUnusedParameter (hg : g.ListsParameters) {s : Symbol} {function : DeclId} :
    (g.addUnusedParameter s function).1.ListsParameters := by
  have hadd : (g.addDeclaration { s with kind := .parameter } (some function)).1.ListsParameters :=
    hg.addDeclaration
  have hnew : ((g.addDeclaration { s with kind := .parameter } (some function)).1.declaration?
      g.nextDeclaration).map (·.kind) = some .parameter := by
    rw [declaration?_addDeclaration, if_pos rfl]
    rfl
  rw [addUnusedParameter_fst]
  generalize (g.addDeclaration { s with kind := .parameter } (some function)).1 = k at hadd hnew
  intro d y p hy hp
  rw [declaration?_modifyDeclaration] at hy
  rw [IsParameter, declaration?_modifyDeclaration]
  obtain ⟨x, hx, rfl⟩ := Option.map_eq_some_iff.1 hy
  have hlisted : p = g.nextDeclaration ∨ p ∈ x.parameters.toList := by
    split at hp
    · simp only [Declaration.addChild, Declaration.dropChild, SortedSet.mem_insert,
        SortedSet.mem_erase] at hp
      exact hp.imp_right And.left
    · exact .inr hp
  have hkind : k.IsParameter p := by
    rcases hlisted with rfl | hold
    · exact Option.map_eq_some_iff.1 hnew
    · exact hadd d x p hx hold
  obtain ⟨z, hz, hkind⟩ := hkind
  rw [hz]
  refine ⟨_, rfl, ?_⟩
  split
  · exact hkind
  · exact hkind

/-- A declaration that moves is listed as a parameter where it was one. -/
theorem ListsParameters.moveDeclaration (hg : g.ListsParameters) {id target : DeclId} :
    (g.moveDeclaration id target).ListsParameters := by
  have hkind : ∀ p, g.IsParameter p → (g.moveDeclaration id target).IsParameter p :=
    fun p hp => hp.of_signature signature_moveDeclaration
  obtain he | ⟨x, -, -, he⟩ := moveDeclaration_cases g id target <;> rw [he] at hkind ⊢
  · exact hg
  · intro d y p hy hp
    rw [declaration?_relocated] at hy
    obtain ⟨v, hv, rfl⟩ := Option.map_eq_some_iff.1 hy
    have hlisted : (p = id ∧ g.nestingOf id = .unusedParameter) ∨ p ∈ v.parameters.toList := by
      revert hp
      split <;> split <;> split <;> cases g.nestingOf id <;>
        simp only [Declaration.addChild, Declaration.dropChild, SortedSet.mem_insert,
          SortedSet.mem_erase] <;> tauto
    rcases hlisted with ⟨rfl, hnesting⟩ | hold
    · unfold nestingOf at hnesting
      split at hnesting
      · rename_i hwas
        obtain ⟨parent, hparent, hlists⟩ := (Option.any_eq_true _ _).1 hwas
        obtain ⟨a, -, ha⟩ := Option.bind_eq_some_iff.1 hparent
        exact hkind p (hg a parent p ha (SortedSet.contains_iff.1 hlists))
      · cases hnesting
    · exact hkind p (hg d v p hv hold)

/-! ## Operations -/

/-- **Every operation keeps unused parameters parameters.** -/
theorem ListsParameters.apply (hg : g.ListsParameters) (hc : g.Coherent False) (hop : op.Issued g) :
    (op.apply g).ListsParameters := by
  have hlists : Lists g (op.apply g) → (op.apply g).ListsParameters :=
    hg.of_lists (hc.apply op hop False.elim).toNested
  -- an operation that some pass may do and that leaves the tree alone
  have htree : ∀ pass : Pass, pass.MayDo op → op.reshapes = false →
      (op.apply g).ListsParameters := fun _ hmay hs => hlists (sameTree_apply hc hmay hs).lists
  cases op with
  | addDeclaration s parent => exact hg.addDeclaration
  | addUnusedParameter s function => exact hg.addUnusedParameter
  | moveDeclaration id target => exact hg.moveDeclaration
  | removeDeclaration id =>
      refine hlists fun d y hy => ?_
      rw [Operation.apply, (felled_removeDeclaration hc).declaration] at hy
      split at hy
      · cases hy
      · obtain ⟨x, hx, rfl⟩ := Option.map_eq_some_iff.1 hy
        exact ⟨x, hx, rfl, fun p hp => (SortedSet.mem_without.1 hp).1⟩
  | unify id s =>
      refine hlists (.of_map (fun d => declaration?_unify) (fun d x => ?_) fun d x => ?_)
      · split <;> rfl
      · split <;> exact List.Subset.refl _
  | mark m id =>
      refine hlists (SameTree.of_declarations ?_).lists
      rw [Operation.apply, Graph.mark]
      split <;> rfl
  | setAccess id access => exact htree .cascadeAccess rfl rfl
  | addReference m owner => exact htree .cascadeAccess trivial rfl
  | removeReference id => exact htree .foldExtensions rfl rfl
  | moveReference id target => exact htree .foldExtensions rfl rfl
  | recordFolded | recordRedundantProtocol | recordRedundantAccess | recordUnusedImport | addFile
    | addModuleExport | addAsset => exact hlists (SameTree.of_declarations rfl).lists

theorem ListsParameters.addUsr (hg : g.ListsParameters) (hc : g.Coherent False) {usr : String} :
    (g.addUsr d usr).ListsParameters := by
  refine hg.of_lists hc.addUsr.toNested (.of_map (fun d => declaration?_addUsr) (fun c x => ?_)
    fun c x => ?_)
  · split <;> rfl
  · split <;> exact List.Subset.refl _

/-- A series of operations keeps unused parameters parameters. -/
theorem ListsParameters.evolves {P : Operation → Prop} (hg : g.ListsParameters)
    (hc : g.Coherent False) (H : Evolves P g h) : h.ListsParameters := by
  induction H with
  | refl => exact hg
  | step op H _ hsound ih => exact ih.apply (H.coherent hc) hsound.issued

/-- **In a graph that is built, unused parameters are parameters**, whatever happened to it. -/
theorem Built.listsParameters (hg : g.Built) : g.ListsParameters := by
  induction hg with
  | empty =>
      intro d x p hx
      cases hx
  | apply hg op hop ih => exact ih.apply hg.coherent hop
  | addUsr hg id usr ih => exact ih.addUsr hg.coherent
  | ingest hg doc ih => exact ih.evolves hg.coherent (ingests_ingest doc)
  | run hg pass s ih => exact ih.evolves hg.coherent Pass.evolves_run

theorem Reachable.listsParameters (hg : g.Reachable) : g.ListsParameters := hg.built.listsParameters

end Graph

/-- Passes lead from graphs that are built to such graphs. -/
theorem reachable_runPasses {s : Settings} {g : Graph} {xs : List Pass} (hg : g.Reachable) :
    (runPasses s g xs).graph.Reachable :=
  runPasses_keeps (fun _ _ _ hk => hk.evolves Pass.evolves_run) hg

end Deadwood

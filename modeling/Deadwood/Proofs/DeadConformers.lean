/-
  Dispatch and the members of dead types.

  1. **The last step (`isUsed_markUsed_iff`)** — something is used because it is retained, because a
     reference that counts names it, or because it is the property of a used accessor.

  2. **What dispatch keeps (`survives_iff`)** — of the structural references that requirements make
     themselves, those stay that lead nowhere inside of something that nothing retains or names.
     So what only dispatch could keep alive is used exactly if such a reference of a used requirement
     names it, and never inside of something that nothing retains or names
     (`isUsed_markUsed_of_onlyKeptBy`).

  3. **Limits** — it is asked whether something names the enclosing type, and not whether this is used
     itself.  And a requirement is asked for what it lists, not for what is nested in that
     (`dispatch_keeps_members_of_unused_types`).
-/
import Deadwood.Proofs.DeadTrees

namespace Deadwood.Reachability

open Deadwood.Graph

variable {g : Graph} {c d : DeclId} {r : RefId} {named : Prop} {sort : RefId → Prop}

/-! ## The last step -/

/-- **Why something is found.**  It is retained, a reference outside of all declarations or of
something found names it, or it is the property of an accessor that is found. -/
theorem mem_reachable_iff (hg : g.Coherent named) (hc : g.hasDeclaration c = true) :
    c ∈ reachable g ↔ g.isRetained c = true ∨
      (∃ r, ((∃ d ∈ reachable g, r ∈ g.referencesFrom d) ∨
        ∃ q ∈ g.rootReferences.toList, g.Nests q r) ∧ g.Names r c) ∨
      ∃ a ∈ reachable g, ∃ x, g.declaration? a = some x ∧ x.kind.isAccessor = true ∧
        x.parent = some c := by
  have hclosed := closedUnderUse_reachable hg
  constructor
  · intro hfound
    obtain ⟨s, hs, hpath⟩ := mem_explore_iff.1 hfound
    cases hpath with
    | here _ =>
        rcases (mem_startingPoints hg.toIndexed).1 hs with hr | ⟨q, hq, r, hn, hr⟩
        · exact .inl hr
        · exact .inr (.inl ⟨r, .inr ⟨q, hq, hn⟩, hr⟩)
    | @step d _ hd hstep _ =>
        have hd : d ∈ reachable g := mem_explore_iff.2 ⟨s, hs, hd⟩
        rcases (mem_usedBy hg.toIndexed).1 hstep with ⟨r, hr, hn⟩ | hproperty
        · exact .inr (.inl ⟨r, .inl ⟨d, hd, hr⟩, hn⟩)
        · exact .inr (.inr ⟨d, hd, hproperty⟩)
  · rintro (hr | ⟨r, ⟨d, hd, hr⟩ | ⟨q, hq, hn⟩, hr'⟩ | ⟨a, ha, x, hx, hkind, hparent⟩)
    · exact hclosed.retained c hc hr
    · exact hclosed.uses d hd r hr c hr'
    · exact hclosed.outer q hq r hn c hr'
    · exact hclosed.property a ha x hx hkind c hparent

/-- `Counts g r`: something used makes the reference, or it belongs to one outside of all
declarations. -/
def Counts (g : Graph) (r : RefId) : Prop :=
  (∃ d, g.isUsed d = true ∧ r ∈ g.referencesFrom d) ∨ ∃ q ∈ g.rootReferences.toList, g.Nests q r

/-- `UsedAccessor g c a`: `a` is a used accessor of `c`. -/
def UsedAccessor (g : Graph) (c a : DeclId) : Prop :=
  g.isUsed a = true ∧ ∃ x, g.declaration? a = some x ∧ x.kind.isAccessor = true ∧ x.parent = some c

/-- **Why something is used.** -/
theorem isUsed_markUsed_iff (hg : g.Coherent named) (hnone : g.marks.used = ∅)
    (hc : g.hasDeclaration c = true) : (markUsed g).isUsed c = true ↔
      (markUsed g).isRetained c = true ∨ (∃ r, Counts (markUsed g) r ∧ (markUsed g).Names r c) ∨
        ∃ a, UsedAccessor (markUsed g) c a := by
  have hlive : (removeErroneous g).hasDeclaration c = true :=
    (hasDeclaration_removeErroneous hg.toOwned).trans hc
  have hretained : (markUsed g).isRetained c = (removeErroneous g).isRetained c :=
    (isRetained_markUsed hg).trans (isRetained_removeErroneous hg.toOwned).symm
  simp only [hretained, Counts, UsedAccessor, isUsed_markUsed_of_unmarked hg hnone]
  -- apart from its marks, the graph is the one that was searched
  have hfound := mem_reachable_iff (coherent_removeErroneous hg) hlive
  rw [markUsed_eq_marks]
  generalize removeErroneous g = k at hfound ⊢
  generalize (markUsed g).marks = m
  exact hfound

/-! ## What dispatch keeps -/

/-- `Dispatches g m r`: the requirement `m` makes the structural reference `r` itself. -/
def Dispatches (g : Graph) (m : DeclId) (r : RefId) : Prop :=
  g.isProtocolMember m = true ∧
    ∃ x, g.reference? r = some x ∧ x.isRelated = true ∧ x.owner = some (.declaration m)

/-- `InsideUnneeded g d`: something other than a protocol encloses `d` that is not retained and that
no reference names. -/
def InsideUnneeded (g : Graph) (d : DeclId) : Prop :=
  ∃ a ∈ g.ancestors d, ∃ x, g.declaration? a = some x ∧ x.kind ≠ .protocolType ∧
    g.isRetained a = false ∧ ∀ r, ¬ g.Names r a

theorem hasDeadAncestor_iff (hg : g.Owned) : hasDeadAncestor g d = true ↔ InsideUnneeded g d := by
  have hunnamed : ∀ a, g.isReferenced a = false ↔ ∀ r, ¬ g.Names r a := fun a => by
    rw [← Bool.not_eq_true, hg.isReferenced_iff, not_exists]
  simp only [hasDeadAncestor, List.any_eq_true, Bool.and_eq_true, Bool.not_eq_true', hunnamed,
    Option.any_eq_true, bne_iff_ne, InsideUnneeded]
  constructor
  · rintro ⟨a, ha, ⟨⟨x, hx, hkind⟩, hretained⟩, hnames⟩
    exact ⟨a, ha, x, hx, hkind, hretained, hnames⟩
  · rintro ⟨a, ha, x, hx, hkind, hretained, hnames⟩
    exact ⟨a, ha, ⟨⟨x, hx, hkind⟩, hretained⟩, hnames⟩

theorem Dispatches.mem_heldBy {m : DeclId} (hg : g.Owned) (hr : Dispatches g m r) :
    r ∈ g.heldBy m true := by
  obtain ⟨-, x, hx, hrelated, ho⟩ := hr
  exact (hg.held_iff m true r).2 ⟨x, hx, ho, hrelated⟩

/-- What a declaration makes itself is nested in nothing but itself. -/
theorem Dispatches.eq_of_nests {m : DeclId} {q : RefId} (hg : g.Owned) (hr : Dispatches g m r)
    (hn : g.Nests q r) : q = r := by
  obtain ⟨-, x, hx, -, ho⟩ := hr
  cases hn with
  | here _ => rfl
  | step _ hz _ =>
      have howner := (hg.nested_iff _ _).1 hz
      rw [ownerOf?_eq_some_iff.2 ⟨x, hx, ho⟩] at howner
      cases howner

/-- A structural reference that a requirement makes itself counts exactly if the requirement is
used. -/
theorem Dispatches.counts_iff {m : DeclId} (hg : g.Owned) (hr : Dispatches g m r) :
    Counts g r ↔ g.isUsed m = true := by
  obtain ⟨-, x, hx, -, ho⟩ := id hr
  constructor
  · rintro (⟨d, hd, hfrom⟩ | ⟨q, hq, hn⟩)
    · obtain ⟨b, q, hq, hn⟩ := mem_referencesFrom_iff.1 hfrom
      rw [hr.eq_of_nests hg hn] at hq
      obtain ⟨y, hy, ho', -⟩ := (hg.held_iff d b r).1 hq
      rw [hx] at hy
      cases hy
      rw [ho] at ho'
      cases ho'
      exact hd
    · rw [hr.eq_of_nests hg hn] at hq
      have hnone := ((hg.rootReference_iff r).1 hq).2
      rw [ownerOf?_eq_some_iff.2 ⟨x, hx, ho⟩] at hnone
      cases hnone
  · intro hm
    have hlive := mem_refIds.2 (hasReference_of_eq hx)
    exact .inl ⟨m, hm, mem_referencesFrom_iff.2 ⟨true, r, hr.mem_heldBy hg, .here hlive⟩⟩

theorem reference?_markUsed : (markUsed g).reference? r = (removeErroneous g).reference? r := by
  rw [markUsed_eq, reference?_markAll, withUses, reference?_markAll]

theorem hasReference_markUsed : (markUsed g).hasReference r = (removeErroneous g).hasReference r := by
  rw [hasReference, reference?_markUsed, hasReference]

theorem sparser_markUsed (hg : g.Coherent named) : Sparser (markUsed g) g where
  outline := (sameOutline_markUsed hg).symm
  bare r hr := by
    rw [hasReference_markUsed] at hr
    rw [reference?_markUsed]
    exact (pruned_removeErroneous hg.toOwned).sparser.bare r hr

/-- **What dispatch keeps**: what leads nowhere inside of something that nothing retains or names. -/
theorem dispatches_markUsed_iff {m : DeclId} (hg : g.Coherent named) :
    Dispatches (markUsed g) m r ↔
      Dispatches g m r ∧ ∀ d, g.Names r d → ¬ InsideUnneeded g d := by
  have P := pruned_removeErroneous hg.toOwned
  have hmember := (sameOutline_markUsed hg).isProtocolMember (d := m)
  have hlive_iff : (markUsed g).hasReference r = true ↔
      g.hasReference r = true ∧ r ∉ (erroneous g).flatMap g.referenceTree := by
    rw [hasReference_markUsed]
    exact P.hasReference_iff
  constructor
  · rintro ⟨hm, x, hx, hrelated, ho⟩
    obtain ⟨y, hy, hmention, howner⟩ := (sparser_markUsed hg).exists_reference hx
    rw [hmember] at hm
    rw [← hmention] at hrelated
    refine ⟨⟨hm, y, hy, hrelated, howner.trans ho⟩, fun d hd hdead => ?_⟩
    -- otherwise the reference would have gone
    have herroneous : r ∈ erroneous g := (mem_erroneous hg).2
      ⟨y, m, hy, howner.trans ho, hrelated, hm, d, hd, (hasDeadAncestor_iff hg.toOwned).2 hdead⟩
    obtain ⟨hlive, hstays⟩ := hlive_iff.1 (hasReference_of_eq hx)
    exact hstays (List.mem_flatMap.2 ⟨r, herroneous, mem_referenceTree.2 (.here (mem_refIds.2 hlive))⟩)
  · rintro ⟨hr, hneeded⟩
    have hstays : r ∉ (erroneous g).flatMap g.referenceTree := by
      intro hgone
      obtain ⟨q, hq, hmem⟩ := List.mem_flatMap.1 hgone
      rw [hr.eq_of_nests hg.toOwned (mem_referenceTree.1 hmem)] at hq
      obtain ⟨_, _, _, _, _, _, d, hd, hdead⟩ := (mem_erroneous hg).1 hq
      exact hneeded d hd ((hasDeadAncestor_iff hg.toOwned).1 hdead)
    obtain ⟨hm, x, hx, hrelated, ho⟩ := hr
    obtain ⟨y, hy⟩ := hasReference_iff.1 (hlive_iff.2 ⟨hasReference_of_eq hx, hstays⟩)
    obtain ⟨x', hx', hmention, howner⟩ := (sparser_markUsed hg).exists_reference hy
    rw [hx] at hx'
    cases hx'
    refine ⟨hmember.trans hm, y, hy, ?_, howner.symm.trans ho⟩
    rw [← hmention]
    exact hrelated

/-! ## Members of dead types -/

/-- `OnlyKeptBy g sort c`: nothing could keep `c` alive but references of one sort. -/
structure OnlyKeptBy (g : Graph) (sort : RefId → Prop) (c : DeclId) : Prop where
  unretained : g.isRetained c = false
  references : ∀ r, Counts g r → g.Names r c → sort r
  accessors : ∀ a, ¬ UsedAccessor g c a

/-- **Dispatch keeps no members of dead types.**  What only dispatch could keep alive is used exactly
if a used requirement makes a reference to it that leads nowhere inside of something that nothing
retains or names.  So it is unused if it is inside of such a thing itself. -/
theorem isUsed_markUsed_of_onlyKeptBy (hg : g.Built) (hnone : g.marks.used = ∅)
    (hc : (markUsed g).hasDeclaration c = true)
    (H : OnlyKeptBy (markUsed g) (fun r => ∃ m, Dispatches (markUsed g) m r) c) :
    ((markUsed g).isUsed c = true ↔ ∃ m r, (markUsed g).isUsed m = true ∧ Dispatches g m r ∧
      g.Names r c ∧ ∀ d, g.Names r d → ¬ InsideUnneeded g d) ∧
    (InsideUnneeded g c → (markUsed g).isUsed c = false) := by
  have hold := hg.coherent
  have hnew := coherent_markUsed hold
  have hsparser := sparser_markUsed hold
  have hlive : g.hasDeclaration c = true := by rw [← hasDeclaration_markUsed hold]; exact hc
  have hiff : (markUsed g).isUsed c = true ↔ ∃ m r, (markUsed g).isUsed m = true ∧
      Dispatches g m r ∧ g.Names r c ∧ ∀ d, g.Names r d → ¬ InsideUnneeded g d := by
    rw [isUsed_markUsed_iff hold hnone hlive]
    constructor
    · rintro (hr | ⟨r, hcounts, hr⟩ | ⟨a, ha⟩)
      · rw [H.unretained] at hr
        cases hr
      · obtain ⟨m, hm⟩ := H.references r hcounts hr
        obtain ⟨hdispatches, hneeded⟩ := (dispatches_markUsed_iff hold).1 hm
        exact ⟨m, r, (hm.counts_iff hnew.toOwned).1 hcounts, hdispatches, hsparser.names hr, hneeded⟩
      · exact absurd ha (H.accessors a)
    · rintro ⟨m, r, hm, hdispatches, hr, hneeded⟩
      have hstays := (dispatches_markUsed_iff hold).2 ⟨hdispatches, hneeded⟩
      obtain ⟨-, x, hx, -, -⟩ := id hstays
      exact .inr (.inl ⟨r, (hstays.counts_iff hnew.toOwned).2 hm,
        hsparser.names_of_live (hasReference_of_eq hx) hr⟩)
  refine ⟨hiff, fun hdead => ?_⟩
  rw [← Bool.not_eq_true, hiff]
  rintro ⟨m, r, -, -, hr, hneeded⟩
  exact hneeded c hr hdead

/-- What could keep something without children alive is in the list of references to it. -/
theorem onlyKeptBy_of_referencesTo (hg : g.Coherent named) (hretained : g.isRetained c = false)
    (hsort : ∀ r ∈ g.referencesTo c, sort r) (hchildren : g.childrenOf c = []) :
    OnlyKeptBy g sort c where
  unretained := hretained
  references r _ hr := hsort r (hg.mem_referencesTo.2 hr)
  accessors a := by
    rintro ⟨-, x, hx, -, hparent⟩
    have hchild := (hg.child_iff c a).2 (parentOf?_eq_some_iff.2 ⟨x, hx, hparent⟩)
    rw [hchildren] at hchild
    cases hchild

/-- A protocol whose requirement is called from outside and leads to a method of a type, with other
declarations. -/
def oneConformer (others : List DeclarationNode) : Graph :=
  let requirement : DeclarationNode :=
    { kind := .instanceMethod, usrs := ["P.f"], line := 2
      related := [{ kind := .instanceMethod, usr := "Dead.f", line := 2 }] }
  let doc : Document := { fragments := [
    { file := { path := ⟨"a.swift"⟩, modules := .singleton "App" }
      declarations := [
        { kind := .protocolType, usrs := ["P"], line := 1, declarations := [requirement] },
        { kind := .structType, usrs := ["Dead"], line := 4
          declarations := [{ kind := .instanceMethod, usrs := ["Dead.f"], line := 5 }] }] ++ others
      references := [{ kind := .instanceMethod, usr := "P.f", line := 20 }] }] }
  ((∅ : Graph).ingest doc).1

theorem built_oneConformer (others : List DeclarationNode) : (oneConformer others).Built :=
  Built.empty.ingest _

/-- The requirement is used, and nothing names the type. -/
theorem isUsed_markUsed_oneConformer : (markUsed (oneConformer [])).isUsed ⟨1⟩ = true ∧
    InsideUnneeded (oneConformer []) ⟨3⟩ ∧ (markUsed (oneConformer [])).isUsed ⟨3⟩ = false := by
  have hbuilt := built_oneConformer []
  have hdead : InsideUnneeded (oneConformer []) ⟨3⟩ :=
    (hasDeadAncestor_iff hbuilt.coherent.toOwned).1 (by decide +kernel)
  have H : OnlyKeptBy (markUsed (oneConformer []))
      (fun r => ∃ m, Dispatches (markUsed (oneConformer [])) m r) ⟨3⟩ := by
    refine onlyKeptBy_of_referencesTo (coherent_markUsed hbuilt.coherent) (by decide +kernel) ?_
      (by decide +kernel)
    intro r hr
    rw [show (markUsed (oneConformer [])).referencesTo ⟨3⟩ = [] by decide +kernel] at hr
    cases hr
  refine ⟨by decide +kernel, hdead, ?_⟩
  exact (isUsed_markUsed_of_onlyKeptBy hbuilt (by decide +kernel) (by decide +kernel) H).2 hdead

/-! ## Limits -/

/-- `DispatchesWithin g m r`: the requirement `m` makes the structural reference `r`, itself or nested
in another one. -/
def DispatchesWithin (g : Graph) (m : DeclId) (r : RefId) : Prop :=
  g.isProtocolMember m = true ∧ r ∈ g.referencesFrom m ∧
    ∃ x, g.reference? r = some x ∧ x.isRelated = true

/-- `KeptInside g sort a c`: after marking, `c` is used although `a` is not, which encloses it and is no
protocol, and although nothing but references of one sort could keep `c` alive. -/
structure KeptInside (g : Graph) (sort : Graph → DeclId → RefId → Prop) (a c : DeclId) : Prop where
  built : g.Built
  unmarked : g.marks.used = ∅
  live : (markUsed g).hasDeclaration c = true
  encloses : a ∈ (markUsed g).ancestors c
  kind : ((markUsed g).declaration? a).any (·.kind != .protocolType) = true
  unused : (markUsed g).isUsed a = false
  only : OnlyKeptBy (markUsed g) (fun r => ∃ m, sort (markUsed g) m r) c
  used : (markUsed g).isUsed c = true

/-- An unused function that names the type. -/
def unusedFunction : DeclarationNode :=
  { kind := .freeFunction, usrs := ["old"], line := 8
    references := [{ kind := .structType, usr := "Dead", line := 9 }] }

/-- A structural reference to the method, nested in an ordinary one of the requirement. -/
def nestedDispatch : Graph :=
  let spot (line : Nat) : Location := ⟨⟨"a.swift"⟩, line, 1⟩
  let add (kind : Kind) (usr : String) (line : Nat) (parent : Option DeclId) : Operation :=
    .addDeclaration { kind, usrs := .singleton usr, location := spot line } parent
  [ add .protocolType "P" 1 none, add .instanceMethod "P.f" 2 (some ⟨0⟩),
    add .structType "Dead" 4 none, add .instanceMethod "Dead.f" 5 (some ⟨2⟩),
    .addReference { kind := .instanceMethod, usr := "P.f", location := spot 20 } none,
    .addReference { kind := .typeAlias, usr := "T", location := spot 2 }
      (some (.declaration ⟨1⟩)),
    .addReference { kind := .instanceMethod, usr := "Dead.f", location := spot 2, isRelated := true }
      (some (.reference ⟨1⟩))
  ].foldl Operation.apply ∅

theorem dispatches_of_any {m : DeclId} (hm : g.isProtocolMember m = true)
    (hr : (g.reference? r).any (fun x => x.isRelated && x.owner == some (.declaration m)) = true) :
    Dispatches g m r := by
  obtain ⟨x, hx, hr⟩ := (Option.any_eq_true _ _).1 hr
  rw [Bool.and_eq_true, beq_iff_eq] at hr
  exact ⟨hm, x, hx, hr⟩

theorem keptInside_of_unusedFunction :
    KeptInside (oneConformer [unusedFunction]) Dispatches ⟨2⟩ ⟨3⟩ where
  built := built_oneConformer _
  unmarked := by decide +kernel
  live := by decide +kernel
  encloses := by decide +kernel
  kind := by decide +kernel
  unused := by decide +kernel
  only := by
    refine onlyKeptBy_of_referencesTo (coherent_markUsed (built_oneConformer _).coherent)
      (by decide +kernel) ?_ (by decide +kernel)
    intro r hr
    rw [show (markUsed (oneConformer [unusedFunction])).referencesTo ⟨3⟩ = [⟨0⟩] by decide +kernel,
      List.mem_singleton] at hr
    subst hr
    exact ⟨⟨1⟩, dispatches_of_any (by decide +kernel) (by decide +kernel)⟩
  used := by decide +kernel

theorem reachable_nestedDispatch : nestedDispatch.Reachable :=
  Reachable.empty.foldl_apply ⟨List.cons_ne_nil _ _, List.cons_ne_nil _ _, List.cons_ne_nil _ _,
    List.cons_ne_nil _ _, trivial, trivial, trivial, trivial⟩

theorem keptInside_nestedDispatch : KeptInside nestedDispatch DispatchesWithin ⟨2⟩ ⟨3⟩ where
  built := reachable_nestedDispatch.built
  unmarked := by decide +kernel
  live := by decide +kernel
  encloses := by decide +kernel
  kind := by decide +kernel
  unused := by decide +kernel
  only := by
    refine onlyKeptBy_of_referencesTo (coherent_markUsed reachable_nestedDispatch.built.coherent)
      (by decide +kernel) ?_ (by decide +kernel)
    intro r hr
    rw [show (markUsed nestedDispatch).referencesTo ⟨3⟩ = [⟨2⟩] by decide +kernel,
      List.mem_singleton] at hr
    subst hr
    exact ⟨⟨1⟩, by decide +kernel, by decide +kernel,
      (Option.any_eq_true _ _).1 (by decide +kernel)⟩
  used := by decide +kernel

/-- **Two ways into an unused type.**  An unused function may name the type; and where nothing names
it, the structural reference may be nested in another one. -/
theorem dispatch_keeps_members_of_unused_types :
    KeptInside (oneConformer [unusedFunction]) Dispatches ⟨2⟩ ⟨3⟩ ∧
    KeptInside nestedDispatch DispatchesWithin ⟨2⟩ ⟨3⟩ ∧ InsideUnneeded nestedDispatch ⟨3⟩ := by
  refine ⟨keptInside_of_unusedFunction, keptInside_nestedDispatch, ?_⟩
  exact (hasDeadAncestor_iff reachable_nestedDispatch.built.coherent.toOwned).1 (by decide +kernel)

end Deadwood.Reachability

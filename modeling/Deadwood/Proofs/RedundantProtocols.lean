/-
  Which protocols are redundant, and why they can be deleted.

  1. **`Needless`** — a protocol that is used, though nothing is used through it: no member, nothing
     in its extensions, and every reference to it is a conformance clause or its own.

  2. **What is recorded (`judged_iff`, `find?_markRedundant_eq_some_iff`)** — going through the protocols
     records each one that is needless, once, and ignores what goes with it.  It changes nothing that
     the verdict on the next one reads.

  3. **Why deleting is safe (`judgesProtocols_of_closed`)** — the search for what is used is closed: what
     a used declaration or a root refers to is used.  So nobody who matters refers to a member.

  4. **`JudgesProtocols`** — all of this after marking what is used and judging the protocols.
-/
import Deadwood.Proofs.Ownership
import Deadwood.Proofs.ReferenceForest
import Deadwood.Proofs.Reachability
import Deadwood.Proofs.Renaming.Hierarchy

namespace Deadwood

open Deadwood.Graph

variable {g h : Graph} {c d e p : DeclId} {r : RefId} {named : Prop}

namespace Graph

/-! ## Needless protocols -/

/-- `MemberOf g m p`: a declaration lists another one among its members. -/
def MemberOf (g : Graph) (m p : DeclId) : Prop :=
  ∃ x, g.declaration? p = some x ∧ m ∈ x.members.toList

/-- A reference to a protocol that says nothing about its use: the protocol makes it itself, or one of
its extensions names in it what it extends. -/
def IsOwnMention (g : Graph) (p : DeclId) (r : RefId) : Prop :=
  r ∈ g.referencesFrom p ∨
    (∃ x, g.reference? r = some x ∧ x.role = .extendedType) ∧
      ∃ e, g.ExtendsProtocol e p ∧ r ∈ g.referencesFrom e

/-- `InheritsProtocol g p r y`: in its inheritance clause, `p` refers to a protocol. -/
structure InheritsProtocol (g : Graph) (p : DeclId) (r : RefId) (y : Reference) : Prop where
  reference : g.reference? r = some y
  owner : y.owner = some (.declaration p)
  clause : isInheritance y = true
  kind : y.kind = .protocolType

/-- A protocol that is used, though nothing is used through it. -/
structure Needless (g : Graph) (p : DeclId) : Prop where
  isProtocol : ∃ x, g.declaration? p = some x ∧ x.kind = .protocolType
  used : g.isUsed p = true
  free : g.isRetained p = false
  /-- The protocols that it inherits are declared in the program. -/
  inherited : ∀ r y, g.InheritsProtocol p r y → ∃ d, g.Names r d
  members : ∀ m, g.MemberOf m p → g.isUsed m = false
  extensions : ∀ d, g.InExtensionOf d p → g.isUsed d = false
  /-- Other than in its own mentions, it is named where something conforms to it. -/
  mentions : ∀ r x, g.Names r p → ¬ g.IsOwnMention p r → g.reference? r = some x →
    x.isStructural = true

end Graph

namespace RedundantProtocols

/-! ## The verdict on one protocol -/

theorem mem_extensionMembers (hg : g.Indexed) :
    d ∈ extensionMembers g p ↔ g.InExtensionOf d p := by
  simp only [extensionMembers, List.mem_flatMap, hg.mem_protocolExtensions, mem_descendants,
    InExtensionOf]

theorem isOwnReference_iff (hg : g.Filed) : isOwnReference g p r = true ↔ g.IsOwnMention p r := by
  have hrole : (g.reference? r).any (·.role == .extendedType) = true ↔
      ∃ x, g.reference? r = some x ∧ x.role = .extendedType := by
    rw [Option.any_eq_true]
    simp only [beq_iff_eq]
  have hmaker : (g.referencingDeclaration? r).any (g.protocolExtensions p).contains = true ↔
      ∃ e, g.ExtendsProtocol e p ∧ r ∈ g.referencesFrom e := by
    rw [Option.any_eq_true]
    refine exists_congr fun e => ?_
    rw [hg.toOwned.referencingDeclaration?_eq_some_iff, List.contains_iff_mem,
      hg.toIndexed.mem_protocolExtensions, and_comm]
  rw [isOwnReference, Bool.or_eq_true, Bool.and_eq_true, beq_iff_eq, hrole, hmaker,
    hg.toOwned.referencingDeclaration?_eq_some_iff]
  rfl

/-- The references to a protocol that are not its own. -/
theorem mem_foreign (hg : g.Filed) :
    r ∈ (g.referencesTo p).filter (fun r => !isOwnReference g p r) ↔
      g.Names r p ∧ ¬ g.IsOwnMention p r := by
  rw [List.mem_filter, hg.toOwned.mem_referencesTo, Bool.not_eq_true', ← Bool.not_eq_true,
    isOwnReference_iff hg]

theorem conformances?_eq_some_iff (hg : g.Filed) {references : SortedSet RefId} :
    conformances? g p = some references ↔
      (∀ r x, g.Names r p → ¬ g.IsOwnMention p r → g.reference? r = some x →
        x.isStructural = true) ∧
      ∀ r, r ∈ references.toList ↔ g.Names r p ∧ ¬ g.IsOwnMention p r := by
  have hall : ((g.referencesTo p).filter fun r => !isOwnReference g p r).all
        (fun r => (g.reference? r).any (·.isStructural)) = true ↔
      ∀ r x, g.Names r p → ¬ g.IsOwnMention p r → g.reference? r = some x →
        x.isStructural = true := by
    rw [List.all_eq_true]
    simp only [mem_foreign hg]
    constructor
    · intro H r x hn hown hx
      have hany := H r ⟨hn, hown⟩
      rwa [hx, Option.any_some] at hany
    · rintro H r ⟨hn, hown⟩
      obtain ⟨x, -, hx, -⟩ := id hn
      rw [hx, Option.any_some]
      exact H r x hn hown hx
  unfold conformances?
  simp only [hall, Option.ite_none_right_eq_some, Option.some.injEq]
  refine and_congr_right fun _ => ⟨?_, fun hmem => ?_⟩
  · rintro rfl r
    rw [SortedSet.mem_ofList, mem_foreign hg]
  · refine SortedSet.eq_of_mem_iff fun r => ?_
    rw [SortedSet.mem_ofList, mem_foreign hg, hmem]

theorem mem_inheritedProtocols (hg : g.Owned) :
    r ∈ inheritedProtocols g p ↔ ∃ y, g.InheritsProtocol p r y := by
  rw [inheritedProtocols, List.mem_filter, Option.any_eq_true]
  simp only [beq_iff_eq]
  constructor
  · rintro ⟨hmem, y, hy, hk⟩
    obtain ⟨ho, hclause⟩ := (mem_inheritedTypeReferences hg hy).1 hmem
    exact ⟨y, hy, ho, hclause, hk⟩
  · rintro ⟨y, hy, ho, hclause, hk⟩
    exact ⟨(mem_inheritedTypeReferences hg hy).2 ⟨ho, hclause⟩, y, hy, hk⟩

/-- The inheritance clause names nothing outside of the program. -/
theorem no_isForeign_iff (hg : g.Filed) : (∀ r ∈ inheritedProtocols g p, isForeign g r = false) ↔
    ∀ r y, g.InheritsProtocol p r y → ∃ d, g.Names r d := by
  have hone : ∀ r y, g.InheritsProtocol p r y → (isForeign g r = false ↔ ∃ d, g.Names r d) := by
    intro r y hy
    rw [isForeign, hy.reference, Option.any_some, List.isEmpty_eq_false_iff_exists_mem]
    refine exists_congr fun d => ?_
    rw [hg.mem_declarationsWithUsr, Names, hy.reference]
    simp
  constructor
  · intro H r y hy
    exact (hone r y hy).1 (H r ((mem_inheritedProtocols hg.toOwned).2 ⟨y, hy⟩))
  · intro H r hr
    obtain ⟨y, hy⟩ := (mem_inheritedProtocols hg.toOwned).1 hr
    exact (hone r y hy).2 (H r y hy)

/-- What shows that a protocol is redundant: the clauses that name it, and its own clause. -/
structure ShownBy (g : Graph) (p : DeclId) (result : RedundantProtocol) : Prop where
  references : ∀ r, r ∈ result.references.toList ↔ g.Names r p ∧ ¬ g.IsOwnMention p r
  inherited : ∀ r, r ∈ result.inherited.toList ↔ ∃ y, g.InheritsProtocol p r y

theorem exists_shownBy (hg : g.Filed) : ∃ result, ShownBy g p result := by
  refine ⟨⟨.ofList ((g.referencesTo p).filter fun r => !isOwnReference g p r),
    .ofList (inheritedProtocols g p)⟩, fun r => ?_, fun r => ?_⟩
  · rw [SortedSet.mem_ofList, mem_foreign hg]
  · rw [SortedSet.mem_ofList, mem_inheritedProtocols hg.toOwned]

/-- **The verdict on a protocol**: it is needless, and the result says what shows it. -/
theorem judged_iff (hg : g.Filed) {result : RedundantProtocol} :
    p ∈ g.declarationsOfKind .protocolType ∧ evaluate g p = some result ↔
      g.Needless p ∧ ShownBy g p result := by
  rw [declarationsOfKind, hg.mem_declarationsOfKinds]
  simp only [List.mem_singleton, evaluate, Option.bind_eq_bind, Option.bind_eq_some_iff, bind_guard,
    Option.ite_none_right_eq_some, Option.pure_def, Option.some.injEq, Bool.and_eq_true,
    Bool.not_eq_true', List.any_eq_false, no_isForeign_iff hg, mem_extensionMembers hg.toIndexed,
    conformances?_eq_some_iff hg, Bool.not_eq_true]
  have hinherited : ∀ r, r ∈ (SortedSet.ofList (inheritedProtocols g p)).toList ↔
      ∃ y, g.InheritsProtocol p r y := fun r => by
    rw [SortedSet.mem_ofList, mem_inheritedProtocols hg.toOwned]
  constructor
  · rintro ⟨hkind, x, hx, ⟨hused, hfree⟩, hforeign, hmembers, hext, references, ⟨hmentions, hmem⟩, rfl⟩
    refine ⟨⟨hkind, hused, hfree, hforeign, ?_, hext, hmentions⟩, hmem, hinherited⟩
    rintro m ⟨x', hx', hm⟩
    rw [hx] at hx'
    cases hx'
    exact hmembers m hm
  · rintro ⟨hp, hshown⟩
    obtain ⟨x, hx, hk⟩ := hp.isProtocol
    refine ⟨⟨x, hx, hk⟩, x, hx, ⟨hp.used, hp.free⟩, hp.inherited, fun m hm => hp.members m ⟨x, hx, hm⟩,
      hp.extensions, result.references, ⟨hp.mentions, hshown.references⟩, ?_⟩
    have hsame : SortedSet.ofList (inheritedProtocols g p) = result.inherited :=
      SortedSet.eq_of_mem_iff fun r => (hinherited r).trans (hshown.inherited r).symm
    rw [hsame]

/-! ## What goes with it -/

/-- `Implements g d p`: a structural reference of a member of `p` names `d`. -/
def Implements (g : Graph) (d p : DeclId) : Prop :=
  ∃ m r, g.MemberOf m p ∧ r ∈ g.heldBy m true ∧ g.Names r d

/-- What is ignored because of a redundant protocol: what is nested in it and in its extensions, and
what implements its members and is not used. -/
def GoesWith (g : Graph) (d p : DeclId) : Prop :=
  (g.Encloses p d ∧ d ≠ p) ∨ g.InExtensionOf d p ∨ Implements g d p ∧ g.isUsed d = false

theorem mem_idleImplementations (hg : g.Indexed) :
    d ∈ idleImplementations g p ↔ Implements g d p ∧ g.isUsed d = false := by
  have hmember : ∀ m, m ∈ ((g.declaration? p).map (·.members.toList)).getD [] ↔ g.MemberOf m p :=
    fun m => by cases hx : g.declaration? p <;> simp [MemberOf, hx]
  have hrelated : ∀ m, ((g.declaration? m).map (·.related.toList)).getD [] = g.heldBy m true :=
    fun _ => rfl
  simp only [idleImplementations, List.mem_filter, Bool.not_eq_true', List.mem_flatMap,
    List.mem_filterMap, hg.mem_declarationsWithUsr, hmember, hrelated, Option.map_eq_some_iff]
  refine and_congr_left fun _ => ?_
  constructor
  · rintro ⟨usr, ⟨r, ⟨m, hm, hr⟩, x, hx, rfl⟩, y, hy, hu⟩
    exact ⟨m, r, hm, hr, x, y, hx, hy, hu⟩
  · rintro ⟨m, r, hm, hr, x, y, hx, hy, hu⟩
    exact ⟨x.usr, ⟨r, ⟨m, hm, hr⟩, x, hx, rfl⟩, y, hy, hu⟩

theorem mem_suppressed (hg : g.Indexed) : d ∈ suppressed g p ↔ GoesWith g d p := by
  rw [suppressed, List.mem_append, List.mem_append, mem_descendants, mem_extensionMembers hg,
    mem_idleImplementations hg, or_assoc]
  rfl

theorem GoesWith.live (hd : GoesWith g d p) : g.hasDeclaration d = true := by
  obtain ⟨hdown, -⟩ | ⟨e, -, hdown, -⟩ | ⟨⟨m, r, -, -, hn⟩, -⟩ := hd
  · exact mem_declIds.1 hdown.mem_right
  · exact mem_declIds.1 hdown.mem_right
  · exact Reachability.Names.live hn

/-! ## Going through the protocols -/

/-- Record a redundant protocol, and ignore what goes with it. -/
def recordOne (g : Graph) (f : DeclId × RedundantProtocol × List DeclId) : Graph :=
  (g.recordRedundantProtocol f.1 f.2.1).markAll .ignored f.2.2

theorem markRedundant_eq_foldl : markRedundant g = (found g).foldl recordOne g := rfl

/-- Only marks and the record of redundant protocols change. -/
theorem foldl_recordOne_eq {fs : List (DeclId × RedundantProtocol × List DeclId)} :
    fs.foldl recordOne g = { g with
      marks := (fs.foldl recordOne g).marks
      redundantProtocols := (fs.foldl recordOne g).redundantProtocols } := by
  refine List.foldlRecOn (motive := fun k : Graph => k =
    { g with marks := k.marks, redundantProtocols := k.redundantProtocols }) _ _ rfl fun k hk f _ => ?_
  rw [recordOne, markAll_eq, recordRedundantProtocol, hk]

theorem find?_recordOne {f : DeclId × RedundantProtocol × List DeclId} :
    (recordOne g f).redundantProtocols.find? p =
      if p = f.1 then some f.2.1 else g.redundantProtocols.find? p := by
  rw [recordOne, markAll_eq]
  exact SortedMap.find?_insert

/-- In the end stands the verdict on each protocol of the list, and otherwise what stood before. -/
theorem find?_foldl_recordOne {verdict : DeclId → Option RedundantProtocol}
    {goes : DeclId → List DeclId} {ps : List DeclId} :
    ((ps.filterMap fun q => (verdict q).map fun v => (q, v, goes q)).foldl recordOne
        g).redundantProtocols.find? p =
      (if p ∈ ps then verdict p else none).or (g.redundantProtocols.find? p) := by
  induction ps generalizing g with
  | nil => simp
  | cons q ps ih =>
      cases hv : verdict q with
      | none =>
          rw [List.filterMap_cons_none (by rw [hv]; rfl), ih]
          by_cases hp : p = q
          · subst hp
            simp [hv]
          · simp [hp]
      | some v =>
          rw [List.filterMap_cons_some (by rw [hv]; rfl), List.foldl_cons, ih, find?_recordOne]
          by_cases hp : p = q
          · subst hp
            by_cases hagain : p ∈ ps <;> simp [hv, hagain]
          · simp [hp]

/-- What is ignored in the end: what was, and what goes with anything in the list. -/
theorem mem_marks_foldl_recordOne {fs : List (DeclId × RedundantProtocol × List DeclId)} {mark : Mark} :
    d ∈ ((fs.foldl recordOne g).marks.of mark).toList ↔
      (.ignored = mark ∧ (∃ f ∈ fs, d ∈ f.2.2) ∧ g.hasDeclaration d = true) ∨
        d ∈ (g.marks.of mark).toList := by
  induction fs generalizing g with
  | nil => simp
  | cons f fs ih =>
      have hlive : (recordOne g f).hasDeclaration d = g.hasDeclaration d := by
        rw [recordOne, hasDeclaration, declaration?_markAll]
        rfl
      have hone : d ∈ ((recordOne g f).marks.of mark).toList ↔
          (.ignored = mark ∧ d ∈ f.2.2 ∧ g.hasDeclaration d = true) ∨
            d ∈ (g.marks.of mark).toList := mem_marks_markAll
      rw [List.foldl_cons, ih, hlive, hone]
      rw [← or_assoc, List.exists_mem_cons_iff, or_and_right, and_or_left]
      exact or_congr_left or_comm

/-! ## The pass -/

/-- A graph with another record of redundant protocols, and with other declarations ignored. -/
def withVerdicts (g : Graph) (ignored : SortedSet DeclId)
    (protocols : SortedMap DeclId RedundantProtocol) : Graph :=
  { g with marks := { g.marks with ignored }, redundantProtocols := protocols }

/-- Judging protocols changes the record and what is ignored. -/
theorem markRedundant_eq : markRedundant g =
    withVerdicts g (markRedundant g).marks.ignored (markRedundant g).redundantProtocols := by
  have hmark : ∀ mark, mark ≠ .ignored → (markRedundant g).marks.of mark = g.marks.of mark := by
    intro mark hne
    refine SortedSet.eq_of_mem_iff fun d => ?_
    rw [markRedundant_eq_foldl, mem_marks_foldl_recordOne]
    exact or_iff_right fun hput => hne hput.1.symm
  have hmarks : (markRedundant g).marks =
      { g.marks with ignored := (markRedundant g).marks.ignored } := by
    have hretained := hmark .retained (by simp)
    have hused := hmark .used (by simp)
    have hassign := hmark .assignOnly (by simp)
    generalize (markRedundant g).marks = m at hretained hused hassign
    cases m
    simp_all [Marks.of]
  rw [withVerdicts, ← hmarks]
  exact foldl_recordOne_eq

/-- What is recorded as redundant, and what shows it. -/
theorem find?_markRedundant_eq_some_iff (hg : g.Filed) (hnone : g.redundantProtocols = ∅)
    {result : RedundantProtocol} : (markRedundant g).redundantProtocols.find? p = some result ↔
      g.Needless p ∧ ShownBy g p result := by
  rw [← judged_iff hg, markRedundant_eq_foldl, found, find?_foldl_recordOne, hnone]
  by_cases hp : p ∈ g.declarationsOfKind .protocolType <;> simp [hp]

theorem isIgnored_markRedundant_iff (hg : g.Filed) : (markRedundant g).isIgnored d = true ↔
    g.isIgnored d = true ∨ ∃ p, g.Needless p ∧ GoesWith g d p := by
  have hfound : (∃ f ∈ found g, d ∈ f.2.2) ↔ ∃ p, g.Needless p ∧ GoesWith g d p := by
    simp only [found, List.mem_filterMap, Option.map_eq_some_iff]
    constructor
    · rintro ⟨f, ⟨p, hp, result, hv, rfl⟩, hd⟩
      exact ⟨p, ((judged_iff hg).1 ⟨hp, hv⟩).1, (mem_suppressed hg.toIndexed).1 hd⟩
    · rintro ⟨p, hp, hd⟩
      obtain ⟨result, hshown⟩ := exists_shownBy hg (p := p)
      obtain ⟨hmem, hv⟩ := (judged_iff hg).2 ⟨hp, hshown⟩
      exact ⟨_, ⟨p, hmem, result, hv, rfl⟩, (mem_suppressed hg.toIndexed).2 hd⟩
  have hlive : (∃ p, g.Needless p ∧ GoesWith g d p) → g.hasDeclaration d = true :=
    fun ⟨_, _, hd⟩ => hd.live
  rw [isIgnored, isMarked_iff, markRedundant_eq_foldl, mem_marks_foldl_recordOne, hfound,
    and_iff_left_of_imp hlive, isIgnored, isMarked_iff, or_comm]
  exact or_congr_right (and_iff_right rfl)

/-! ## What the verdict reads -/

section Verdicts

variable {ignored : SortedSet DeclId} {protocols : SortedMap DeclId RedundantProtocol}

theorem inheritsProtocol_withVerdicts {y : Reference} :
    (withVerdicts g ignored protocols).InheritsProtocol p r y ↔ g.InheritsProtocol p r y :=
  ⟨fun H => ⟨H.reference, H.owner, H.clause, H.kind⟩, fun H => ⟨H.reference, H.owner, H.clause, H.kind⟩⟩

/-- Whether a protocol is needless depends neither on the record nor on what is ignored. -/
theorem needless_withVerdicts : (withVerdicts g ignored protocols).Needless p ↔ g.Needless p := by
  constructor
  · intro H
    exact ⟨H.isProtocol, H.used, H.free,
      fun r y hy => H.inherited r y (inheritsProtocol_withVerdicts.2 hy), H.members, H.extensions,
      H.mentions⟩
  · intro H
    exact ⟨H.isProtocol, H.used, H.free,
      fun r y hy => H.inherited r y (inheritsProtocol_withVerdicts.1 hy), H.members, H.extensions,
      H.mentions⟩

theorem ShownBy.withVerdicts {result : RedundantProtocol} (H : ShownBy g p result) :
    ShownBy (withVerdicts g ignored protocols) p result where
  references := H.references
  inherited r := (H.inherited r).trans (exists_congr fun _ => inheritsProtocol_withVerdicts.symm)

end Verdicts

/-! ## Nobody who matters refers to a member -/

/-- `PartOf g d p`: a direct member of a protocol, or nested in one of its extensions. -/
def PartOf (g : Graph) (d p : DeclId) : Prop := g.MemberOf d p ∨ g.InExtensionOf d p

theorem isUsed_of_partOf (hp : g.Needless p) (hd : PartOf g d p) : g.isUsed d = false :=
  hd.elim (hp.members d) (hp.extensions d)

/-- What the two passes say of protocols: `k` is the graph in which what is used has been marked, and
`h` the one in which protocols have been judged as well. -/
structure JudgesProtocols (k h : Graph) : Prop where
  /-- A protocol is recorded exactly if it is needless. -/
  recorded_iff : ∀ p, (∃ result, h.redundantProtocols.find? p = some result) ↔ h.Needless p
  /-- What is recorded of it shows that. -/
  shown : ∀ p result, h.redundantProtocols.find? p = some result → ShownBy h p result
  /-- No used declaration refers to a part of a recorded protocol. -/
  unused : ∀ p result, h.redundantProtocols.find? p = some result → ∀ d, PartOf h d p →
    ∀ u, h.isUsed u = true → ∀ r ∈ h.referencesFrom u, ¬ h.Names r d
  /-- No root reference does, nor anything nested in one. -/
  unrooted : ∀ p result, h.redundantProtocols.find? p = some result → ∀ d, PartOf h d p →
    ∀ q ∈ h.rootReferences.toList, ∀ r ∈ h.referenceTree q, ¬ h.Names r d
  /-- What goes with a recorded protocol is ignored, and nothing else that was not ignored before. -/
  ignored_iff : ∀ d, h.isIgnored d = true ↔
    k.isIgnored d = true ∨ ∃ p result, h.redundantProtocols.find? p = some result ∧ GoesWith h d p

/-- Judging protocols after a search that is closed: what is recorded is not referred to. -/
theorem judgesProtocols_of_closed (hg : g.Filed) (hnone : g.redundantProtocols = ∅)
    (hclosed : Reachability.ClosedUnderUse g {d | g.isUsed d = true}) :
    JudgesProtocols g (markRedundant g) := by
  have hfind : ∀ {p result}, (markRedundant g).redundantProtocols.find? p = some result ↔
      g.Needless p ∧ ShownBy g p result := find?_markRedundant_eq_some_iff hg hnone
  have hignored : ∀ {d}, (markRedundant g).isIgnored d = true ↔
      g.isIgnored d = true ∨ ∃ p, g.Needless p ∧ GoesWith g d p := isIgnored_markRedundant_iff hg
  -- apart from its verdicts, the judged graph is the one before
  rw [markRedundant_eq] at hfind hignored ⊢
  generalize (markRedundant g).marks.ignored = ignored at hfind hignored ⊢
  generalize (markRedundant g).redundantProtocols = protocols at hfind hignored ⊢
  have hrecorded : ∀ p, (∃ result, (withVerdicts g ignored protocols).redundantProtocols.find? p =
      some result) ↔ g.Needless p := by
    intro p
    simp only [hfind, exists_and_left]
    exact and_iff_left (exists_shownBy hg)
  refine ⟨fun p => ?_, fun p result hp => ?_, fun p result hp d hd u hu r hr hn => ?_,
    fun p result hp d hd q hq r hr hn => ?_, fun d => ?_⟩
  · rw [hrecorded, needless_withVerdicts]
  · exact (hfind.1 hp).2.withVerdicts
  · have hused : g.isUsed d = true := hclosed.uses u hu r hr d hn
    rw [isUsed_of_partOf (hfind.1 hp).1 hd] at hused
    cases hused
  · have hused : g.isUsed d = true := hclosed.outer q hq r (mem_referenceTree.1 hr) d hn
    rw [isUsed_of_partOf (hfind.1 hp).1 hd] at hused
    cases hused
  · rw [hignored]
    refine or_congr_right (exists_congr fun p => ?_)
    rw [exists_and_right, hrecorded]
    rfl

end RedundantProtocols

open RedundantProtocols Reachability

/-- **A redundant protocol can be deleted without touching live code.** -/
theorem judgesProtocols_of_built (hg : g.Built) (hused : g.marks.used = ∅)
    (hnone : g.redundantProtocols = ∅) :
    JudgesProtocols (markUsed g) (markRedundant (markUsed g)) := by
  have hk : (markUsed g).Coherent False := coherent_markUsed hg.coherent
  have hrecord : (markUsed g).redundantProtocols = ∅ := by
    rw [markUsed_eq_marks]
    exact (congrArg Notes.redundantProtocols
      (pruned_removeErroneous hg.coherent.toOwned).notes).trans hnone
  have hset : {d | (markUsed g).isUsed d = true} = {d | d ∈ reachable (removeErroneous g)} :=
    Set.ext fun d => isUsed_markUsed_of_unmarked hg.coherent hused
  refine judgesProtocols_of_closed ⟨hk.toIndexed, hk.toOwned⟩ hrecord ?_
  rw [hset]
  exact closedUnderUse_markUsed hg.coherent

/-- A class conforms to a protocol with a requirement and an extension; only the class is referred to
otherwise. -/
def conformedToOnly : Graph :=
  let spot (line : Nat) : Location := ⟨⟨"a.swift"⟩, line, 1⟩
  let symbol (kind : Kind) (usr : String) (line : Nat) : Symbol :=
    { kind, usrs := .singleton usr, location := spot line }
  let ops : List Operation := [
    .addDeclaration (symbol .protocolType "P" 1) none,
    .addDeclaration (symbol .instanceMethod "P.f" 2) (some ⟨0⟩),
    .addDeclaration (symbol .classType "C" 5) none,
    .addDeclaration (symbol .instanceMethod "C.f" 6) (some ⟨2⟩),
    .addDeclaration (symbol .protocolExtension "P+" 9) none,
    .addDeclaration (symbol .instanceMethod "P+.g" 10) (some ⟨4⟩),
    .addReference { kind := .protocolType, usr := "P", location := spot 5, role := .inheritedType }
      (some (.declaration ⟨2⟩)),
    .addReference { kind := .instanceMethod, usr := "C.f", location := spot 2, isRelated := true }
      (some (.declaration ⟨1⟩)),
    .addReference { kind := .protocolType, usr := "P", location := spot 9, role := .extendedType }
      (some (.declaration ⟨4⟩)),
    .addReference { kind := .classType, usr := "C", location := spot 20 } none]
  ops.foldl Operation.apply ∅

theorem judgesProtocols_of_built_conformedToOnly :
    JudgesProtocols (markUsed conformedToOnly) (markRedundant (markUsed conformedToOnly)) ∧
      (markUsed conformedToOnly).marks.used.toList = [⟨0⟩, ⟨2⟩] ∧
      (markRedundant (markUsed conformedToOnly)).redundantProtocols.find? ⟨0⟩ =
        some ⟨.singleton ⟨0⟩, ∅⟩ ∧
      (markRedundant (markUsed conformedToOnly)).marks.ignored.toList = [⟨1⟩, ⟨3⟩, ⟨5⟩] := by
  have hreachable : conformedToOnly.Reachable :=
    Reachable.empty.foldl_apply ⟨List.cons_ne_nil _ _, List.cons_ne_nil _ _, List.cons_ne_nil _ _,
      List.cons_ne_nil _ _, List.cons_ne_nil _ _, List.cons_ne_nil _ _, trivial, trivial, trivial,
      trivial, trivial⟩
  exact ⟨judgesProtocols_of_built hreachable.built rfl rfl, by decide +kernel⟩

end Deadwood

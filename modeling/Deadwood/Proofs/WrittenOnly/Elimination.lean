/-
  What goes with the properties that are only written.

  1. **The verdict (`WrittenOnly`)** — a plain stored property that some reference writes, where no
     reference reads it.

  2. **Turns (`struck`)** — properties are judged one after the other, each in the graph that the
     earlier ones left.  So what is found depends on the order: a property that is read only in the
     expression assigned to another one is found where the other one comes first.

  3. **What goes (`pared_foldl_eliminateOne`)** — the writes to the properties that are found, with all
     that is nested in them, as they were before the first turn: earlier turns only take away what
     went already.

  4. **More than writes** — what is nested in a write is part of the expression that is assigned.  So an
     identifier used nowhere else is not used any more (`not_keeps_session`), and only writes go where
     nothing but writes is nested in writes (`RemovesWrites.exact`).
-/
import Deadwood.Proofs.Filing
import Deadwood.Proofs.Retaining.Leaner

namespace Deadwood

open Deadwood.Graph

namespace Graph

variable {g h k : Graph} {d : DeclId} {r : RefId} {gone more : List RefId}

/-- `h` is `g` without some references, and with marks of its own. -/
def Pared (gone : List RefId) (g h : Graph) : Prop := Pruned gone { g with marks := h.marks } h

namespace Pared

theorem refl : Pared [] g g := Pruned.refl

/-- Marks may be put in addition. -/
theorem marked {m : Marks} (P : Pared gone g h) : Pared gone g { h with marks := m } where
  reference := P.reference
  rootReferences := P.rootReferences
  uses := P.uses
  references_size := P.references_size
  declarations_size := P.declarations_size
  declaration := P.declaration
  roots := P.roots
  byUsr := P.byUsr
  byKind := P.byKind
  notes := congrArg (fun n : Notes => { n with marks := m }) P.notes

theorem of_pruned (P : Pruned gone g h) : Pared gone g h := by
  have hmarks : h.marks = g.marks := congrArg Notes.marks P.notes
  rw [Pared, hmarks]
  exact P

theorem mark {mk : Mark} (P : Pared gone g h) : Pared gone g (h.mark mk d) := by
  unfold Graph.mark
  split
  · exact P.marked
  · exact P

theorem trimmed (P : Pared gone g h) : Trimmed gone g h where
  reference := P.reference
  rootReferences := P.rootReferences
  uses := P.uses
  references_size := P.references_size
  declarations_size := P.declarations_size

theorem sparser (P : Pared gone g h) : Sparser h g where
  outline := P.sameOutline.symm
  bare _ hr := (P.trimmed.bare (P.trimmed.hasReference_iff.1 hr).2).symm

theorem mem_heldBy_iff {b : Bool} (P : Pared gone g h) :
    r ∈ h.heldBy d b ↔ r ∈ g.heldBy d b ∧ r ∉ gone :=
  Pruned.mem_heldBy_iff (g := { g with marks := h.marks }) P

theorem owned (P : Pared gone g h) (hg : g.Owned) (hc : g.ClosedUnderNesting gone) : h.Owned :=
  P.trimmed.owned hg hc fun _ _ _ => P.mem_heldBy_iff

theorem trans (P : Pared gone g h) (Q : Pared more h k) : Pared (gone ++ more) g k :=
  Pruned.trans (P.marked (m := k.marks)) Q

/-- Only the live references of the list count. -/
theorem congr (hg : g.Listed) (P : Pared gone g h)
    (hm : ∀ r, g.hasReference r = true → (r ∈ gone ↔ r ∈ more)) : Pared more g h :=
  Pruned.congr (g := { g with marks := h.marks }) ⟨hg.held, hg.nested, hg.root, hg.uses⟩ P hm

/-- Who makes a reference that stays. -/
theorem referencingDeclaration? (P : Pared gone g h) (hg : g.Owned)
    (hc : g.ClosedUnderNesting gone) (hr : h.hasReference r = true) :
    h.referencingDeclaration? r = g.referencingDeclaration? r :=
  referencingDeclaration?_congr (P := fun q => q ∉ gone) hg (P.owned hg hc)
    (fun _ hq => P.trimmed.ownerOf? hq) (fun q o hq ho hgone => hq (hc o q ho hgone))
    (P.trimmed.hasReference_iff.1 hr).2

end Pared

end Graph

namespace AssignOnly

variable {g h k : Graph} {a c d p : DeclId} {r w : RefId} {mark : Mark} {ds ps : List DeclId}
  {s : Settings}

/-! ## The verdict -/

/-- A member of a declaration that is there. -/
def HasMember (g : Graph) (p a : DeclId) : Prop :=
  ∃ x y, g.declaration? p = some x ∧ a ∈ x.members.toList ∧ g.declaration? a = some y

/-- A member that is a setter. -/
def SetterOf (g : Graph) (p a : DeclId) : Prop :=
  HasMember g p a ∧ (g.declaration? a).any (·.kind == .setter) = true

/-- A reference writes a property: it names a setter of it. -/
def Writes (g : Graph) (r : RefId) (p : DeclId) : Prop := ∃ a, SetterOf g p a ∧ g.Names r a

/-- A property with nothing about it that its uses do not tell, which some reference writes and none
reads. -/
structure WrittenOnly (g : Graph) (p : DeclId) : Prop where
  plain : ∃ x, g.declaration? p = some x ∧ x.kind.isProperty = true ∧ x.attributes.isEmpty = true ∧
    x.isOverride = false ∧ x.related.isEmpty = true
  free : g.isRetained p = false
  outside : g.isProtocolMember p = false
  /-- Its accessors come from the compiler. -/
  stored : ∀ a, HasMember g p a → (g.declaration? a).any (fun y => y.kind.isAccessor && !y.isImplicit) =
    false
  unread : ∀ r, ¬ g.Names r p
  unread_members : ∀ a, HasMember g p a → ¬ SetterOf g p a → ∀ r, ¬ g.Names r a
  written : ∃ r, Writes g r p

theorem mem_accessorsOf {setters : Bool} : a ∈ accessorsOf g p setters ↔
    HasMember g p a ∧ (SetterOf g p a ↔ setters = true) := by
  unfold accessorsOf HasMember SetterOf HasMember
  cases hx : g.declaration? p with
  | none => simp
  | some x => cases hy : g.declaration? a <;> cases setters <;> simp_all

theorem mem_writes_iff_writes (hg : g.Owned) : r ∈ writes g p ↔ Writes g r p := by
  simp only [mem_writes_iff hg, mem_accessorsOf, iff_true, Writes, SetterOf, and_self_left]

theorem mem_reads_iff (hg : g.Owned) : r ∈ reads g p ↔
    g.Names r p ∨ ∃ a, HasMember g p a ∧ ¬ SetterOf g p a ∧ g.Names r a := by
  simp only [reads, List.mem_append, List.mem_flatMap, hg.mem_referencesTo, mem_accessorsOf,
    Bool.false_eq_true, iff_false, and_assoc]

/-- The verdict, as it is computed. -/
def isWrittenOnly (g : Graph) (p : DeclId) : Bool :=
  isCandidate g p && (reads g p).isEmpty && !(writes g p).isEmpty

theorem eliminateOne_of_writtenOnly (hp : isWrittenOnly g p = true) :
    eliminateOne g p = ((writes g p).foldl Graph.removeReference g).mark .assignOnly p := if_pos hp

theorem eliminateOne_of_not (hp : isWrittenOnly g p = false) : eliminateOne g p = g :=
  if_neg (Bool.eq_false_iff.1 hp)

theorem hasWrittenAccessor_eq_false_iff {x : Declaration} (hx : g.declaration? p = some x) :
    hasWrittenAccessor g x = false ↔ ∀ a, HasMember g p a →
      (g.declaration? a).any (fun y => y.kind.isAccessor && !y.isImplicit) = false := by
  simp only [hasWrittenAccessor, List.any_eq_false, Bool.not_eq_true]
  constructor
  · rintro h a ⟨z, y, hz, ha, -⟩
    rw [hx] at hz
    cases hz
    exact h a ha
  · intro h a ha
    cases hy : g.declaration? a with
    | none => rfl
    | some y => exact hy ▸ h a ⟨x, y, hx, ha, hy⟩

/-- **The verdict is that the property is only written.** -/
theorem isWrittenOnly_iff (hg : g.Owned) : isWrittenOnly g p = true ↔ WrittenOnly g p := by
  have hreads : reads g p = [] ↔ (∀ r, ¬ g.Names r p) ∧
      ∀ a, HasMember g p a → ¬ SetterOf g p a → ∀ r, ¬ g.Names r a := by
    simp only [List.eq_nil_iff_forall_not_mem, mem_reads_iff hg, not_or, not_exists, not_and]
    exact ⟨fun h => ⟨fun r => (h r).1, fun a ha hs r => (h r).2 a ha hs⟩,
      fun h r => ⟨h.1 r, fun a ha hs => h.2 a ha hs r⟩⟩
  have hwrites : writes g p ≠ [] ↔ ∃ r, Writes g r p := by
    simp only [ne_eq, List.eq_nil_iff_forall_not_mem, mem_writes_iff_writes hg, not_forall, not_not]
  unfold isWrittenOnly isCandidate
  simp only [Bool.and_eq_true, Bool.not_eq_true', List.isEmpty_iff, hreads,
    Option.any_eq_true]
  constructor
  · rintro ⟨⟨⟨x, hx, hplain⟩, hunread⟩, hwritten⟩
    obtain ⟨⟨⟨⟨⟨⟨⟨hkind, hfree⟩, hattributes⟩, hoverride⟩, houtside⟩, hrelated⟩, -⟩, hstored⟩ := hplain
    exact ⟨⟨x, hx, hkind, hattributes, hoverride, hrelated⟩, hfree, houtside,
      (hasWrittenAccessor_eq_false_iff hx).1 hstored, hunread.1, hunread.2,
      hwrites.1 (by simpa using hwritten)⟩
  · rintro ⟨⟨x, hx, hkind, hattributes, hoverride, hrelated⟩, hfree, houtside, hstored, hunread,
      hmembers, hwritten⟩
    have htarget : isRelatedTarget g p = false := by
      simp only [isRelatedTarget, List.any_eq_false, hg.mem_referencesTo]
      exact fun r hr => absurd hr (hunread r)
    refine ⟨⟨⟨x, hx, ?_⟩, hunread, hmembers⟩, by simpa using hwrites.2 hwritten⟩
    exact ⟨⟨⟨⟨⟨⟨⟨hkind, hfree⟩, hattributes⟩, hoverride⟩, houtside⟩, hrelated⟩, htarget⟩,
      (hasWrittenAccessor_eq_false_iff hx).2 hstored⟩

/-! ## Turns -/

/-- The properties that are found when those of a list are judged one after the other. -/
def struck (g : Graph) : List DeclId → List DeclId
  | [] => []
  | d :: ds =>
      if isWrittenOnly g d then d :: struck (eliminateOne g d) ds else struck (eliminateOne g d) ds

/-- The properties that are found in a program. -/
def found (s : Settings) (g : Graph) : List DeclId :=
  if s.retainAssignOnlyProperties then [] else struck g (g.declarationsWhere (·.kind.isProperty))

theorem struck_nil : struck g [] = [] := rfl

theorem mem_struck_cons : p ∈ struck g (d :: ds) ↔
    (p = d ∧ isWrittenOnly g d = true) ∨ p ∈ struck (eliminateOne g d) ds := by
  rw [struck]
  split <;> simp [*]

/-- A property is found when it is only written at its turn. -/
theorem mem_struck : p ∈ struck g ds ↔ ∃ before after, ds = before ++ p :: after ∧
    isWrittenOnly (before.foldl eliminateOne g) p = true := by
  induction ds generalizing g with
  | nil => simp [struck]
  | cons d ds ih =>
      rw [mem_struck_cons, ih]
      constructor
      · rintro (⟨rfl, hp⟩ | ⟨before, after, rfl, hp⟩)
        · exact ⟨[], ds, rfl, hp⟩
        · exact ⟨d :: before, after, rfl, hp⟩
      · rintro ⟨before, after, he, hp⟩
        cases before with
        | nil =>
            cases he
            exact .inl ⟨rfl, hp⟩
        | cons b before =>
            cases he
            exact .inr ⟨before, after, rfl, hp⟩

/-- The references that write a property of a list, and what is nested in them. -/
def writeTrees (g : Graph) (ps : List DeclId) : List RefId :=
  ps.flatMap fun p => (writes g p).flatMap g.referenceTree

/-- A reference writes a property of a list, or is nested in one that does. -/
def InWrite (g : Graph) (ps : List DeclId) (r : RefId) : Prop :=
  ∃ p ∈ ps, ∃ w, Writes g w p ∧ g.Nests w r

theorem InWrite.live (hin : InWrite g ps r) : g.hasReference r = true := by
  obtain ⟨p, -, w, -, hn⟩ := hin
  exact hn.live_right

theorem mem_writeTrees (hg : g.Owned) : r ∈ writeTrees g ps ↔ InWrite g ps r := by
  simp only [writeTrees, List.mem_flatMap, mem_writes_iff_writes hg, mem_referenceTree, InWrite]

theorem closedUnderNesting_writeTrees (hg : g.Owned) :
    g.ClosedUnderNesting (writeTrees g ps) := by
  rw [writeTrees, ← List.flatMap_assoc]
  exact closedUnderNesting_flatMap hg _

/-- One turn takes away the writes to the property, if it is found. -/
theorem pared_eliminateOne (hg : g.Owned) :
    Pared (writeTrees g (struck g [p])) g (eliminateOne g p) := by
  rw [struck]
  split
  · rename_i hp
    rw [eliminateOne_of_writtenOnly hp]
    simpa [writeTrees, struck] using
      (Pared.of_pruned (pruned_foldl_removeReference hg (writes g p))).mark
  · rename_i hp
    rw [eliminateOne_of_not (Bool.eq_false_iff.2 hp)]
    exact .refl

theorem owned_eliminateOne (hg : g.Owned) : (eliminateOne g p).Owned :=
  (pared_eliminateOne hg).owned hg (closedUnderNesting_writeTrees hg)

section Sparser

variable (H : Sparser h g)
include H

theorem hasMember_iff : HasMember h p a ↔ HasMember g p a := by
  unfold HasMember
  constructor
  · rintro ⟨x, y, hx, ha, hy⟩
    obtain ⟨x', hx', -, hl⟩ := H.outline.exists_declaration hx
    obtain ⟨y', hy', -⟩ := H.outline.exists_declaration hy
    exact ⟨x', y', hx', (congrArg (fun l => l.2.1) hl : x'.members = x.members) ▸ ha, hy'⟩
  · rintro ⟨x, y, hx, ha, hy⟩
    obtain ⟨x', hx', -, hl⟩ := H.outline.symm.exists_declaration hx
    obtain ⟨y', hy', -⟩ := H.outline.symm.exists_declaration hy
    exact ⟨x', y', hx', (congrArg (fun l => l.2.1) hl : x'.members = x.members) ▸ ha, hy'⟩

theorem setterOf_iff : SetterOf h p a ↔ SetterOf g p a := by
  rw [SetterOf, SetterOf, hasMember_iff H, H.outline.symm.any_declaration fun x y hs => by rw [hs]]

theorem writes_iff : Writes h w p ↔ Writes g w p ∧ h.hasReference w = true := by
  simp only [Writes, setterOf_iff H]
  constructor
  · rintro ⟨a, ha, hn⟩
    have hlive : h.hasReference w = true := by
      obtain ⟨x, -, hx, -⟩ := hn
      exact hasReference_of_eq hx
    exact ⟨⟨a, ha, H.names hn⟩, hlive⟩
  · rintro ⟨⟨a, ha, hn⟩, hlive⟩
    exact ⟨a, ha, H.names_of_live hlive hn⟩

/-- What is in a write after some references went was in a write before. -/
theorem inWrite_iff (hg : g.Owned) (hh : h.Owned) (hr : h.hasReference r = true) :
    InWrite h ps r ↔ InWrite g ps r := by
  refine exists_congr fun p => and_congr_right fun _ => exists_congr fun w => ?_
  rw [writes_iff H]
  constructor
  · rintro ⟨⟨hw, -⟩, hn⟩
    exact ⟨hw, H.nests hh hg hn⟩
  · rintro ⟨hw, hn⟩
    have hn' := H.nests_of_live hh hg hn hr
    exact ⟨⟨hw, hn'.live_left⟩, hn'⟩

end Sparser

/-- **What goes**: the writes to the properties that are found, and what is nested in them. -/
theorem pared_foldl_eliminateOne (hg : g.Owned) (ds : List DeclId) :
    Pared (writeTrees g (struck g ds)) g (ds.foldl eliminateOne g) := by
  induction ds generalizing g with
  | nil => exact .refl
  | cons d ds ih =>
      have P := pared_eliminateOne hg (p := d)
      have hg' := owned_eliminateOne hg (p := d)
      refine (P.trans (ih hg')).congr hg.listed fun r hr => ?_
      -- what a later turn takes is in the writes as they were before the first turn
      have hlater : r ∈ writeTrees (eliminateOne g d) (struck (eliminateOne g d) ds) ↔
          InWrite g (struck (eliminateOne g d) ds) r ∧
            r ∉ writeTrees g (struck g [d]) := by
        rw [mem_writeTrees hg']
        constructor
        · intro hin
          have hlive := hin.live
          exact ⟨(inWrite_iff P.sparser hg hg' hlive).1 hin, (P.trimmed.hasReference_iff.1 hlive).2⟩
        · rintro ⟨hin, hstays⟩
          exact (inWrite_iff P.sparser hg hg' (P.trimmed.hasReference_iff.2 ⟨hr, hstays⟩)).2 hin
      have hcons : InWrite g (struck g (d :: ds)) r ↔
          InWrite g (struck g [d]) r ∨ InWrite g (struck (eliminateOne g d) ds) r := by
        simp only [InWrite, mem_struck_cons, struck_nil, List.not_mem_nil, or_false, or_and_right,
          exists_or]
      rw [List.mem_append, hlater, mem_writeTrees hg, mem_writeTrees hg, hcons]
      by_cases hfirst : InWrite g (struck g [d]) r
      · simp [hfirst]
      · simp [hfirst]

/-- What is marked when a turn is over. -/
theorem isMarked_eliminateOne (hg : g.Owned) : (eliminateOne g p).isMarked mark d = true ↔
    g.isMarked mark d = true ∨ mark = .assignOnly ∧ d ∈ struck g [p] := by
  rw [mem_struck_cons, struck_nil]
  cases hp : isWrittenOnly g p with
  | false => simp [eliminateOne_of_not hp]
  | true =>
      have P := pruned_foldl_removeReference hg (writes g p)
      have hmarks : ((writes g p).foldl Graph.removeReference g).marks = g.marks :=
        congrArg Notes.marks P.notes
      obtain ⟨x, hx, -⟩ := ((isWrittenOnly_iff hg).1 hp).plain
      have hlive : ((writes g p).foldl Graph.removeReference g).hasDeclaration p = true :=
        P.hasDeclaration.trans (hasDeclaration_of_eq hx)
      rw [eliminateOne_of_writtenOnly hp, isMarked_iff, isMarked_iff, Graph.mark, if_pos hlive,
        Marks.mem_add, hmarks]
      simp only [and_true, List.not_mem_nil, or_false]
      exact or_comm.trans (or_congr_right (and_comm.trans (and_congr_left' eq_comm)))

/-- **What is marked**: the properties that are found. -/
theorem isMarked_foldl_eliminateOne (hg : g.Owned) :
    (ds.foldl eliminateOne g).isMarked mark d = true ↔
      g.isMarked mark d = true ∨ mark = .assignOnly ∧ d ∈ struck g ds := by
  induction ds generalizing g with
  | nil => simp [struck_nil]
  | cons p ds ih =>
      rw [List.foldl_cons, ih (owned_eliminateOne hg), isMarked_eliminateOne hg, mem_struck_cons,
        mem_struck_cons, struck_nil]
      simp only [List.not_mem_nil, or_false]
      rw [or_assoc, ← and_or_left]

/-! ## The pass -/

/-- What judging the properties of a program does. -/
structure RemovesWrites (s : Settings) (g h : Graph) : Prop where
  /-- A property is found when it is only written at its turn, and the settings do not keep such
  properties. -/
  found_iff : ∀ p, p ∈ found s g ↔ s.retainAssignOnlyProperties = false ∧ ∃ before after,
    g.declarationsWhere (·.kind.isProperty) = before ++ p :: after ∧
      WrittenOnly (before.foldl eliminateOne g) p
  /-- The properties found are marked, and nothing else is. -/
  marked : ∀ mark d, h.isMarked mark d = true ↔
    g.isMarked mark d = true ∨ mark = .assignOnly ∧ d ∈ found s g
  /-- A reference goes that writes a property found, or is nested in one that does; no other goes. -/
  references : ∀ r, h.hasReference r = true ↔ g.hasReference r = true ∧ ¬ InWrite g (found s g) r
  /-- Marks and references apart, everything is as it was. -/
  rest : Pared (writeTrees g (found s g)) g h
  /-- A reference that stays has its owner, and the declaration that makes it. -/
  owners : ∀ r, h.hasReference r = true →
    h.ownerOf? r = g.ownerOf? r ∧ h.referencingDeclaration? r = g.referencingDeclaration? r
  /-- A declaration stays referenced when something names it outside of such writes. -/
  referenced : ∀ d, h.isReferenced d = true ↔ ∃ r, g.Names r d ∧ ¬ InWrite g (found s g) r
  /-- Where nothing but such writes is nested in them, only writes go. -/
  exact : (∀ p ∈ found s g, ∀ w, Writes g w p → ∀ r, g.Nests w r → ∃ q ∈ found s g, Writes g r q) →
    ∀ r, h.hasReference r = true ↔ g.hasReference r = true ∧ ∀ p ∈ found s g, ¬ Writes g r p
  /-- Nothing names a property found, or a member of it. -/
  silent : ∀ p ∈ found s g, ∀ r, ¬ h.Names r p ∧ ∀ a, HasMember h p a → ¬ h.Names r a

/-- When a property was only written, nothing names it or a member after its turn. -/
theorem silent_eliminateOne (hg : g.Owned) (hp : WrittenOnly g p) :
    ¬ (eliminateOne g p).Names r p ∧ ∀ a, HasMember g p a → ¬ (eliminateOne g p).Names r a := by
  have P := pared_eliminateOne hg (p := p)
  refine ⟨fun hn => hp.unread r (P.sparser.names hn), fun a ha hn => ?_⟩
  have hn' := P.sparser.names hn
  by_cases hs : SetterOf g p a
  · -- a write goes
    have hlive : (eliminateOne g p).hasReference r = true := by
      obtain ⟨x, -, hx, -⟩ := hn
      exact hasReference_of_eq hx
    obtain ⟨hold, hstays⟩ := P.trimmed.hasReference_iff.1 hlive
    refine hstays ((mem_writeTrees hg).2 ⟨p, ?_, r, ⟨a, hs, hn'⟩, .here (mem_refIds.2 hold)⟩)
    exact mem_struck_cons.2 (.inl ⟨rfl, (isWrittenOnly_iff hg).2 hp⟩)
  · exact hp.unread_members a ha hs r hn'

theorem owned_foldl_eliminateOne (hg : g.Owned) : (ds.foldl eliminateOne g).Owned :=
  (pared_foldl_eliminateOne hg ds).owned hg (closedUnderNesting_writeTrees hg)

/-- **Nothing names a property that was found, or a member of it.** -/
theorem silent_of_mem_struck (hg : g.Owned) (hp : p ∈ struck g ds) :
    ¬ (ds.foldl eliminateOne g).Names r p ∧
      ∀ a, HasMember g p a → ¬ (ds.foldl eliminateOne g).Names r a := by
  obtain ⟨before, after, rfl, hturn⟩ := mem_struck.1 hp
  have hk : (before.foldl eliminateOne g).Owned := owned_foldl_eliminateOne hg
  have hsilent := silent_eliminateOne hk ((isWrittenOnly_iff hk).1 hturn) (r := r)
  -- later turns only take references away
  have hlater := (pared_foldl_eliminateOne (owned_eliminateOne hk (p := p)) after).sparser
  have hearlier := (pared_foldl_eliminateOne hg before).sparser
  rw [List.foldl_append, List.foldl_cons]
  exact ⟨fun hn => hsilent.1 (hlater.names hn),
    fun a ha hn => hsilent.2 a ((hasMember_iff hearlier).2 ha) (hlater.names hn)⟩

theorem eliminate_eq : eliminate s g = (if s.retainAssignOnlyProperties then [] else
    g.declarationsWhere (·.kind.isProperty)).foldl eliminateOne g := by
  unfold eliminate
  split <;> rfl

theorem found_eq : found s g = struck g (if s.retainAssignOnlyProperties then [] else
    g.declarationsWhere (·.kind.isProperty)) := by
  unfold found
  split <;> rfl

/-- **Judging the properties of a program** removes the writes to those that are found, with what is
nested in them. -/
theorem removesWrites_eliminate (hg : g.Owned) : RemovesWrites s g (eliminate s g) := by
  have P : Pared (writeTrees g (found s g)) g (eliminate s g) := by
    rw [eliminate_eq, found_eq]
    exact pared_foldl_eliminateOne hg _
  have hc : g.ClosedUnderNesting (writeTrees g (found s g)) := closedUnderNesting_writeTrees hg
  have hh : (eliminate s g).Owned := P.owned hg hc
  have href : ∀ r, (eliminate s g).hasReference r = true ↔
      g.hasReference r = true ∧ ¬ InWrite g (found s g) r := fun r => by
    rw [P.trimmed.hasReference_iff, mem_writeTrees hg]
  refine ⟨fun p => ?_, fun mark d => ?_, href, P, fun r hr => ?_, fun d => ?_, fun honly r => ?_,
    fun p hp r => ?_⟩
  · unfold found
    split
    · rename_i hs
      simp [hs]
    · rename_i hs
      rw [mem_struck]
      refine (exists_congr fun before => exists_congr fun after => and_congr_right fun _ =>
        isWrittenOnly_iff (owned_foldl_eliminateOne hg)).trans (and_iff_right ?_).symm
      exact Bool.eq_false_iff.2 hs
  · rw [eliminate_eq, found_eq]
    exact isMarked_foldl_eliminateOne hg
  · exact ⟨P.trimmed.ownerOf? (P.trimmed.hasReference_iff.1 hr).2, P.referencingDeclaration? hg hc hr⟩
  · rw [hh.isReferenced_iff]
    constructor
    · rintro ⟨r, hn⟩
      obtain ⟨x, -, hx, -⟩ := id hn
      exact ⟨r, P.sparser.names hn, ((href r).1 (hasReference_of_eq hx)).2⟩
    · rintro ⟨r, hn, hout⟩
      obtain ⟨x, -, hx, -⟩ := id hn
      exact ⟨r, P.sparser.names_of_live ((href r).2 ⟨hasReference_of_eq hx, hout⟩) hn⟩
  · rw [href]
    refine and_congr_right fun hr => ⟨fun hout p hp hw => ?_, ?_⟩
    · exact hout ⟨p, hp, r, hw, .here (mem_refIds.2 hr)⟩
    · rintro hno ⟨p, hp, w, hw, hn⟩
      obtain ⟨q, hq, hr⟩ := honly p hp w hw r hn
      exact hno q hq hr
  · simp only [hasMember_iff P.sparser]
    rw [found_eq] at hp
    rw [eliminate_eq]
    exact silent_of_mem_struck hg hp

/-- **What the pass removes**, after every history. -/
theorem removesWrites_of_stored (hg : g.Stored) :
    (Pass.assignOnlyProperties.run s g).fault = none ∧
      RemovesWrites s g (Pass.assignOnlyProperties.run s g).graph :=
  ⟨rfl, removesWrites_eliminate hg.filed.toOwned⟩

/-! ## Two programs -/

/-- A stored property with a setter from the compiler. -/
def storedProperty (usr : String) (line : Nat) : DeclarationNode :=
  { kind := .instanceVariable, usrs := [usr], name := some usr, line
    declarations := [{ kind := .setter, usrs := [usr ++ ".set"], line, isImplicit := true }] }

/-- A class that keeps a user and a token, and is opened once.  The token is only read to be kept with
the user, and the user is read nowhere. -/
def account : Document :=
  { fragments := [
      { file := { path := ⟨"Account.swift"⟩, modules := .singleton "App" }
        declarations := [
          { kind := .classType, usrs := ["Account"], name := some "Account", line := 1
            declarations := [storedProperty "user" 2, storedProperty "token" 3,
              { kind := .instanceMethod, usrs := ["Account.open"], name := some "open()", line := 5
                references := [
                  { kind := .setter, usr := "token.set", line := 6 },
                  { kind := .setter, usr := "user.set", line := 7
                    references := [{ kind := .instanceVariable, usr := "token", line := 7 }] }] }] }]
        references := [
          { kind := .classType, usr := "Account", line := 10 },
          { kind := .instanceMethod, usr := "Account.open", line := 10 }] }] }

/-- The write of the user takes the only read of the token with it, so that the token is found too. -/
theorem removesWrites_of_stored_account :
    let g := (ofDocument account).1
    let h := (Pass.assignOnlyProperties.run {} g).graph
    ((Pass.assignOnlyProperties.run {} g).fault = none ∧ RemovesWrites {} g h) ∧
      g.isReferenced ⟨3⟩ = true ∧ found {} g = [⟨1⟩, ⟨3⟩] ∧ h.marks.assignOnly.toList = [⟨1⟩, ⟨3⟩] ∧
      h.refIds = h.rootReferences.toList := by
  have hstored : (ofDocument account).1.Stored := .ingest .empty account
  exact ⟨removesWrites_of_stored hstored, by decide +kernel⟩

/-- A class that keeps what a function answered, and reads it nowhere. -/
def session : Document :=
  { fragments := [
      { file := { path := ⟨"Session.swift"⟩, modules := .singleton "App" }
        declarations := [
          { kind := .classType, usrs := ["Session"], name := some "Session", line := 1
            declarations := [storedProperty "last" 2,
              { kind := .instanceMethod, usrs := ["Session.update"], name := some "update()", line := 4
                references := [
                  { kind := .setter, usr := "last.set", line := 5
                    references := [{ kind := .freeFunction, usr := "load", line := 5, column := 16 }] }]
              }] },
          { kind := .freeFunction, usrs := ["load"], name := some "load()", line := 9 }] }] }

/-- The call of the function in the expression that is assigned goes with the write, though it writes
nothing, and nothing uses the function any more. -/
theorem not_keeps_session :
    let g := (ofDocument session).1
    let h := (Pass.assignOnlyProperties.run {} g).graph
    ∃ r d, g.Names r d ∧ (∀ p, h.isMarked .assignOnly p = true → ¬ Writes g r p) ∧
      h.hasReference r = false ∧ h.isReferenced d = false := by
  intro g h
  have hstored : g.Stored := .ingest .empty session
  have hnames : (⟨1⟩ : RefId) ∈ g.referencesTo ⟨4⟩ := by decide +kernel
  have hwrites : ∀ p ∈ (h.marks.of .assignOnly).toList, (⟨1⟩ : RefId) ∉ writes g p := by decide +kernel
  refine ⟨⟨1⟩, ⟨4⟩, hstored.filed.mem_referencesTo.1 hnames, fun p hp hw => ?_, by decide +kernel,
    by decide +kernel⟩
  exact hwrites p (isMarked_iff.1 hp) ((mem_writes_iff_writes hstored.filed.toOwned).2 hw)

end AssignOnly

end Deadwood

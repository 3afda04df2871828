/-
  Looking something up finds what a walk through all entries finds.

  1. **Answers** — a list of handles answers a question when it holds exactly the handles that satisfy
     a condition, each once and in order (`Enumerates`); a single handle answers one when it comes
     first among them (`IsFirst`).  The order is by key and then by handle, as `sortByKey` lists.

  2. **Questions (`AnswersByScan`)** — the declarations that carry an identifier or have one of some
     kinds, the references to an identifier or to a declaration, and the one declaration that an
     identifier stands for.  Each condition reads the entries of the live handles and no index.

  3. **Every history (`answersByScan_of_stored`)** — the indices are right after every history
     (`Stored.filed`), whatever handles the operations were given, and sorting drops nothing.
-/
import Deadwood.Proofs.Filing
import Deadwood.Proofs.Renaming.Query

namespace Deadwood

/-! ## Answers -/

section Answers

variable {ι : Type} {before : ι → ι → Prop} {P : ι → Prop} {xs : List ι}

/-- The list holds exactly what satisfies the condition, each once, in order. -/
structure Enumerates (before : ι → ι → Prop) (P : ι → Prop) (xs : List ι) : Prop where
  mem_iff : ∀ i, i ∈ xs ↔ P i
  nodup : xs.Nodup
  ordered : xs.Pairwise before

/-- What is found satisfies the condition and comes before everything else that does; nothing is
found only where nothing satisfies it. -/
def IsFirst (before : ι → ι → Prop) (P : ι → Prop) : Option ι → Prop
  | some i => P i ∧ ∀ j, P j → j ≠ i → before i j
  | none => ∀ j, ¬ P j

/-- The head of an ordered list comes first. -/
theorem Enumerates.isFirst_head? (H : Enumerates before P xs) : IsFirst before P xs.head? := by
  cases xs with
  | nil =>
      intro j hj
      cases (H.mem_iff j).2 hj
  | cons i is =>
      refine ⟨(H.mem_iff i).1 List.mem_cons_self, fun j hj hne => ?_⟩
      have hmem : j ∈ is := List.mem_of_ne_of_mem hne ((H.mem_iff j).2 hj)
      exact (List.pairwise_cons.1 H.ordered).1 j hmem

end Answers

namespace Graph

variable {g : Graph} {usr : String} {kinds : List Kind} {d : DeclId}

/-! ## Order -/

/-- One live declaration is listed before another: by place, kind, name and least identifier, and for
equal ones by handle. -/
def DeclarationBefore (g : Graph) : DeclId → DeclId → Prop :=
  Precedes fun d => (g.declaration? d).map (·.toSymbol.key)

/-- One live reference is listed before another: by place, identifier and whether it is structural,
and for equal ones by handle. -/
def ReferenceBefore (g : Graph) : RefId → RefId → Prop :=
  Precedes fun r => (g.reference? r).map (·.toMention.key)

theorem enumerates_sortedDeclarations {P : DeclId → Prop} {ids : List DeclId}
    (hP : ∀ d, d ∈ g.sortedDeclarations ids ↔ P d) :
    Enumerates g.DeclarationBefore P (g.sortedDeclarations ids) :=
  ⟨hP, nodup_sortByKey, pairwise_precedes_sortByKey⟩

theorem enumerates_sortedReferences {P : RefId → Prop} {ids : List RefId}
    (hP : ∀ r, r ∈ g.sortedReferences ids ↔ P r) :
    Enumerates g.ReferenceBefore P (g.sortedReferences ids) :=
  ⟨hP, nodup_sortByKey, pairwise_precedes_sortByKey⟩

/-! ## Questions -/

/-- A live declaration carries the identifier. -/
def CarriedBy (g : Graph) (usr : String) (d : DeclId) : Prop :=
  ∃ x, g.declaration? d = some x ∧ usr ∈ x.usrs.toList

/-- A live declaration that is written in the source carries the identifier. -/
def WrittenAs (g : Graph) (usr : String) (d : DeclId) : Prop :=
  ∃ x, g.declaration? d = some x ∧ usr ∈ x.usrs.toList ∧ x.isImplicit = false

/-- Every look-up answers what a walk through all live entries answers. -/
structure AnswersByScan (g : Graph) : Prop where
  withUsr : ∀ usr, Enumerates g.DeclarationBefore (g.CarriedBy usr) (g.declarationsWithUsr usr)
  ofKinds : ∀ kinds, Enumerates g.DeclarationBefore
    (fun d => ∃ x, g.declaration? d = some x ∧ x.kind ∈ kinds) (g.declarationsOfKinds kinds)
  toUsr : ∀ usr, Enumerates g.ReferenceBefore
    (fun r => ∃ x, g.reference? r = some x ∧ x.usr = usr) (g.referencesToUsr usr)
  /-- The references to a declaration are those that name any of its identifiers. -/
  toDeclaration : ∀ d, Enumerates g.ReferenceBefore (fun r => g.Names r d) (g.referencesTo d)
  referenced : ∀ d, g.isReferenced d = true ↔ ∃ r, g.Names r d
  written : ∀ usr,
    IsFirst g.DeclarationBefore (g.WrittenAs usr) (g.explicitDeclarationWithUsr? usr)
  /-- What is written in the source is preferred. -/
  preferred : ∀ usr d, g.explicitDeclarationWithUsr? usr = some d →
    g.declarationWithUsr? usr = some d
  /-- Only where nothing is written in the source, the others are considered. -/
  otherwise : ∀ usr, g.explicitDeclarationWithUsr? usr = none →
    IsFirst g.DeclarationBefore (g.CarriedBy usr) (g.declarationWithUsr? usr)

theorem Indexed.enumerates_withUsr (hg : g.Indexed) :
    Enumerates g.DeclarationBefore (g.CarriedBy usr) (g.declarationsWithUsr usr) :=
  enumerates_sortedDeclarations fun _ => hg.mem_declarationsWithUsr

theorem Owned.enumerates_toUsr (hg : g.Owned) : Enumerates g.ReferenceBefore
    (fun r => ∃ x, g.reference? r = some x ∧ x.usr = usr) (g.referencesToUsr usr) := by
  refine enumerates_sortedReferences fun r => ?_
  rw [mem_sortedReferences, hg.uses]
  constructor
  · intro hr
    exact hr.1
  · rintro ⟨x, hx, hu⟩
    exact ⟨⟨x, hx, hu⟩, hasReference_of_eq hx⟩

theorem Owned.enumerates_referencesTo (hg : g.Owned) :
    Enumerates g.ReferenceBefore (fun r => g.Names r d) (g.referencesTo d) := by
  have hmem : ∀ r, r ∈ g.referencesTo d ↔ g.Names r d := fun _ => hg.mem_referencesTo
  unfold referencesTo at hmem ⊢
  cases hx : g.declaration? d with
  | none =>
      rw [hx] at hmem
      exact ⟨hmem, .nil, .nil⟩
  | some x =>
      rw [hx] at hmem
      exact enumerates_sortedReferences hmem

/-- Of what is filed under an identifier, only what is written in the source is considered. -/
theorem Indexed.isFirst_written (hg : g.Indexed) :
    IsFirst g.DeclarationBefore (g.WrittenAs usr) (g.explicitDeclarationWithUsr? usr) := by
  refine (enumerates_sortedDeclarations fun d => ?_).isFirst_head?
  rw [mem_sortedDeclarations, List.mem_filter, hg.byUsr]
  constructor
  · rintro ⟨⟨⟨x, hx, hu⟩, hany⟩, -⟩
    rw [hx, Option.any_some, Bool.not_eq_true'] at hany
    exact ⟨x, hx, hu, hany⟩
  · rintro ⟨x, hx, hu, hwritten⟩
    refine ⟨⟨⟨x, hx, hu⟩, ?_⟩, hasDeclaration_of_eq hx⟩
    rw [hx, Option.any_some, hwritten]
    rfl

theorem Filed.answersByScan (hg : g.Filed) : g.AnswersByScan where
  withUsr _ := hg.toIndexed.enumerates_withUsr
  ofKinds _ := enumerates_sortedDeclarations fun _ => hg.toIndexed.mem_declarationsOfKinds
  toUsr _ := hg.toOwned.enumerates_toUsr
  toDeclaration _ := hg.toOwned.enumerates_referencesTo
  referenced _ := hg.toOwned.isReferenced_iff
  written _ := hg.toIndexed.isFirst_written
  preferred usr d hd := by rw [declarationWithUsr?, hd, Option.some_or]
  otherwise usr hnone := by
    rw [declarationWithUsr?, hnone, Option.none_or]
    exact hg.toIndexed.enumerates_withUsr.isFirst_head?

/-- **Every look-up answers what a walk through all live entries answers**, after every history and
whatever handles were passed. -/
theorem answersByScan_of_stored (hg : g.Stored) : g.AnswersByScan := hg.filed.answersByScan

/-- A parameter is added to the handle that it is about to get, and two declarations share an
identifier, one of them only since it was joined with another part.  The one that is written in the
source comes later.  A declaration goes with its references, and handles that nobody gave out are
removed, marked and referred from. -/
def misfiledOperations : List Operation :=
  let spot (line : Nat) : Location := ⟨⟨"a.swift"⟩, line, 1⟩
  let symbol (kind : Kind) (usr : String) (line : Nat) : Symbol :=
    { kind, usrs := .singleton usr, location := spot line }
  let mention (usr : String) (line : Nat) : Mention :=
    { kind := .classType, usr, location := spot line }
  [ .addUnusedParameter (symbol .localVariable "p" 9) ⟨0⟩,
    .addDeclaration { symbol .classType "A" 1 with isImplicit := true } none,
    .addDeclaration (symbol .structType "B" 5) (some ⟨7⟩),
    .unify ⟨2⟩ (symbol .structType "A" 5),
    .addDeclaration (symbol .classType "C" 3) (some ⟨1⟩),
    .addReference (mention "A" 4) (some (.declaration ⟨3⟩)),
    .addReference (mention "B" 2) (some (.reference ⟨6⟩)),
    .addReference (mention "A" 6) (some (.declaration ⟨2⟩)),
    .removeDeclaration ⟨3⟩, .removeDeclaration ⟨8⟩, .mark .used ⟨8⟩ ]

/-- The graph after these operations. -/
def misfiled : Graph := misfiledOperations.foldl Operation.apply ∅

theorem answersByScan_of_stored_misfiled : misfiled.AnswersByScan ∧
    misfiled.childrenOf ⟨0⟩ = [⟨0⟩] ∧ misfiled.parentOf? ⟨0⟩ = none ∧
    misfiled.declarationsOfKinds [.parameter, .classType] = [⟨1⟩, ⟨0⟩] ∧
    misfiled.declarationsWithUsr "A" = [⟨1⟩, ⟨2⟩] ∧
    misfiled.declarationWithUsr? "A" = some ⟨2⟩ ∧ misfiled.referencesTo ⟨2⟩ = [⟨1⟩, ⟨2⟩] := by
  have hstored : misfiled.Stored := Stored.empty.foldl_apply misfiledOperations
  exact ⟨answersByScan_of_stored hstored, by decide +kernel⟩

end Graph

end Deadwood

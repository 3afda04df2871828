/-
  Families of functions, and the unused parameters that their signatures keep.

  1. **Families (`SameFamily`)** — two functions are kindred where a structural reference of one of them
     names the other; a family is a class of the equivalence that this generates.

  2. **The search (`mem_family_iff`)** — links are gone along in both directions, so a search from a
     function comes to its family and to nothing else.

  3. **What stays (`Stays`)** — one constructor for each reason why a function keeps an unused parameter
     of a name.

  4. **All or none (`KeepsFamilies`)** — if nothing but names decides, all members of a family that
     leave a name unused keep it, or none of them does: a member that uses the name speaks for all.
-/
import Deadwood.Proofs.Lookup
import Deadwood.Proofs.Ownership
import Mathlib.Logic.Relation

namespace Deadwood

open Deadwood.Graph

variable {s : Settings} {g : Graph} {f m p : DeclId} {n usr : String}

/-- Where every edge goes both ways, so does every path. -/
theorem Reaches.reverse {α : Type} {next : α → List α} {nodes : List α} {x y : α}
    (hsymm : ∀ a b, b ∈ next a → a ∈ next b) (h : Reaches next nodes x y) :
    Reaches next nodes y x := by
  induction h with
  | here hx => exact .here hx
  | step _ hz hm ih => exact ih.head hm (hsymm _ _ hz)

namespace Graph

/-! ## Families -/

/-- A function that is no accessor. -/
def IsPlainFunction (g : Graph) (f : DeclId) : Prop :=
  ∃ x, g.declaration? f = some x ∧ x.kind.isFunction = true ∧ x.kind.isAccessor = false

/-- `RelatesTo g f usr`: the function has a structural reference to a function of that identifier. -/
def RelatesTo (g : Graph) (f : DeclId) (usr : String) : Prop :=
  ∃ r ∈ g.heldBy f true, ∃ x, g.reference? r = some x ∧ x.kind.isFunction = true ∧ x.usr = usr

/-- `Kindred g a b`: one of the two functions is structurally related to the other. -/
structure Kindred (g : Graph) (a b : DeclId) : Prop where
  left : g.IsPlainFunction a
  right : g.IsPlainFunction b
  related : (∃ usr, g.RelatesTo a usr ∧ g.CarriedBy usr b) ∨ ∃ usr, g.RelatesTo b usr ∧ g.CarriedBy usr a

theorem Kindred.symm {a b : DeclId} (h : g.Kindred a b) : g.Kindred b a :=
  ⟨h.right, h.left, h.related.symm⟩

/-- `SameFamily g a b`: a chain of kindred functions leads from one to the other. -/
def SameFamily (g : Graph) : DeclId → DeclId → Prop := Relation.EqvGen g.Kindred

theorem SameFamily.refl : g.SameFamily f f := Relation.EqvGen.refl f

theorem SameFamily.symm {a b : DeclId} (h : g.SameFamily a b) : g.SameFamily b a :=
  Relation.EqvGen.symm a b h

theorem SameFamily.trans {a b c : DeclId} (h : g.SameFamily a b) (h' : g.SameFamily b c) :
    g.SameFamily a c := Relation.EqvGen.trans a b c h h'

/-- A family that holds a function holds functions only. -/
theorem SameFamily.isPlainFunction_iff {a b : DeclId} (h : g.SameFamily a b) :
    g.IsPlainFunction a ↔ g.IsPlainFunction b := by
  induction h with
  | rel a b h => exact iff_of_true h.left h.right
  | refl a => exact Iff.rfl
  | symm a b _ ih => exact ih.symm
  | trans a b c _ _ ih ih' => exact ih.trans ih'

/-- `ListsUnused g f p n`: the function lists `p` among its unused parameters, and `p` has that name. -/
def ListsUnused (g : Graph) (f p : DeclId) (n : String) : Prop :=
  ∃ x y, g.declaration? f = some x ∧ p ∈ x.parameters.toList ∧ g.declaration? p = some y ∧
    y.nameText = n

/-- One function lists a parameter, under one name. -/
theorem ListsUnused.unique {f' : DeclId} {n' : String} (hg : g.Nested) (h : g.ListsUnused f p n)
    (h' : g.ListsUnused f' p n') : f = f' ∧ n = n' := by
  obtain ⟨x, y, hx, hp, hy, rfl⟩ := h
  obtain ⟨x', y', hx', hp', hy', rfl⟩ := h'
  have hparent := (hg.child_iff f p).1 (mem_childrenOf_iff.2 ⟨x, hx, .inr hp⟩)
  have hparent' := (hg.child_iff f' p).1 (mem_childrenOf_iff.2 ⟨x', hx', .inr hp'⟩)
  rw [hparent] at hparent'
  rw [hy] at hy'
  cases hparent'
  cases hy'
  exact ⟨rfl, rfl⟩

/-- The function is structurally related to a function outside of the program. -/
def ReachesOutside (g : Graph) (f : DeclId) : Prop :=
  ∃ usr, g.RelatesTo f usr ∧ ∀ d, ¬ g.CarriedBy usr d

end Graph

/-- `Stays s g f n`: why an unused parameter of that name stays in the function. -/
inductive Stays (s : Settings) (g : Graph) (f : DeclId) (n : String) : Prop where
  /-- The family reaches outside of the program. -/
  | outside {m : DeclId} (family : g.SameFamily f m) (foreign : g.ReachesOutside m) : Stays s g f n
  /-- A requirement is in the family, and settings say that this is enough. -/
  | required (on : s.retainUnusedProtocolFuncParams = true) {m : DeclId} (family : g.SameFamily f m)
      (requirement : g.isProtocolMember m = true) : Stays s g f n
  /-- The function is a requirement itself. -/
  | requirement (requirement : g.isProtocolMember f = true) : Stays s g f n
  /-- The parameter is discarded by its name. -/
  | discarded (name : n = "_") : Stays s g f n
  /-- Another function of the family, not a requirement, does not leave that name unused. -/
  | needed {m : DeclId} (family : g.SameFamily f m) (ne : m ≠ f)
      (free : g.isProtocolMember m = false) (uses : ∀ p, ¬ g.ListsUnused m p n) : Stays s g f n

namespace Parameters

/-! ## The search -/

theorem mem_functions : f ∈ functions g ↔ g.IsPlainFunction f := by
  rw [functions, mem_declarationsWhere]
  refine exists_congr fun x => ?_
  rw [Bool.and_eq_true, Bool.not_eq_true']

theorem mem_relatedUsrs : usr ∈ relatedUsrs g f ↔ g.RelatesTo f usr := by
  unfold relatedUsrs RelatesTo heldBy
  cases hx : g.declaration? f with
  | none => simp
  | some x =>
      simp only [List.mem_filterMap, Option.map_some, Option.getD_some, Option.map_eq_some_iff,
        Option.filter_eq_some_iff, and_assoc]
      rfl

/-- The pairs along which families are searched. -/
theorem mem_links (hg : g.Indexed) {a b : DeclId} : (a, b) ∈ links g (functions g) ↔ g.Kindred a b := by
  have hgoes : ∀ a b, b ∈ ((relatedUsrs g a).flatMap g.declarationsWithUsr).filter
      (functions g).contains ↔ g.IsPlainFunction b ∧ ∃ usr, g.RelatesTo a usr ∧ g.CarriedBy usr b := by
    intro a b
    simp only [List.mem_filter, List.mem_flatMap, mem_relatedUsrs, hg.mem_declarationsWithUsr,
      List.contains_iff_mem, mem_functions]
    rw [and_comm]
    rfl
  simp only [links, List.mem_flatMap, mem_functions, hgoes, List.mem_cons, List.not_mem_nil, or_false,
    Prod.mk.injEq]
  constructor
  · rintro ⟨c, hc, t, ⟨ht, hrelated⟩, (⟨rfl, rfl⟩ | ⟨rfl, rfl⟩)⟩
    · exact ⟨hc, ht, .inl hrelated⟩
    · exact ⟨ht, hc, .inr hrelated⟩
  · rintro ⟨ha, hb, hrelated | hrelated⟩
    · exact ⟨a, ha, b, ⟨hb, hrelated⟩, .inl ⟨rfl, rfl⟩⟩
    · exact ⟨b, hb, a, ⟨ha, hrelated⟩, .inr ⟨rfl, rfl⟩⟩

/-- **A search along the links comes to the family.** -/
theorem mem_family_iff (hg : g.Indexed) (hf : g.IsPlainFunction f) :
    m ∈ family (functions g) (links g (functions g)) f ↔ g.SameFamily f m := by
  have hnext : ∀ a b, b ∈ ((links g (functions g)).filter (·.1 = a)).map (·.2) ↔ g.Kindred a b := by
    intro a b
    rw [← mem_links hg]
    simp
  have hsymm : ∀ a b, b ∈ ((links g (functions g)).filter (·.1 = a)).map (·.2) →
      a ∈ ((links g (functions g)).filter (·.1 = b)).map (·.2) :=
    fun a b h => (hnext b a).2 ((hnext a b).1 h).symm
  rw [family, mem_explore_iff]
  simp only [List.mem_singleton, exists_eq_left]
  constructor
  · intro h
    induction h with
    | here _ => exact .refl
    | step _ hz _ ih => exact ih.trans (.rel _ _ ((hnext _ _).1 hz))
  · intro h
    -- what has no kindred is a family of its own, whether it is a function or not
    have hpath : f = m ∨ Reaches (fun x => ((links g (functions g)).filter (·.1 = x)).map (·.2))
        (functions g) f m := by
      clear hf
      induction h with
      | rel a b hab =>
          exact .inr (.step (.here (mem_functions.2 hab.left)) ((hnext a b).2 hab)
            (mem_functions.2 hab.right))
      | refl a => exact .inl rfl
      | symm a b _ ih => exact ih.imp Eq.symm fun hab => hab.reverse hsymm
      | trans a b c _ _ ih ih' =>
          rcases ih with rfl | hab
          · exact ih'
          · rcases ih' with rfl | hbc
            · exact .inr hab
            · exact .inr (hab.trans hbc)
    rcases hpath with rfl | hpath
    · exact .here (mem_functions.2 hf)
    · exact hpath

/-! ## What stays -/

theorem mem_namedParameters : (p, n) ∈ namedParameters g f ↔ g.ListsUnused f p n := by
  unfold namedParameters ListsUnused
  cases hx : g.declaration? f with
  | none => simp
  | some x =>
      simp only [List.mem_filterMap, Option.map_eq_some_iff, Prod.mk.injEq, Option.some.injEq]
      constructor
      · rintro ⟨q, hq, y, hy, rfl, rfl⟩
        exact ⟨x, y, rfl, hq, hy, rfl⟩
      · rintro ⟨x', y, rfl, hq, hy, rfl⟩
        exact ⟨p, hq, y, hy, rfl, rfl⟩

theorem usesName_iff : usesName g f n = true ↔ ∀ p, ¬ g.ListsUnused f p n := by
  simp only [usesName, Bool.not_eq_true', List.any_eq_false, beq_iff_eq, Prod.forall,
    mem_namedParameters]
  constructor
  · intro h p hp
    exact h p n hp rfl
  · rintro h p _ hp rfl
    exact h p hp

theorem hasForeignBase_iff (hg : g.Indexed) : hasForeignBase g f = true ↔ g.ReachesOutside f := by
  have hnone : ∀ usr, (g.declarationsWithUsr usr).isEmpty = true ↔ ∀ d, ¬ g.CarriedBy usr d := by
    intro usr
    rw [List.isEmpty_iff, List.eq_nil_iff_forall_not_mem]
    exact forall_congr' fun d => hg.mem_declarationsWithUsr.not
  simp only [hasForeignBase, List.any_eq_true, mem_relatedUsrs, hnone, ReachesOutside]

/-- What makes a function keep its unused parameters whatever their names are. -/
theorem keepsAll_iff (hg : g.Indexed) (hf : g.IsPlainFunction f) :
    let members := family (functions g) (links g (functions g)) f
    (members.any (hasForeignBase g) ||
      (s.retainUnusedProtocolFuncParams && members.any g.isProtocolMember) ||
        g.isProtocolMember f) = true ↔
      (∃ m, g.SameFamily f m ∧ g.ReachesOutside m) ∨
        (s.retainUnusedProtocolFuncParams = true ∧ ∃ m, g.SameFamily f m ∧ g.isProtocolMember m = true) ∨
          g.isProtocolMember f = true := by
  simp only [Bool.or_eq_true, Bool.and_eq_true, List.any_eq_true, mem_family_iff hg hf,
    hasForeignBase_iff hg, or_assoc]

/-- The siblings that use a name. -/
theorem any_usesName_iff (hg : g.Indexed) (hf : g.IsPlainFunction f) :
    ((family (functions g) (links g (functions g)) f).filter
      fun m => m ≠ f && !g.isProtocolMember m).any (usesName g · n) = true ↔
    ∃ m, g.SameFamily f m ∧ m ≠ f ∧ g.isProtocolMember m = false ∧ ∀ p, ¬ g.ListsUnused m p n := by
  simp only [List.any_eq_true, List.mem_filter, mem_family_iff hg hf, Bool.and_eq_true,
    decide_eq_true_eq, Bool.not_eq_true', usesName_iff, and_assoc]

theorem mem_keptOf (hg : g.Indexed) (hf : g.IsPlainFunction f) :
    p ∈ keptOf s g (family (functions g) (links g (functions g)) f) f ↔
      ∃ n, g.ListsUnused f p n ∧ Stays s g f n := by
  have hall := keepsAll_iff (s := s) hg hf
  dsimp only at hall
  unfold keptOf
  dsimp only
  split
  · rename_i hkeep
    have hstays : ∀ n, Stays s g f n := by
      intro n
      rcases hall.1 hkeep with ⟨m, hm, hforeign⟩ | ⟨hon, m, hm, hmember⟩ | hmember
      · exact .outside hm hforeign
      · exact .required hon hm hmember
      · exact .requirement hmember
    simp only [List.mem_map, Prod.exists, mem_namedParameters, exists_and_right, exists_eq_right,
      hstays, and_true]
  · rename_i hkeep
    have hstays : ∀ n, Stays s g f n ↔ n = "_" ∨
        ∃ m, g.SameFamily f m ∧ m ≠ f ∧ g.isProtocolMember m = false ∧
          ∀ p, ¬ g.ListsUnused m p n := by
      intro n
      constructor
      · intro h
        cases h with
        | outside hm hforeign => exact absurd (hall.2 (.inl ⟨_, hm, hforeign⟩)) hkeep
        | required hon hm hmember => exact absurd (hall.2 (.inr (.inl ⟨hon, _, hm, hmember⟩))) hkeep
        | requirement hmember => exact absurd (hall.2 (.inr (.inr hmember))) hkeep
        | discarded hn => exact .inl hn
        | needed hm hne hfree huses => exact .inr ⟨_, hm, hne, hfree, huses⟩
      · rintro (hn | ⟨m, hm, hne, hfree, huses⟩)
        · exact .discarded hn
        · exact .needed hm hne hfree huses
    simp only [List.mem_map, List.mem_filter, Prod.exists, mem_namedParameters, Bool.or_eq_true,
      beq_iff_eq, any_usesName_iff hg hf, exists_and_right, exists_eq_right, hstays]

/-- **The parameters that the pass selects.** -/
theorem mem_kept (hg : g.Indexed) :
    p ∈ kept s g ↔ ∃ f n, g.IsPlainFunction f ∧ g.ListsUnused f p n ∧ Stays s g f n := by
  simp only [kept, List.mem_flatMap, mem_functions]
  refine exists_congr fun f => ?_
  rw [exists_and_left]
  exact and_congr_right fun hf => mem_keptOf hg hf

/-! ## All or none -/

/-- What the pass does to a graph that it leaves as `h`. -/
structure KeepsFamilies (s : Settings) (g h : Graph) : Prop where
  /-- Retained are, besides what was, the unused parameters that stay for some reason. -/
  retained_iff : ∀ p, h.isRetained p = true ↔ g.isRetained p = true ∨
    ∃ f n, g.IsPlainFunction f ∧ g.ListsUnused f p n ∧ Stays s g f n
  /-- Where only names decide, the functions of a family that are no requirements keep all unused
  parameters of a name, or none. -/
  together : ∀ f n, g.IsPlainFunction f → (∀ m, g.SameFamily f m → ¬ g.ReachesOutside m) →
    s.retainUnusedProtocolFuncParams = false → n ≠ "_" →
    (∀ m p, g.SameFamily f m → g.isProtocolMember m = false → g.ListsUnused m p n → p ∈ kept s g) ∨
      ∀ m p, g.SameFamily f m → g.isProtocolMember m = false → g.ListsUnused m p n → p ∉ kept s g

/-- Where only names decide, a function that uses the name decides for its family. -/
theorem all_or_none_kept (hg : g.Coherent False) (hf : g.IsPlainFunction f)
    (hhome : ∀ m, g.SameFamily f m → ¬ g.ReachesOutside m)
    (hoff : s.retainUnusedProtocolFuncParams = false) (hn : n ≠ "_") :
    (∀ m p, g.SameFamily f m → g.isProtocolMember m = false → g.ListsUnused m p n → p ∈ kept s g) ∨
      ∀ m p, g.SameFamily f m → g.isProtocolMember m = false → g.ListsUnused m p n →
        p ∉ kept s g := by
  by_cases huser : ∃ m, g.SameFamily f m ∧ g.isProtocolMember m = false ∧ ∀ p, ¬ g.ListsUnused m p n
  · obtain ⟨u, hu, hfree, huses⟩ := huser
    refine .inl fun m p hm _ hp => (mem_kept hg.toIndexed).2 ⟨m, n, ?_, hp, ?_⟩
    · exact hm.isPlainFunction_iff.1 hf
    · have hne : u ≠ m := by
        rintro rfl
        exact huses p hp
      exact .needed (hm.symm.trans hu) hne hfree huses
  · refine .inr fun m p hm hfree hp hkept => ?_
    obtain ⟨m', n', -, hp', hstays⟩ := (mem_kept hg.toIndexed).1 hkept
    obtain ⟨rfl, rfl⟩ := hp.unique hg.toNested hp'
    cases hstays with
    | outside hfamily hforeign => exact hhome _ (hm.trans hfamily) hforeign
    | required hon => rw [hoff] at hon; cases hon
    | requirement hmember => rw [hfree] at hmember; cases hmember
    | discarded hname => exact hn hname
    | needed hfamily _ hfree' huses => exact huser ⟨_, hm.trans hfamily, hfree', huses⟩

end Parameters

open Parameters

/-- **Unused parameters are kept family by family**, and exactly where there is a reason. -/
theorem keepsFamilies_of_built (hg : g.Built) :
    KeepsFamilies s g (Pass.unusedParameters.run s g).graph where
  retained_iff p := by
    refine isRetained_retainAll.trans ?_
    rw [mem_kept hg.coherent.toIndexed]
    refine or_congr_right (and_iff_left_of_imp ?_)
    rintro ⟨f, n, -, ⟨x, y, -, -, hy, -⟩, -⟩
    exact hasDeclaration_of_eq hy
  together _ _ hf hhome hoff hn := all_or_none_kept hg.coherent hf hhome hoff hn

/-- A method and two overrides, one of which uses a parameter; a requirement and what satisfies it; an
override of something foreign; and a function with two parameters. -/
def signatures : Document :=
  let method (usr : String) (line : Nat) (overrides unused : List String) : DeclarationNode :=
    { kind := .instanceMethod, usrs := [usr], line
      related := overrides.map fun base => { kind := .instanceMethod, usr := base, line }
      unusedParameters := unused.map fun name =>
        { kind := .parameter, usrs := [usr ++ "." ++ name], name := some name, line
          column := 10 + name.length } }
  let type (kind : Kind) (usr : String) (line : Nat) (members : List DeclarationNode) :
      DeclarationNode := { kind, usrs := [usr], line, declarations := members }
  { fragments := [
      { file := { path := ⟨"a.swift"⟩, modules := .singleton "App" }
        declarations := [
          type .classType "Base" 1 [method "Base.on" 2 [] ["at", "event"]],
          type .classType "Left" 11 [method "Left.on" 12 ["Base.on"] ["at", "event"]],
          type .classType "Right" 21 [method "Right.on" 22 ["Base.on"] ["event"]],
          type .protocolType "Runs" 31 [method "Runs.run" 32 ["Job.run"] ["speed"]],
          type .classType "Job" 41 [method "Job.run" 42 [] ["speed"]],
          type .classType "View" 51 [method "View.draw" 52 ["UIView.draw"] ["rect"]],
          { method "go" 61 [] ["_", "fast"] with kind := .freeFunction }] }] }

theorem keepsFamilies_of_built_signatures :
    let g := (Graph.ofDocument signatures).1
    KeepsFamilies {} g (Pass.unusedParameters.run {} g).graph ∧
      ((Pass.unusedParameters.run {} g).graph.marks.retained.toList.filterMap fun d =>
        (g.declaration? d).map (·.usrs.toList)) =
        [["Base.on.at"], ["Left.on.at"], ["Runs.run.speed"], ["View.draw.rect"], ["go._"]] := by
  intro g
  exact ⟨keepsFamilies_of_built (Built.empty.ingest signatures), by decide +kernel⟩

end Deadwood

/-
  The superclasses of a class, nearest first.

  1. **Closure** — the list holds what steps to a direct superclass lead to, each once, and never the
     class itself, also where classes inherit from each other in a circle.

  2. **Order** — by the least number of steps, since a search breadth first visits what is nearer
     first (`pairwise_distance_explore`).

  3. **Search** — noting each superclass when it is found gives the same list: the search ends with
     it (`Discovery.exists_turns_breadthFirst`).

  4. **Names** — a name is inherited from exactly where a class or something in its closure has it in
     its inheritance clause; the type of that name need not be declared.
-/
import Deadwood.Proofs.Discovery
import Deadwood.Proofs.Nearness
import Deadwood.Proofs.Store.Query

namespace Deadwood.Graph

variable {g : Graph} {c d s : DeclId} {name : String}

/-- Only what is there is a superclass. -/
theorem immediateSuperclasses_subset (g : Graph) (c : DeclId) :
    g.immediateSuperclasses c ⊆ g.declIds := fun _ hs =>
  mem_declIds.2 (mem_sortedDeclarations.1 hs).2

theorem immediateSuperclasses_of_absent (hc : g.hasDeclaration c = false) :
    g.immediateSuperclasses c = [] := by
  rw [immediateSuperclasses, inheritedTypeReferences, declaration?_of_absent hc]
  rfl

theorem superclasses_of_absent (hd : g.hasDeclaration d = false) : g.superclasses d = [] := by
  rw [superclasses, explore_cons_of_not_mem (not_mem_declIds hd), explore_nil, List.tail_nil]

/-- The search visits the class and then its superclasses. -/
theorem cons_superclasses (hd : g.hasDeclaration d = true) :
    explore .breadthFirst g.immediateSuperclasses g.declIds [d] = d :: g.superclasses d := by
  rw [superclasses, explore_cons_of_mem (mem_declIds.2 hd), List.tail_cons]

/-- `DerivesFrom g c s`: steps to a direct superclass, one or more, lead from the one to the other. -/
def DerivesFrom (g : Graph) : DeclId → DeclId → Prop :=
  Relation.TransGen fun c s => s ∈ g.immediateSuperclasses c

theorem mem_superclasses_iff : s ∈ g.superclasses d ↔ s ≠ d ∧ g.DerivesFrom d s := by
  rw [superclasses, mem_tail_explore nodup_declIds, mem_explore_iff]
  simp only [List.mem_singleton, exists_eq_left]
  rw [and_comm]
  refine and_congr_right fun hne => ?_
  by_cases hd : d ∈ g.declIds
  · rw [reaches_iff_reflTransGen hd g.immediateSuperclasses_subset,
      Relation.reflTransGen_iff_eq_or_transGen]
    exact or_iff_right hne
  · constructor
    · intro h
      exact absurd h.mem_left hd
    · intro h
      -- no step begins at what is not there
      obtain ⟨t, ht, -⟩ := Relation.TransGen.head'_iff.1 h
      rw [mem_declIds, Bool.not_eq_true] at hd
      rw [immediateSuperclasses_of_absent hd] at ht
      cases ht

theorem nodup_superclasses : (g.superclasses d).Nodup := (nodup_explore nodup_declIds).tail

/-- Noting each superclass when it is found comes to an end, with the same list. -/
theorem exists_turns_superclasses (g : Graph) (d : DeclId) :
    ∃ n, (Discovery.turn Discovery.queue g.immediateSuperclasses)^[n] (.start d) =
      ⟨d :: g.superclasses d, []⟩ := by
  cases hd : g.hasDeclaration d with
  | true =>
      rw [← cons_superclasses hd]
      exact Discovery.exists_turns_breadthFirst (Discovery.open_start nodup_declIds
        (mem_declIds.2 hd) g.immediateSuperclasses_subset) (List.nil_append _).symm
  | false =>
      refine ⟨1, ?_⟩
      rw [Function.iterate_one, superclasses_of_absent hd]
      simp [Discovery.turn, Discovery.start, immediateSuperclasses_of_absent hd, Discovery.fresh,
        Discovery.queue]

theorem nearest_first_superclasses : (g.superclasses d).Pairwise fun s t =>
    ∀ m n, IsDistance g.immediateSuperclasses d s m → IsDistance g.immediateSuperclasses d t n →
      m ≤ n := by
  cases hd : g.hasDeclaration d with
  | true =>
      have hall := pairwise_distance_explore (mem_declIds.2 hd) nodup_declIds
        g.immediateSuperclasses_subset
      rw [cons_superclasses hd] at hall
      exact (List.pairwise_cons.1 hall).2
  | false => rw [superclasses_of_absent hd]; exact .nil

/-! ## Inheritance clauses -/

/-- The declaration owns a reference of this name in its inheritance clause. -/
def NamesInClause (g : Graph) (c : DeclId) (name : String) : Prop :=
  ∃ d r x, g.declaration? c = some d ∧ r ∈ d.ownReferences ∧ g.reference? r = some x ∧
    isInheritance x = true ∧ x.nameText = name

theorem any_inheritedTypeReferences_iff : ((g.inheritedTypeReferences c).any fun r =>
    (g.reference? r).any fun x => x.nameText == name) = true ↔ g.NamesInClause c name := by
  unfold inheritedTypeReferences NamesInClause
  cases g.declaration? c with
  | none => simp
  | some d =>
      simp only [List.any_eq_true, mem_sortedReferences, referencesAmong, List.mem_filter,
        List.mem_append, Declaration.ownReferences, Option.any_eq_true, beq_iff_eq]
      constructor
      · rintro ⟨r, ⟨⟨hr, x, hx, hclause⟩, -⟩, y, hy, hname⟩
        rw [hx] at hy
        cases hy
        exact ⟨d, r, x, rfl, hr.symm, hx, hclause, hname⟩
      · rintro ⟨_, r, x, he, hr, hx, hclause, hname⟩
        cases he
        exact ⟨r, ⟨⟨hr.symm, x, hx, hclause⟩, hasReference_of_eq hx⟩, x, hx, hname⟩

theorem inheritsFromNamed_iff : g.inheritsFromNamed d name = true ↔
    ∃ c, (c = d ∨ g.DerivesFrom d c) ∧ g.NamesInClause c name := by
  simp only [inheritsFromNamed, List.any_cons, Bool.or_eq_true,
    List.any_eq_true (l := g.superclasses d), any_inheritedTypeReferences_iff, mem_superclasses_iff]
  constructor
  · rintro (hself | ⟨c, ⟨-, hc⟩, hname⟩)
    · exact ⟨d, .inl rfl, hself⟩
    · exact ⟨c, .inr hc, hname⟩
  · rintro ⟨c, hc, hname⟩
    by_cases he : c = d
    · exact .inl (he ▸ hname)
    · exact .inr ⟨c, ⟨he, hc.resolve_left he⟩, hname⟩

/-- The superclasses of a class are listed completely, once each and nearest first. -/
structure ListsSuperclasses (g : Graph) (d : DeclId) : Prop where
  /-- The search that takes up the oldest first, and notes what it finds, ends with the class and the
  list. -/
  ends : ∃ n, (Discovery.turn Discovery.queue g.immediateSuperclasses)^[n] (.start d) =
    ⟨d :: g.superclasses d, []⟩
  closure : ∀ s, s ∈ g.superclasses d ↔ s ≠ d ∧ g.DerivesFrom d s
  nodup : (g.superclasses d).Nodup
  distance : ∀ s ∈ g.superclasses d, ∃ n, 0 < n ∧ IsDistance g.immediateSuperclasses d s n
  nearest_first : (g.superclasses d).Pairwise fun s t =>
    ∀ m n, IsDistance g.immediateSuperclasses d s m → IsDistance g.immediateSuperclasses d t n →
      m ≤ n
  /-- A name is inherited from where the class or something in its closure has it in its clause. -/
  named : ∀ name, g.inheritsFromNamed d name = true ↔
    ∃ c, (c = d ∨ g.DerivesFrom d c) ∧ g.NamesInClause c name

/-- **The superclasses of a class are its closure, nearest first**, whatever the graph. -/
theorem listsSuperclasses (g : Graph) (d : DeclId) : g.ListsSuperclasses d where
  ends := g.exists_turns_superclasses d
  closure _ := mem_superclasses_iff
  nodup := nodup_superclasses
  distance s hs := by
    obtain ⟨hne, hs⟩ := mem_superclasses_iff.1 hs
    obtain ⟨n, hn⟩ := exists_isDistance hs.to_reflTransGen
    exact ⟨n, hn.pos hne, hn⟩
  nearest_first := nearest_first_superclasses
  named _ := inheritsFromNamed_iff

/-- Two ways lead from a class to one that is written first, and one of them goes on in a circle.  It
also names a class that is not declared. -/
def circle : Graph :=
  let spot (line : Nat) : Location := ⟨⟨"a.swift"⟩, line, 1⟩
  let add (usr : String) (line : Nat) : Operation :=
    .addDeclaration { kind := .classType, usrs := .singleton usr, location := spot line } none
  let inherit (heir : Nat) (usr : String) (line column : Nat) : Operation :=
    .addReference { kind := .classType, usr, name := some usr, role := .inheritedType
                    location := { spot line with column } } (some (.declaration ⟨heir⟩))
  [ add "Top" 1, add "Left" 2, add "Right" 3, add "Bottom" 4,
    inherit 3 "Left" 4 10, inherit 3 "Right" 4 20, inherit 1 "Top" 2 10, inherit 2 "Bottom" 3 10,
    inherit 2 "Top" 3 20, inherit 0 "TestCase" 1 10 ].foldl Operation.apply ∅

theorem listsSuperclasses_circle : circle.ListsSuperclasses ⟨3⟩ ∧
    circle.superclasses ⟨3⟩ = [⟨1⟩, ⟨2⟩, ⟨0⟩] ∧ circle.superclasses ⟨2⟩ = [⟨0⟩, ⟨3⟩, ⟨1⟩] ∧
    circle.inheritsFromNamed ⟨3⟩ "TestCase" = true ∧ circle.superclasses ⟨9⟩ = [] :=
  ⟨listsSuperclasses circle ⟨3⟩, by decide +kernel⟩

end Deadwood.Graph

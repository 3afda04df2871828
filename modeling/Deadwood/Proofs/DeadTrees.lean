/-
  Every dead tree is reported once.

  1. **Ancestors** — up and down the tree lead the same links (`mem_descendants_iff`), and the chain
     of parents has no branches (`EnclosedBy.total`).  Where parent links make no cycle, a chain that
     meets something also has an outermost meeting (`exists_outermost`).

  2. **Marks (`isIgnored_markUsed`)** — what the search ignores, found from each unused declaration
     downwards, is what looks up to something unused.  Used declarations may stand between the two.

  3. **Reports (`deadTrees_markUsed`)** — so the declarations reported are the unused ones with nothing
     unused around them: none encloses another, and each unused declaration belongs to one.
-/
import Deadwood.Proofs.Ownership
import Deadwood.Proofs.Reachability
import Deadwood.Proofs.Renaming.Query
import Mathlib.Data.List.Perm.Subperm

namespace Deadwood

namespace Graph

variable {g h : Graph} {a b c d : DeclId}

/-! ## Ancestors and descendants -/

theorem Nested.enclosedBy_iff (hg : g.Nested) : g.EnclosedBy c a ↔ g.Encloses a c := by
  constructor
  · intro hup
    induction hup with
    | here hc => exact .here hc
    | step _ hz hlive ih => exact ih.head hlive ((hg.child_iff _ _).2 (Option.mem_toList.1 hz))
  · intro hdown
    induction hdown with
    | here ha => exact .here ha
    | step _ hz hlive ih => exact ih.head hlive (Option.mem_toList.2 ((hg.child_iff _ _).1 hz))

/-- What is nested in a declaration looks up to it. -/
theorem Nested.mem_descendants_iff (hg : g.Nested) : c ∈ g.descendants a ↔ a ∈ g.ancestors c := by
  rw [mem_descendants, mem_ancestors, hg.enclosedBy_iff, ne_comm]

theorem childrenOf_ne_nil (hdown : g.Encloses a c) (hne : c ≠ a) : g.childrenOf a ≠ [] := by
  obtain ⟨hself, -⟩ | ⟨z, hz, -⟩ := hdown.avoid hne
  · exact absurd rfl hself
  · exact List.ne_nil_of_mem hz

/-- The chain of parents has no branches. -/
theorem EnclosedBy.total (ha : g.EnclosedBy c a) (hb : g.EnclosedBy c b) :
    g.EnclosedBy a b ∨ g.EnclosedBy b a := by
  induction ha with
  | here _ => exact .inl hb
  | @step y z _ hz hlive ih =>
      rcases ih with hup | hup
      · by_cases hbase : b = y
        · subst hbase
          exact .inr (.step (.here hup.mem_right) hz hlive)
        · -- beyond `y` the chain goes on with its parent
          obtain ⟨hself, -⟩ | ⟨w, hw, hrest⟩ := hup.avoid hbase
          · exact absurd rfl hself
          · rw [Option.mem_toList] at hz hw
            rw [hz] at hw
            cases hw
            exact .inl (hrest.mono List.erase_subset)
      · exact .inr (.step hup hz hlive)

/-- Parent links make no cycle. -/
def Acyclic (g : Graph) : Prop :=
  ∀ d, ¬ Relation.TransGen (fun c p => g.parentOf? c = some p) d d

theorem Acyclic.congr (H : SameOutline g h) (hacyclic : g.Acyclic) : h.Acyclic := by
  simpa only [Acyclic, H.parentOf?] using hacyclic

/-- Where parents are older than what they enclose, parent links make no cycle. -/
theorem acyclic_of_lt (hlt : ∀ d ∈ g.declIds, ∀ p ∈ (g.parentOf? d).toList, p.index < d.index) :
    g.Acyclic := by
  have hdescend : ∀ c a, Relation.TransGen (fun c p => g.parentOf? c = some p) c a →
      a.index < c.index := by
    have hone : ∀ c p, g.parentOf? c = some p → p.index < c.index := fun c p hp => by
      obtain ⟨x, hx, -⟩ := parentOf?_eq_some_iff.1 hp
      exact hlt c (mem_declIds.2 (hasDeclaration_of_eq hx)) p (Option.mem_toList.2 hp)
    intro c a hpath
    induction hpath with
    | single hp => exact hone _ _ hp
    | tail _ hp ih => exact (hone _ _ hp).trans ih
  exact fun d hcycle => Nat.lt_irrefl _ (hdescend d d hcycle)

theorem EnclosedBy.eq_or_transGen (hup : g.EnclosedBy c a) :
    a = c ∨ Relation.TransGen (fun c p => g.parentOf? c = some p) c a := by
  induction hup with
  | here _ => exact .inl rfl
  | step _ hz _ ih =>
      rw [Option.mem_toList] at hz
      rcases ih with rfl | ih
      · exact .inr (.single hz)
      · exact .inr (ih.tail hz)

/-- A declaration or one around it: what its chain of parents meets. -/
theorem enclosedBy_iff (hd : g.hasDeclaration d = true) :
    g.EnclosedBy d a ↔ a = d ∨ a ∈ g.ancestors d := by
  rw [mem_ancestors]
  constructor
  · intro hup
    by_cases hself : a = d
    · exact .inl hself
    · exact .inr ⟨hup, hself⟩
  · rintro (rfl | ⟨hup, -⟩)
    · exact .here (mem_declIds.2 hd)
    · exact hup

theorem Acyclic.not_mem_ancestors (hacyclic : g.Acyclic) (ha : a ∈ g.ancestors c) :
    c ∉ g.ancestors a := by
  intro hc
  obtain ⟨hup, hne⟩ := mem_ancestors.1 ha
  obtain ⟨hback, -⟩ := mem_ancestors.1 hc
  have hthere := hup.eq_or_transGen.resolve_left hne
  rcases hback.eq_or_transGen with rfl | hback
  · exact hne rfl
  · exact hacyclic c (hthere.trans hback)

theorem Acyclic.ancestors_subset (hacyclic : g.Acyclic) (ha : a ∈ g.ancestors c) :
    g.ancestors a ⊆ g.ancestors c := by
  intro b hb
  refine mem_ancestors.2 ⟨(mem_ancestors.1 ha).1.trans (mem_ancestors.1 hb).1, ?_⟩
  rintro rfl
  exact hacyclic.not_mem_ancestors ha hb

theorem Acyclic.length_ancestors_lt (hacyclic : g.Acyclic) (ha : a ∈ g.ancestors c) :
    (g.ancestors a).length < (g.ancestors c).length := by
  have hself : a ∉ g.ancestors a := fun hmem => (mem_ancestors.1 hmem).2 rfl
  have hnodup : (a :: g.ancestors a).Nodup :=
    List.nodup_cons.2 ⟨hself, (nodup_explore nodup_declIds).tail⟩
  have hsubset : (a :: g.ancestors a) ⊆ g.ancestors c :=
    List.cons_subset.2 ⟨ha, hacyclic.ancestors_subset ha⟩
  exact (hnodup.subperm hsubset).length_le

/-- Of the declarations with a property that stand on a chain of parents, one is outermost. -/
theorem Acyclic.exists_outermost (hacyclic : g.Acyclic) {P : DeclId → Prop} (hc : P c) :
    ∃ t, (t = c ∨ t ∈ g.ancestors c) ∧ P t ∧ ∀ a ∈ g.ancestors t, ¬ P a := by
  -- further out there are fewer ancestors
  induction hn : (g.ancestors c).length using Nat.strong_induction_on generalizing c with
  | _ n ih =>
      by_cases hmore : ∃ a ∈ g.ancestors c, P a
      · obtain ⟨a, ha, hP⟩ := hmore
        obtain ⟨t, ht, hlast⟩ := ih _ (hn ▸ hacyclic.length_ancestors_lt ha) hP rfl
        refine ⟨t, .inr ?_, hlast⟩
        rcases ht with rfl | ht
        · exact ha
        · exact hacyclic.ancestors_subset ha ht
      · exact ⟨c, .inl rfl, hc, fun a ha hP => hmore ⟨a, ha, hP⟩⟩

end Graph

namespace Reachability

open Deadwood.Graph

variable {g : Graph} {c d : DeclId} {named : Prop}

/-! ## Marks -/

/-- What is shadowed is unused and looks up to something unused. -/
theorem mem_shadowed_iff (hg : g.Nested) : c ∈ shadowed g ↔
    g.hasDeclaration c = true ∧ g.isUsed c = false ∧ ∃ a ∈ g.ancestors c, g.isUsed a = false := by
  rw [mem_shadowed]
  -- the search goes down from what is unused and encloses something, this statement goes up
  constructor
  · rintro ⟨a, -, ha, -, hdown, hne, hc⟩
    exact ⟨mem_declIds.1 hdown.mem_right, hc, a,
      mem_ancestors.2 ⟨hg.enclosedBy_iff.2 hdown, hne.symm⟩, ha⟩
  · rintro ⟨-, hc, a, hup, ha⟩
    obtain ⟨hup, hne⟩ := mem_ancestors.1 hup
    have hdown := hg.enclosedBy_iff.1 hup
    exact ⟨a, mem_declIds.1 hup.mem_right, ha, childrenOf_ne_nil hdown hne.symm, hdown, hne.symm, hc⟩

/-- **What is ignored after marking**: what was, and what is unused inside something unused. -/
theorem isIgnored_markUsed (hg : g.Coherent named) : (markUsed g).isIgnored d = true ↔
    g.isIgnored d = true ∨ ((markUsed g).hasDeclaration d = true ∧ (markUsed g).isUsed d = false ∧
      ∃ a ∈ (markUsed g).ancestors d, (markUsed g).isUsed a = false) := by
  rw [isIgnored, isMarked_iff, mem_ignored_markUsed hg,
    mem_shadowed_iff (coherent_markUsed hg).toNested, isIgnored, isMarked_iff, or_comm]

/-- **What is reported after marking**: what is unused, was not ignored, and has nothing unused around
it. -/
theorem mem_unusedDeclarations_markUsed (hg : g.Coherent named) :
    d ∈ (markUsed g).unusedDeclarations ↔ (markUsed g).hasDeclaration d = true ∧
      (markUsed g).isUsed d = false ∧ g.isIgnored d = false ∧
      ∀ a ∈ (markUsed g).ancestors d, (markUsed g).isUsed a = true := by
  have hignored := (isIgnored_markUsed hg (d := d)).not
  rw [unusedDeclarations, mem_sortedDeclarations, List.mem_filter, mem_declIds, Bool.and_eq_true,
    Bool.not_eq_true', Bool.not_eq_true', ← Bool.not_eq_true ((markUsed g).isIgnored d), hignored]
  constructor
  · rintro ⟨⟨hlive, hunused, hnot⟩, -⟩
    refine ⟨hlive, hunused, Bool.not_eq_true _ ▸ fun hi => hnot (.inl hi), fun a ha => ?_⟩
    by_contra hna
    exact hnot (.inr ⟨hlive, hunused, a, ha, Bool.not_eq_true _ ▸ hna⟩)
  · rintro ⟨hlive, hunused, hi, hall⟩
    refine ⟨⟨hlive, hunused, ?_⟩, hlive⟩
    rintro (hyes | ⟨-, -, a, ha, hna⟩)
    · rw [hi] at hyes
      cases hyes
    · rw [hall a ha] at hna
      cases hna

/-! ## Reports -/

/-- Nothing reported encloses something else reported. -/
theorem not_mem_ancestors_of_reported (hg : g.Coherent named)
    (hc : c ∈ (markUsed g).unusedDeclarations) (hd : d ∈ (markUsed g).unusedDeclarations) :
    c ∉ (markUsed g).ancestors d := by
  intro hup
  have hused := ((mem_unusedDeclarations_markUsed hg).1 hd).2.2.2 c hup
  rw [((mem_unusedDeclarations_markUsed hg).1 hc).2.1] at hused
  cases hused

/-- In a forest where nothing unused was ignored, everything unused belongs to one report. -/
theorem existsUnique_reported (hg : g.Coherent named) (hacyclic : g.Acyclic)
    (hopen : ∀ d, (markUsed g).hasDeclaration d = true → (markUsed g).isUsed d = false →
      g.isIgnored d = false)
    (hlive : (markUsed g).hasDeclaration d = true) (hunused : (markUsed g).isUsed d = false) :
    ∃! t, t ∈ (markUsed g).unusedDeclarations ∧ (t = d ∨ t ∈ (markUsed g).ancestors d) := by
  have hacyclic' : (markUsed g).Acyclic := hacyclic.congr (sameOutline_markUsed hg)
  obtain ⟨t, ht, htu, houter⟩ :=
    hacyclic'.exists_outermost (P := fun a => (markUsed g).isUsed a = false) hunused
  have hchain : (markUsed g).EnclosedBy d t := (enclosedBy_iff hlive).2 ht
  have htlive : (markUsed g).hasDeclaration t = true := mem_declIds.1 hchain.mem_right
  have hreported : t ∈ (markUsed g).unusedDeclarations := (mem_unusedDeclarations_markUsed hg).2
    ⟨htlive, htu, hopen t htlive htu, fun a ha => Bool.not_eq_false _ ▸ houter a ha⟩
  refine ⟨t, ⟨hreported, ht⟩, fun t' ht' => ?_⟩
  -- both stand on one chain of parents, so one would enclose the other
  by_contra hne
  rcases hchain.total ((enclosedBy_iff hlive).2 ht'.2) with hup | hup
  · exact not_mem_ancestors_of_reported hg ht'.1 hreported (mem_ancestors.2 ⟨hup, hne⟩)
  · exact not_mem_ancestors_of_reported hg hreported ht'.1 (mem_ancestors.2 ⟨hup, Ne.symm hne⟩)

/-- `DeadTrees g h`: what the marks of `h` say about dead trees, where `g` is the graph before they
were found. -/
structure DeadTrees (g h : Graph) : Prop where
  /-- Something is ignored that was, or that is unused inside something unused. -/
  ignored : ∀ d, h.isIgnored d = true ↔ g.isIgnored d = true ∨
    (h.hasDeclaration d = true ∧ h.isUsed d = false ∧ ∃ a ∈ h.ancestors d, h.isUsed a = false)
  /-- Nothing is reported twice. -/
  nodup : h.unusedDeclarations.Nodup
  /-- Something is reported that is unused, was not ignored, and has only used things around it. -/
  reported : ∀ d, d ∈ h.unusedDeclarations ↔ h.hasDeclaration d = true ∧ h.isUsed d = false ∧
    g.isIgnored d = false ∧ ∀ a ∈ h.ancestors d, h.isUsed a = true
  /-- Nothing reported encloses something else reported. -/
  apart : ∀ c ∈ h.unusedDeclarations, ∀ d ∈ h.unusedDeclarations,
    c ∉ h.ancestors d ∧ d ∉ h.descendants c
  /-- In a forest where nothing unused was ignored, everything unused belongs to one report. -/
  covered : g.Acyclic →
    (∀ d, h.hasDeclaration d = true → h.isUsed d = false → g.isIgnored d = false) →
    ∀ d, h.hasDeclaration d = true → h.isUsed d = false →
      ∃! t, t ∈ h.unusedDeclarations ∧ (t = d ∨ t ∈ h.ancestors d)

/-- **Every dead tree is reported once.** -/
theorem deadTrees_markUsed (hg : g.Built) : DeadTrees g (markUsed g) where
  ignored _ := isIgnored_markUsed hg.coherent
  nodup := nodup_sortByKey
  reported _ := mem_unusedDeclarations_markUsed hg.coherent
  apart c hc d hd := by
    have hup := not_mem_ancestors_of_reported hg.coherent hc hd
    refine ⟨hup, fun hdown => hup ?_⟩
    exact (coherent_markUsed hg.coherent).toNested.mem_descendants_iff.1 hdown
  covered hacyclic hopen _ hlive hunused :=
    existsUnique_reported hg.coherent hacyclic hopen hlive hunused

/-- A dead class with a live method, in which a function is dead, and a live class with a dead
method. -/
def deadAndLive : Graph :=
  let add (kind : Kind) (usr : String) (line : Nat) (parent : Option DeclId) : Operation :=
    .addDeclaration { kind, usrs := .singleton usr, location := ⟨⟨"a.swift"⟩, line, 1⟩ } parent
  [ add .classType "A" 1 none, add .instanceMethod "A.f" 2 (some ⟨0⟩),
    add .freeFunction "A.f.g" 3 (some ⟨1⟩), add .classType "B" 5 none,
    add .instanceMethod "B.h" 6 (some ⟨3⟩), .mark .retained ⟨1⟩, .mark .retained ⟨3⟩
  ].foldl Operation.apply ∅

/-- The inner function belongs to the report of the class, past the live method. -/
theorem deadTrees_markUsed_deadAndLive : DeadTrees deadAndLive (markUsed deadAndLive) ∧
    (markUsed deadAndLive).unusedDeclarations = [⟨0⟩, ⟨4⟩] ∧
    (markUsed deadAndLive).isUsed ⟨1⟩ = true ∧ (markUsed deadAndLive).isIgnored ⟨2⟩ = true ∧
    ∃! t, t ∈ (markUsed deadAndLive).unusedDeclarations ∧
      (t = ⟨2⟩ ∨ t ∈ (markUsed deadAndLive).ancestors ⟨2⟩) := by
  have hreachable : deadAndLive.Reachable := Reachable.empty.foldl_apply
    ⟨List.cons_ne_nil _ _, List.cons_ne_nil _ _, List.cons_ne_nil _ _, List.cons_ne_nil _ _,
      List.cons_ne_nil _ _, trivial, trivial, trivial⟩
  have hacyclic : deadAndLive.Acyclic := acyclic_of_lt (by decide +kernel)
  have H : DeadTrees deadAndLive (markUsed deadAndLive) := deadTrees_markUsed hreachable.built
  exact ⟨H, by decide +kernel, by decide +kernel, by decide +kernel,
    H.covered hacyclic (fun _ _ _ => rfl) ⟨2⟩ (by decide +kernel) (by decide +kernel)⟩

end Reachability

end Deadwood

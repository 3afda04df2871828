/-
  Removal as a recursion.

  1. **`Unwinds`** — an entry is struck off wherever it is listed and its slot is emptied; then what it
     owned when it was struck goes the same way, references first, and after it what still waits.
     While this goes on, things are there whose owner is gone already.

  2. **What a run takes (`Unwinds.clears`)** — the state in between is the graph without some entries,
     and so two halves of consistency survive (`Rooted`, `Listed`).  One strike fells one entry
     (`felled_strike`), and by induction a run fells what the waiting entries hold at any depth.

  3. **Every run ends (`exists_unwinds`)** — a strike leaves one live entry less, whatever the links
     look like.

  4. **Where it ends (`unwinds_iff`)** — removing a declaration with its subtree, found first and
     taken out afterwards, comes to the same graph.
-/
import Deadwood.Proofs.ReferenceForest
import Deadwood.Proofs.Subtrees.Rooting
import Mathlib.Data.List.Perm.Subperm

namespace Deadwood.Graph

variable {g h k : Graph} {c d p id : DeclId} {r s : RefId} {o a : Owner} {os S : List Owner}
  {ids more : List DeclId} {rs : List RefId}

/-! ## What owns what -/

/-- What an entry owns directly: its references, then what is nested in it. -/
def below (g : Graph) : Owner → List Owner
  | .declaration d => ((g.declaration? d).map fun x =>
      x.ownReferences.map Owner.reference ++ x.children.map Owner.declaration).getD []
  | .reference r => (g.nestedReferences r).map Owner.reference

/-- Everything that is there. -/
def owners (g : Graph) : List Owner :=
  g.declIds.map Owner.declaration ++ g.refIds.map Owner.reference

/-- An entry is another one, or owned by it at some depth. -/
def Holds (g : Graph) : Owner → Owner → Prop := Reaches g.below g.owners

@[simp] theorem mem_owners : o ∈ g.owners ↔ g.hasOwner o = true := by
  cases o <;> simp [owners, hasOwner]

theorem nodup_owners : g.owners.Nodup := by
  refine List.nodup_append.2 ⟨nodup_declIds.map fun _ _ he => by simpa using he,
    nodup_refIds.map fun _ _ he => by simpa using he, fun a ha b hb he => ?_⟩
  obtain ⟨c, -, rfl⟩ := List.mem_map.1 ha
  obtain ⟨r, -, rfl⟩ := List.mem_map.1 hb
  cases he

@[simp] theorem declaration_mem_below :
    .declaration c ∈ g.below (.declaration d) ↔ c ∈ g.childrenOf d := by
  simp only [below, childrenOf]
  cases g.declaration? d <;> simp

@[simp] theorem reference_mem_below :
    .reference r ∈ g.below (.declaration d) ↔ ∃ b, r ∈ g.heldBy d b := by
  simp only [below, heldBy]
  cases g.declaration? d <;> simp [Declaration.mem_ownReferences]

@[simp] theorem declaration_not_mem_below : .declaration c ∉ g.below (.reference r) := by
  simp [below]

@[simp] theorem nested_mem_below :
    .reference s ∈ g.below (.reference r) ↔ s ∈ g.nestedReferences r := by
  simp [below]

/-- A declaration holds what it encloses, and what the enclosed declarations refer to. -/
theorem holds_declaration_iff : g.Holds (.declaration id) o ↔
    match o with
    | .declaration c => g.Encloses id c
    | .reference r => ∃ c, g.Encloses id c ∧ r ∈ g.referencesFrom c := by
  have hdecls : ∀ {c}, g.Encloses id c → g.Holds (.declaration id) (.declaration c) :=
    fun hc => reaches_map Owner.declaration (fun _ _ hy => declaration_mem_below.2 hy)
      (fun _ hx => mem_owners.2 (mem_declIds.1 hx)) hc
  constructor
  · intro ho
    induction ho with
    | here hx => exact .here (mem_declIds.2 (mem_owners.1 hx))
    | @step a o _ ho hlive ih =>
        have hlive := mem_owners.1 hlive
        cases a with
        | declaration p =>
            cases o with
            | declaration c => exact .step ih (declaration_mem_below.1 ho) (mem_declIds.2 hlive)
            | reference r =>
                obtain ⟨b, hb⟩ := reference_mem_below.1 ho
                exact ⟨p, ih, mem_referencesFrom_iff.2 ⟨b, r, hb, .here (mem_refIds.2 hlive)⟩⟩
        | reference q =>
            cases o with
            | declaration c => exact absurd ho declaration_not_mem_below
            | reference r =>
                obtain ⟨c, hc, hq⟩ := ih
                obtain ⟨b, t, ht, hn⟩ := mem_referencesFrom_iff.1 hq
                exact ⟨c, hc, mem_referencesFrom_iff.2
                  ⟨b, t, ht, .step hn (nested_mem_below.1 ho) (mem_refIds.2 hlive)⟩⟩
  · intro ho
    cases o with
    | declaration c => exact hdecls ho
    | reference r =>
        obtain ⟨c, hc, hr⟩ := ho
        obtain ⟨b, q, hq, hn⟩ := mem_referencesFrom_iff.1 hr
        have hheld : g.Holds (.declaration id) (.reference q) :=
          .step (hdecls hc) (reference_mem_below.2 ⟨b, hq⟩) (mem_owners.2 hn.live_left)
        exact hheld.trans (reaches_map Owner.reference (fun _ _ hy => nested_mem_below.2 hy)
          (fun _ hx => mem_owners.2 (mem_refIds.1 hx)) hn)

/-! ## Half of a graph -/

/-- The declarations of a list of entries. -/
def declarationsIn (S : List Owner) : List DeclId :=
  S.filterMap fun | .declaration d => some d | .reference _ => none

/-- The references of a list of entries. -/
def referencesIn (S : List Owner) : List RefId :=
  S.filterMap fun | .declaration _ => none | .reference r => some r

@[simp] theorem mem_declarationsIn : c ∈ declarationsIn S ↔ .declaration c ∈ S := by
  simp only [declarationsIn, List.mem_filterMap]
  constructor
  · rintro ⟨o, ho, hc⟩
    cases o <;> simp_all
  · exact fun hc => ⟨_, hc, rfl⟩

@[simp] theorem mem_referencesIn : r ∈ referencesIn S ↔ .reference r ∈ S := by
  simp only [referencesIn, List.mem_filterMap]
  constructor
  · rintro ⟨o, ho, hr⟩
    cases o <;> simp_all
  · exact fun hr => ⟨_, hr, rfl⟩

/-- `h` is `g` without some entries. -/
abbrev Cleared (S : List Owner) (g h : Graph) : Prop :=
  Felled (declarationsIn S) (referencesIn S) g h

namespace Felled

theorem listed (H : Felled ids rs g h) (hg : g.Listed) : h.Listed where
  held d x b r hx hr := by
    rw [H.declaration] at hx
    split at hx
    · cases hx
    · obtain ⟨y, hy, rfl⟩ := Option.map_eq_some_iff.1 hx
      rw [Declaration.held_without, SortedSet.mem_without] at hr
      rw [H.ownerOf? hr.2]
      exact hg.held d y b r hy (by cases b <;> exact hr.1)
  nested o x r hx hr := by
    rw [H.reference] at hx
    split at hx
    · cases hx
    · obtain ⟨y, hy, rfl⟩ := Option.map_eq_some_iff.1 hx
      have hr := SortedSet.mem_without.1 hr
      rw [H.ownerOf? hr.2]
      exact hg.nested o y r hy hr.1
  root r hr := by
    rw [H.rootReferences, SortedSet.mem_without] at hr
    rw [H.hasReference_iff, H.ownerOf? hr.2]
    have hroot := hg.root r hr.1
    exact ⟨⟨hroot.1, hr.2⟩, hroot.2⟩
  uses usr r hr := by
    rw [H.uses, SortedSet.mem_without] at hr
    obtain ⟨x, hx, hu⟩ := hg.uses usr r hr.1
    exact ⟨x.without rs, by rw [H.reference, if_neg hr.2, hx]; rfl, hu⟩

/-- Only which declarations are felled counts. -/
theorem congr_left (H : Felled ids rs g h) (hm : ∀ c, c ∈ ids ↔ c ∈ more) :
    Felled more rs g h := by
  have hset : ∀ t : SortedSet DeclId, t.without ids = t.without more := fun t =>
    SortedSet.eq_of_mem_iff fun c => by simp only [SortedSet.mem_without, hm]
  exact
    { toTrimmed := H.toTrimmed
      declaration := fun c => by
        rw [H.declaration]
        simp only [hm, Declaration.withoutChildren, hset]
      roots := by rw [H.roots, hset]
      byUsr := fun usr => by rw [H.byUsr, hset]
      byKind := fun kind => by rw [H.byKind, hset]
      marks := fun mark => by rw [H.marks, hset]
      results := H.results }

end Felled

theorem Cleared.trans {S' : List Owner} (H : Cleared S g h) (H' : Cleared S' h k) :
    Cleared (S ++ S') g k := by
  rw [Cleared, declarationsIn, referencesIn, List.filterMap_append, List.filterMap_append]
  exact Felled.trans H H'

theorem Cleared.hasOwner_iff (H : Cleared S g h) :
    h.hasOwner o = true ↔ g.hasOwner o = true ∧ o ∉ S := by
  cases o with
  | declaration d => exact H.hasDeclaration_iff.trans (by rw [mem_declarationsIn]; rfl)
  | reference r => exact H.hasReference_iff.trans (by rw [mem_referencesIn]; rfl)

theorem Cleared.mem_below_iff (H : Cleared S g h) :
    o ∈ h.below a ↔ o ∈ g.below a ∧ a ∉ S ∧ o ∉ S := by
  cases a <;> cases o
  · simp [H.mem_childrenOf_iff]
  · simp [H.mem_heldBy_iff]
  · simp
  · simp [H.mem_nestedReferences_iff]

/-- What is held after entries are gone was held before. -/
theorem Cleared.holds (H : Cleared S g h) (ho : h.Holds a o) : g.Holds a o := by
  induction ho with
  | here hx => exact .here (mem_owners.2 (H.hasOwner_iff.1 (mem_owners.1 hx)).1)
  | step _ ho hlive ih =>
      exact .step ih (H.mem_below_iff.1 ho).1
        (mem_owners.2 (H.hasOwner_iff.1 (mem_owners.1 hlive)).1)

/-! ## The recursion -/

/-- Strike an entry off wherever it is listed and empty its slot; what it owns stays. -/
def strike (g : Graph) : Owner → Graph
  | .declaration d => ((g.declaration? d).map fun x => g.uproot d x).getD g
  | .reference r => g.takeReference r

theorem strike_of_none (hx : g.declaration? d = none) : g.strike (.declaration d) = g := by
  simp [strike, hx]

theorem strike_of_some {x : Declaration} (hx : g.declaration? d = some x) :
    g.strike (.declaration d) = g.uproot d x := by
  simp [strike, hx]

/-- The entries of a list are struck one after the other, and after each of them what it owned, as
far as it is still there. -/
inductive Unwinds : Graph → List Owner → Graph → Prop where
  | done {g : Graph} : Unwinds g [] g
  /-- What is gone by now is passed over. -/
  | gone {g h : Graph} {o : Owner} {os : List Owner} : g.hasOwner o = false →
      Unwinds g os h → Unwinds g (o :: os) h
  /-- What is there is struck, and then what it owned goes before what waits. -/
  | take {g h k : Graph} {o : Owner} {os : List Owner} : g.hasOwner o = true →
      Unwinds (g.strike o) (g.below o) k → Unwinds k os h → Unwinds g (o :: os) h

/-- **One strike fells one entry**, since only its owner lists it. -/
theorem felled_strike (hr : g.Rooted) (hl : g.Listed) (o : Owner) : Cleared [o] g (g.strike o) := by
  cases o with
  | declaration d =>
      cases hx : g.declaration? d with
      | none => rw [strike_of_none hx]; exact felled_of_none hr hx
      | some x => rw [strike_of_some hx]; exact felled_uproot hr hx
  | reference r => exact (pruned_takeReference hl r).felled

/-- What a run takes: what the waiting entries hold. -/
structure Clears (g : Graph) (os : List Owner) (h : Graph) (S : List Owner) : Prop where
  felled : Cleared S g h
  held : ∀ o ∈ S, ∃ a ∈ os, g.Holds a o
  waiting : ∀ a ∈ os, g.hasOwner a = true → a ∈ S
  closed : ∀ a ∈ S, ∀ o ∈ g.below a, g.hasOwner o = true → o ∈ S

namespace Clears

theorem mem_iff (H : Clears g os h S) : o ∈ S ↔ ∃ a ∈ os, g.Holds a o := by
  refine ⟨H.held o, ?_⟩
  rintro ⟨a, ha, ho⟩
  induction ho with
  | here hx => exact H.waiting _ ha (mem_owners.1 hx)
  | step _ ho hlive ih => exact H.closed _ ih _ ho (mem_owners.1 hlive)

/-- Passing over an entry that is gone. -/
theorem pass (H : Clears g os h S) (ho : g.hasOwner o = false) : Clears g (o :: os) h S where
  felled := H.felled
  held a ha := by
    obtain ⟨b, hb, hab⟩ := H.held a ha
    exact ⟨b, List.mem_cons_of_mem o hb, hab⟩
  waiting a ha hlive := by
    rcases List.mem_cons.1 ha with rfl | ha
    · rw [ho] at hlive; cases hlive
    · exact H.waiting a ha hlive
  closed := H.closed

/-- An entry is struck, what it owned goes, and then what waits. -/
theorem take {S' : List Owner} (hstrike : Cleared [o] g (g.strike o)) (ho : g.hasOwner o = true)
    (H : Clears (g.strike o) (g.below o) k S) (H' : Clears k os h S') :
    Clears g (o :: os) h (o :: (S ++ S')) := by
  have hmid : Cleared (o :: S) g k := Cleared.trans hstrike H.felled
  have hself : g.Holds o o := .here (mem_owners.2 ho)
  exact
    { felled := Cleared.trans hmid H'.felled
      held := fun b hb => by
        rcases List.mem_cons.1 hb with rfl | hb
        · exact ⟨b, List.mem_cons_self, hself⟩
        · rcases List.mem_append.1 hb with hb | hb
          · obtain ⟨a, ha, hab⟩ := H.held b hb
            have hab := hstrike.holds hab
            exact ⟨o, List.mem_cons_self, (Reaches.step hself ha hab.mem_left).trans hab⟩
          · obtain ⟨a, ha, hab⟩ := H'.held b hb
            exact ⟨a, List.mem_cons_of_mem o ha, hmid.holds hab⟩
      waiting := fun b hb hlive => by
        by_cases hgone : b ∈ o :: S
        · exact (List.cons_subset_cons o (List.subset_append_left S S')) hgone
        · have hk : k.hasOwner b = true := hmid.hasOwner_iff.2 ⟨hlive, hgone⟩
          rcases List.mem_cons.1 hb with rfl | hb
          · exact absurd List.mem_cons_self hgone
          · simp [H'.waiting b hb hk]
      closed := fun b hb c hc hlive => by
        by_cases hgone : c ∈ o :: S
        · exact (List.cons_subset_cons o (List.subset_append_left S S')) hgone
        · have hk : k.hasOwner c = true := hmid.hasOwner_iff.2 ⟨hlive, hgone⟩
          have hstay : (g.strike o).hasOwner c = true :=
            hstrike.hasOwner_iff.2 ⟨hlive, fun h => hgone (by simp_all)⟩
          by_cases hbS : b ∈ o :: S
          · -- what the struck entry, or one that went with it, owned went with it
            refine absurd ?_ hgone
            by_cases hbo : b = o
            · exact List.mem_cons_of_mem o (H.waiting c (hbo ▸ hc) hstay)
            · have hbS : b ∈ S := (List.mem_cons.1 hbS).resolve_left hbo
              have hc : c ∈ (g.strike o).below b := hstrike.mem_below_iff.2
                ⟨hc, by simpa using hbo, fun h => hgone (by simp_all)⟩
              exact List.mem_cons_of_mem o (H.closed b hbS c hc hstay)
          · have hb : b ∈ S' := by simp_all
            have hc : c ∈ k.below b := hmid.mem_below_iff.2 ⟨hc, hbS, hgone⟩
            simp [H'.closed b hb c hc hk] }

end Clears

/-- **What a run takes**: exactly what the waiting entries hold. -/
theorem Unwinds.clears (hrun : Unwinds g os h) (hr : g.Rooted) (hl : g.Listed) :
    ∃ S, Clears g os h S := by
  induction hrun with
  | done =>
      exact ⟨[], Pruned.refl.felled, fun o ho => absurd ho List.not_mem_nil,
        fun a ha => absurd ha List.not_mem_nil, fun a ha => absurd ha List.not_mem_nil⟩
  | gone ho _ ih =>
      obtain ⟨S, hS⟩ := ih hr hl
      exact ⟨S, hS.pass ho⟩
  | @take g h k o os ho _ _ ih ih' =>
      have hstrike := felled_strike hr hl o
      obtain ⟨S, hS⟩ := ih (hstrike.rooted hr) (hstrike.listed hl)
      obtain ⟨S', hS'⟩ := ih' (hS.felled.rooted (hstrike.rooted hr))
        (hS.felled.listed (hstrike.listed hl))
      exact ⟨o :: (S ++ S'), hS.take hstrike ho hS'⟩

theorem Compact.strike (hg : g.Compact) : (g.strike o).Compact := by
  cases o with
  | declaration d =>
      cases hx : g.declaration? d with
      | none => rw [strike_of_none hx]; exact hg
      | some x => rw [strike_of_some hx]; exact hg.uproot
  | reference r => exact hg.takeReference

theorem Unwinds.compact (hrun : Unwinds g os h) (hg : g.Compact) : h.Compact := by
  induction hrun with
  | done => exact hg
  | gone _ _ ih => exact ih hg
  | take _ _ _ ih ih' => exact ih' (ih hg.strike)

/-! ## Where it ends -/

/-- Fewer entries are there when one of them went. -/
theorem Cleared.length_lt (H : Cleared S g h) (hS : o ∈ S) (ho : g.hasOwner o = true) :
    h.owners.length < g.owners.length := by
  have hsub : h.owners ⊆ g.owners.erase o := fun a ha => by
    have ha := H.hasOwner_iff.1 (mem_owners.1 ha)
    have hne : a ≠ o := fun he => ha.2 (he ▸ hS)
    exact (List.mem_erase_of_ne hne).2 (mem_owners.2 ha.1)
  have hle := (nodup_owners.subperm hsub).length_le
  have hmem : o ∈ g.owners := mem_owners.2 ho
  have hpos := List.length_pos_of_mem hmem
  rw [List.length_erase_of_mem hmem] at hle
  omega

/-- **Every run ends**, whatever the links look like. -/
theorem exists_unwinds (hr : g.Rooted) (hl : g.Listed) (os : List Owner) : ∃ h, Unwinds g os h := by
  induction hn : g.owners.length using Nat.strongRecOn generalizing g os with
  | _ n ih =>
      subst hn
      induction os with
      | nil => exact ⟨g, .done⟩
      | cons o os ihos =>
          cases ho : g.hasOwner o with
          | false =>
              obtain ⟨h, hh⟩ := ihos
              exact ⟨h, .gone ho hh⟩
          | true =>
              have hstrike := felled_strike hr hl o
              obtain ⟨k, hk⟩ := ih _ (hstrike.length_lt List.mem_cons_self ho)
                (hstrike.rooted hr) (hstrike.listed hl) (g.below o) rfl
              obtain ⟨S, hS⟩ := hk.clears (hstrike.rooted hr) (hstrike.listed hl)
              have hmid : Cleared (o :: S) g k := Cleared.trans hstrike hS.felled
              obtain ⟨h, hh⟩ := ih _ (hmid.length_lt List.mem_cons_self ho) (hmid.rooted hr)
                (hmid.listed hl) os rfl
              exact ⟨h, .take ho hk hh⟩

/-- **The recursion ends where the removal of the subtree does**, and nowhere else. -/
theorem unwinds_iff (hr : g.Rooted) (ho : g.Owned) (hc : g.Compact) :
    Unwinds g [.declaration id] k ↔ k = g.removeDeclaration id := by
  have hone : ∀ k, Unwinds g [.declaration id] k → k = g.removeDeclaration id := by
    intro k hk
    obtain ⟨S, hS⟩ := hk.clears hr ho.listed
    have hmem : ∀ o, o ∈ S ↔ g.Holds (.declaration id) o := fun o => by simp [hS.mem_iff]
    have hids : ∀ c, c ∈ g.subtree id ↔ c ∈ declarationsIn S := fun c => by
      rw [mem_declarationsIn, hmem, holds_declaration_iff, mem_subtree]
    have hgone : ∀ r, r ∈ (g.subtree id).flatMap g.referencesFrom ↔ r ∈ referencesIn S := fun r => by
      simp only [mem_referencesIn, hmem, holds_declaration_iff, List.mem_flatMap, mem_subtree]
    have hfelled : Felled (g.subtree id) ((g.subtree id).flatMap g.referencesFrom) g
        (g.removeDeclaration id) := felled_foldl_takeDeclaration hr ho _
    exact (hk.compact hc).eq_of_felled (hc.foldl_takeDeclaration _) hS.felled
      ((hfelled.congr_left hids).congr ho.listed fun r _ => hgone r)
  refine ⟨hone k, ?_⟩
  rintro rfl
  obtain ⟨h, hh⟩ := exists_unwinds hr ho.listed [.declaration id]
  exact hone h hh ▸ hh

end Deadwood.Graph

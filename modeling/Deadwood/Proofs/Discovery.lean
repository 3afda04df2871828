/-
  Searches that note a node when they find it.

  1. **Program (`Discovery.turn`)** — a search holds what it found and what of it still waits.  In
     its turn it takes up a node that waits, and what that leads to and was not found before is found
     and waits from then on.  So nothing waits twice, and the start is never found again.

  2. **Why it ends (`Open.step`)** — a node that was taken up is never taken up again: the nodes that
     may still be are one fewer after each turn.

  3. **What it finds** — whatever is taken up first, what a path leads to (`exists_turns`).  Taking
     up the oldest first, exactly the list of `explore .breadthFirst`, which notes a node only when
     it visits it (`exists_turns_breadthFirst`); by then the node may wait several times, but the
     first time counts.
-/
import Deadwood.Proofs.Search
import Mathlib.Data.List.Nodup
import Mathlib.Data.Nat.Init
import Mathlib.Logic.Function.Iterate

namespace Deadwood

universe u

section Explore

variable {α : Type u} [DecidableEq α] {next : α → List α} {nodes : List α} {z : α}

/-- Breadth first, it does not matter if something waits a second time. -/
theorem explore_breadthFirst_skip {a b : List α} (hn : nodes.Nodup) (hz : z ∈ nodes → z ∈ a) :
    explore .breadthFirst next nodes (a ++ z :: b) = explore .breadthFirst next nodes (a ++ b) := by
  induction hlen : nodes.length using Nat.strong_induction_on generalizing nodes a b with
  | _ n ih =>
      induction a with
      | nil => exact explore_cons_of_not_mem fun hmem => absurd (hz hmem) List.not_mem_nil
      | cons y a iha =>
          have hlater : z ∈ nodes → z ≠ y → z ∈ a := fun hmem hne =>
            List.mem_of_ne_of_mem hne (hz hmem)
          by_cases hy : y ∈ nodes
          · have hshort := List.length_erase_of_mem hy
            have hpos := List.length_pos_of_mem hy
            have hrest : z ∈ nodes.erase y → z ∈ a := fun hmem =>
              have hmem := hn.mem_erase_iff.1 hmem
              hlater hmem.2 hmem.1
            have hnext := ih _ (by omega) (b := b ++ next y) (hn.erase y) hrest rfl
            rw [List.cons_append, List.cons_append, explore_cons_of_mem hy, explore_cons_of_mem hy]
            refine congrArg (y :: ·) ?_
            simpa only [Strategy.join, List.append_assoc, List.cons_append] using hnext
          · rw [List.cons_append, List.cons_append, explore_cons_of_not_mem hy,
              explore_cons_of_not_mem hy]
            exact iha fun hmem => hlater hmem fun he => hy (he ▸ hmem)

/-- Where one node at most waits at a time, both strategies are the same. -/
theorem explore_of_length_le {todo : List α} (ht : todo.length ≤ 1)
    (hnext : ∀ a, (next a).length ≤ 1) :
    explore .depthFirst next nodes todo = explore .breadthFirst next nodes todo := by
  induction hlen : nodes.length using Nat.strong_induction_on generalizing nodes todo with
  | _ n ih =>
      match todo, ht with
      | [], _ => rw [explore_nil, explore_nil]
      | [y], _ =>
          by_cases hy : y ∈ nodes
          · have hshort := List.length_erase_of_mem hy
            have hpos := List.length_pos_of_mem hy
            rw [explore_cons_of_mem hy, explore_cons_of_mem hy]
            simp only [Strategy.join, List.append_nil, List.nil_append]
            rw [ih _ (by omega) (hnext y) rfl]
          · rw [explore_cons_of_not_mem hy, explore_cons_of_not_mem hy, explore_nil, explore_nil]

end Explore

/-- A search under way: what was found, in the order of finding, and what of it still waits. -/
structure Discovery (α : Type u) where
  found : List α
  waiting : List α

namespace Discovery

variable {α : Type u} [DecidableEq α]

/-- A search that begins at a node. -/
def start (x : α) : Discovery α := ⟨[x], [x]⟩

/-- What in a list was not found before, each once. -/
def fresh (found : List α) : List α → List α
  | [] => []
  | x :: xs => if x ∈ found then fresh found xs else x :: fresh (x :: found) xs

/-- One turn: the first node that waits is taken up, and what is found from it joins those that
wait.  Where nothing waits, the search is over. -/
def turn (join : List α → List α → List α) (next : α → List α) (s : Discovery α) : Discovery α :=
  match s.waiting with
  | [] => s
  | x :: rest => ⟨s.found ++ fresh s.found (next x), join (fresh s.found (next x)) rest⟩

variable {join : List α → List α → List α} {next : α → List α} {nodes found xs : List α}
  {s : Discovery α} {x z : α}

theorem mem_fresh : z ∈ fresh found xs ↔ z ∈ xs ∧ z ∉ found := by
  induction xs generalizing found with
  | nil => simp [fresh]
  | cons x xs ih =>
      unfold fresh
      split
      · rename_i hx
        rw [ih, List.mem_cons]
        exact and_congr_left fun hz => (or_iff_right fun he : z = x => hz (he ▸ hx)).symm
      · rename_i hx
        rw [List.mem_cons, List.mem_cons, ih, List.mem_cons]
        by_cases hz : z = x
        · subst hz
          simp [hx]
        · simp [hz]

theorem nodup_fresh : (fresh found xs).Nodup := by
  induction xs generalizing found with
  | nil => exact .nil
  | cons x xs ih =>
      unfold fresh
      split
      · exact ih
      · exact List.nodup_cons.2 ⟨fun h => (mem_fresh.1 h).2 List.mem_cons_self, ih⟩

/-- Breadth first, it does not matter if something waits that was found before and waits already. -/
theorem explore_breadthFirst_fresh {a : List α} (hn : nodes.Nodup)
    (ha : ∀ z ∈ nodes, z ∈ found → z ∈ a) :
    explore .breadthFirst next nodes (a ++ xs) =
      explore .breadthFirst next nodes (a ++ fresh found xs) := by
  induction xs generalizing a found with
  | nil => rfl
  | cons x xs ih =>
      unfold fresh
      split
      · rename_i hx
        rw [explore_breadthFirst_skip hn fun hmem => ha x hmem hx, ih ha]
      · have hmore : ∀ z ∈ nodes, z ∈ x :: found → z ∈ a ++ [x] := by
          intro z hz hf
          rcases List.mem_cons.1 hf with rfl | hf
          · exact List.mem_append_right _ List.mem_cons_self
          · exact List.mem_append_left _ (ha z hz hf)
        simpa only [List.append_assoc, List.singleton_append] using ih (a := a ++ [x]) hmore

/-- The nodes that a search may still take up.  What waits is what was found of them. -/
structure Open (next : α → List α) (nodes : List α) (s : Discovery α) : Prop where
  nodup : nodes.Nodup
  found_nodup : s.found.Nodup
  waiting_nodup : s.waiting.Nodup
  waiting_iff : ∀ z, z ∈ s.waiting ↔ z ∈ s.found ∧ z ∈ nodes
  inside : ∀ x y, y ∈ next x → y ∈ s.found ∨ y ∈ nodes

omit [DecidableEq α] in
theorem open_start (hn : nodes.Nodup) (hx : x ∈ nodes) (hnext : ∀ a, next a ⊆ nodes) :
    Open next nodes (start x) where
  nodup := hn
  found_nodup := List.nodup_singleton x
  waiting_nodup := List.nodup_singleton x
  waiting_iff z := by
    show z ∈ [x] ↔ z ∈ [x] ∧ z ∈ nodes
    rw [List.mem_singleton]
    exact (and_iff_left_of_imp fun he => he ▸ hx).symm
  inside a y hy := .inr (hnext a hy)

/-- **After a turn there is one node less to take up.** -/
theorem Open.step (hs : Open next nodes s) (hjoin : ∀ new rest, (join new rest).Perm (new ++ rest))
    {rest : List α} (hw : s.waiting = x :: rest) :
    Open next (nodes.erase x) (s.turn join next) := by
  have hmem : ∀ z, z ∈ x :: rest ↔ z ∈ s.found ∧ z ∈ nodes := hw ▸ hs.waiting_iff
  obtain ⟨hxr, hrest⟩ := List.nodup_cons.1 (hw ▸ hs.waiting_nodup)
  have hxf : x ∈ s.found := ((hmem x).1 List.mem_cons_self).1
  have hturn : s.turn join next =
      ⟨s.found ++ fresh s.found (next x), join (fresh s.found (next x)) rest⟩ := by
    rw [turn, hw]
  rw [hturn]
  refine ⟨hs.nodup.erase x, ?_, ?_, fun z => ?_, fun a y hy => ?_⟩
  · refine List.nodup_append'.2 ⟨hs.found_nodup, nodup_fresh, fun z hf hz => ?_⟩
    exact (mem_fresh.1 hz).2 hf
  · refine ((hjoin _ _).nodup_iff).2 (List.nodup_append'.2 ⟨nodup_fresh, hrest, fun z hz hr => ?_⟩)
    exact (mem_fresh.1 hz).2 ((hmem z).1 (List.mem_cons_of_mem x hr)).1
  · rw [(hjoin _ _).mem_iff, List.mem_append, List.mem_append, hs.nodup.mem_erase_iff]
    constructor
    · rintro (hz | hz)
      · obtain ⟨hzx, hzf⟩ := mem_fresh.1 hz
        exact ⟨.inr hz, fun he => hzf (he ▸ hxf), (hs.inside x z hzx).resolve_left hzf⟩
      · obtain ⟨hzf, hzn⟩ := (hmem z).1 (List.mem_cons_of_mem x hz)
        exact ⟨.inl hzf, fun he => hxr (he ▸ hz), hzn⟩
    · rintro ⟨hzf | hz, hne, hzn⟩
      · exact .inr (List.mem_of_ne_of_mem hne ((hmem z).2 ⟨hzf, hzn⟩))
      · exact .inl hz
  · rw [List.mem_append, hs.nodup.mem_erase_iff]
    rcases hs.inside a y hy with hyf | hyn
    · exact .inl (.inl hyf)
    · by_cases he : y = x
      · exact .inl (.inl (he ▸ hxf))
      · exact .inr ⟨he, hyn⟩

/-- **A search ends, and has found what paths lead to from what waited**, whatever it takes up
first. -/
theorem exists_turns (hs : Open next nodes s)
    (hjoin : ∀ new rest, (join new rest).Perm (new ++ rest)) :
    ∃ n more, (turn join next)^[n] s = ⟨s.found ++ more, []⟩ ∧ (s.found ++ more).Nodup ∧
      ∀ z, z ∈ s.found ++ more ↔ z ∈ s.found ∨ ∃ w ∈ s.waiting, Reaches next nodes w z := by
  induction hlen : nodes.length using Nat.strong_induction_on generalizing nodes s with
  | _ k ih =>
      cases hw : s.waiting with
      | nil =>
          refine ⟨0, [], ?_, by simpa using hs.found_nodup, fun z => by simp⟩
          rw [Function.iterate_zero_apply, List.append_nil, ← hw]
      | cons x rest =>
          have hmem : ∀ z, z ∈ x :: rest ↔ z ∈ s.found ∧ z ∈ nodes := hw ▸ hs.waiting_iff
          obtain ⟨hxf, hxn⟩ := (hmem x).1 List.mem_cons_self
          have hshort := List.length_erase_of_mem hxn
          have hpos := List.length_pos_of_mem hxn
          have hturn : s.turn join next =
              ⟨s.found ++ fresh s.found (next x), join (fresh s.found (next x)) rest⟩ := by
            rw [turn, hw]
          obtain ⟨n, more, hrun, hnodup, hfound⟩ := ih _ (by omega) (hs.step hjoin hw) rfl
          rw [hturn] at hrun hnodup hfound
          simp only [List.append_assoc] at hrun hnodup hfound
          refine ⟨n + 1, fresh s.found (next x) ++ more, ?_, hnodup, fun z => ?_⟩
          · rw [Function.iterate_succ_apply, hturn]
            exact hrun
          · -- a path from what waited leads on from what waits now, or ends at the node itself
            have hpath : (∃ w ∈ x :: rest, Reaches next nodes w z) ↔
                z = x ∨ ∃ w, (w ∈ next x ∨ w ∈ rest) ∧ Reaches next (nodes.erase x) w z := by
              have hvisit : z ∈ explore .depthFirst next nodes (x :: rest) ↔ _ := mem_explore_iff
              rw [← hvisit, explore_cons_of_mem hxn, List.mem_cons, mem_explore_iff]
              simp only [Strategy.mem_join]
            rw [hfound, hpath]
            simp only [(hjoin _ _).mem_iff, List.mem_append, mem_fresh]
            constructor
            · rintro ((hz | ⟨hz, hzf⟩) | ⟨w, ⟨hw, -⟩ | hw, hwz⟩)
              · exact .inl hz
              · have hzn := (hs.inside x z hz).resolve_left hzf
                exact .inr (.inr ⟨z, .inl hz, .here (hs.nodup.mem_erase_iff.2
                  ⟨fun he => hzf (he ▸ hxf), hzn⟩)⟩)
              · exact .inr (.inr ⟨w, .inl hw, hwz⟩)
              · exact .inr (.inr ⟨w, .inr hw, hwz⟩)
            · rintro (hz | rfl | ⟨w, hw | hw, hwz⟩)
              · exact .inl (.inl hz)
              · exact .inl (.inl hxf)
              · by_cases hwf : w ∈ s.found
                · -- found before and not taken up yet, so it waits
                  obtain ⟨hne, hwn⟩ := hs.nodup.mem_erase_iff.1 hwz.mem_left
                  exact .inr ⟨w, .inr (List.mem_of_ne_of_mem hne ((hmem w).2 ⟨hwf, hwn⟩)), hwz⟩
                · exact .inr ⟨w, .inl ⟨hw, hwf⟩, hwz⟩
              · exact .inr ⟨w, .inr hw, hwz⟩

/-- What was found last is taken up first. -/
def stack (new rest : List α) : List α := new.reverse ++ rest

omit [DecidableEq α] in
theorem perm_stack (new rest : List α) : (stack new rest).Perm (new ++ rest) :=
  (List.reverse_perm new).append_right rest

/-- What was found first is taken up first. -/
def queue (new rest : List α) : List α := rest ++ new

omit [DecidableEq α] in
theorem perm_queue (new rest : List α) : (queue new rest).Perm (new ++ rest) :=
  List.perm_append_comm

/-- **Taking up the oldest first finds the nodes in the order of `explore`.** -/
theorem exists_turns_breadthFirst (hs : Open next nodes s) {visited : List α}
    (hf : s.found = visited ++ s.waiting) :
    ∃ n, (turn queue next)^[n] s =
      ⟨visited ++ explore .breadthFirst next nodes s.waiting, []⟩ := by
  induction hlen : nodes.length using Nat.strong_induction_on generalizing nodes s visited with
  | _ k ih =>
      cases hw : s.waiting with
      | nil =>
          refine ⟨0, ?_⟩
          rw [Function.iterate_zero_apply, explore_nil, ← hw, ← hf]
      | cons x rest =>
          have hmem : ∀ z, z ∈ x :: rest ↔ z ∈ s.found ∧ z ∈ nodes := hw ▸ hs.waiting_iff
          have hxn : x ∈ nodes := ((hmem x).1 List.mem_cons_self).2
          have hshort := List.length_erase_of_mem hxn
          have hpos := List.length_pos_of_mem hxn
          have hturn : s.turn queue next =
              ⟨s.found ++ fresh s.found (next x), rest ++ fresh s.found (next x)⟩ := by
            rw [turn, hw]
            rfl
          have hf' : (s.turn queue next).found = (visited ++ [x]) ++ (s.turn queue next).waiting := by
            rw [hturn, hf, hw]
            simp only [List.append_assoc, List.cons_append, List.nil_append]
          obtain ⟨n, hrun⟩ := ih _ (by omega) (hs.step perm_queue hw) hf' rfl
          refine ⟨n + 1, ?_⟩
          have hwaits : ∀ z ∈ nodes.erase x, z ∈ s.found → z ∈ rest := by
            intro z hz hzf
            obtain ⟨hne, hzn⟩ := hs.nodup.mem_erase_iff.1 hz
            exact List.mem_of_ne_of_mem hne ((hmem z).2 ⟨hzf, hzn⟩)
          rw [Function.iterate_succ_apply, hrun, hturn, explore_cons_of_mem hxn]
          simp only [Strategy.join, List.append_assoc, List.singleton_append]
          rw [← explore_breadthFirst_fresh (hs.nodup.erase x) hwaits]

end Discovery

end Deadwood

/-
  A search breadth first visits what is nearer before what is farther.

  1. **`LeadsIn`** — paths with the number of their steps; `Nearer n` says that some path has fewer
     steps than `n`.  The distance is the least number of steps, where there is a path at all.

  2. **Invariant (`Levelled`)** — what waits is a front of nodes that `k` steps lead to, and behind it
     nodes that one step more leads to.  Everything nearer than `k` was visited, and what is just as
     near is in the front.

  3. **Crux (`pairwise_explore`)** — so the node visited next is `k` steps away, and whatever is
     visited later is not nearer.
-/
import Deadwood.Proofs.Search
import Mathlib.Data.List.TakeWhile
import Mathlib.Data.Nat.Find
import Mathlib.Order.Bounds.Basic

namespace Deadwood

universe u

variable {α : Type u} {next : α → List α} {nodes : List α} {k n : Nat} {x y z : α}

/-- `LeadsIn next n x y`: a path of `n` steps leads from `x` to `y`. -/
def LeadsIn (next : α → List α) : Nat → α → α → Prop
  | 0, x, y => y = x
  | n + 1, x, z => ∃ y, LeadsIn next n x y ∧ z ∈ next y

/-- `Nearer next n x y`: fewer than `n` steps lead from `x` to `y`. -/
def Nearer (next : α → List α) (n : Nat) (x y : α) : Prop := ∃ m < n, LeadsIn next m x y

/-- `IsDistance next x y n`: the shortest path from `x` to `y` has `n` steps. -/
def IsDistance (next : α → List α) (x y : α) (n : Nat) : Prop := IsLeast {m | LeadsIn next m x y} n

theorem reflTransGen_iff_leadsIn :
    Relation.ReflTransGen (fun a b => b ∈ next a) x y ↔ ∃ n, LeadsIn next n x y := by
  constructor
  · intro h
    induction h with
    | refl => exact ⟨0, rfl⟩
    | tail _ hz ih =>
        obtain ⟨n, hn⟩ := ih
        exact ⟨n + 1, _, hn, hz⟩
  · rintro ⟨n, hn⟩
    induction n generalizing y with
    | zero =>
        cases hn
        exact .refl
    | succ n ih =>
        obtain ⟨z, hz, hy⟩ := hn
        exact (ih hz).tail hy

/-- What a path leads to has a distance. -/
theorem exists_isDistance (h : Relation.ReflTransGen (fun a b => b ∈ next a) x y) :
    ∃ n, IsDistance next x y n := by
  classical
  have hex := reflTransGen_iff_leadsIn.1 h
  exact ⟨Nat.find hex, Nat.find_spec hex, fun m hm => Nat.find_min' hex hm⟩

/-- Only the start is at no distance. -/
theorem IsDistance.pos (h : IsDistance next x y n) (hne : y ≠ x) : 0 < n := by
  cases n with
  | zero => exact absurd h.1 hne
  | succ n => exact Nat.succ_pos n

/-! ## Fronts -/

/-- Where a search breadth first from `x` stands: `front` and then `beyond` wait, and `nodes` were
not visited yet. -/
structure Levelled (next : α → List α) (x : α) (k : Nat) (nodes front beyond : List α) : Prop where
  front_near : ∀ z ∈ front, Nearer next (k + 1) x z
  beyond_near : ∀ z ∈ beyond, Nearer next (k + 2) x z
  /-- Everything nearer was visited. -/
  visited : ∀ z ∈ nodes, ¬ Nearer next k x z
  in_front : ∀ z ∈ nodes, Nearer next (k + 1) x z → z ∈ front
  /-- What was visited has handed on what it leads to. -/
  handed_on : ∀ n y, LeadsIn next n x y → y ∉ nodes → ∀ z ∈ next y, z ∈ nodes → z ∈ front ++ beyond

theorem levelled_start (hx : x ∈ nodes) (hnext : ∀ a, next a ⊆ nodes) :
    Levelled next x 0 nodes [x] [] where
  front_near z hz := ⟨0, Nat.one_pos, List.mem_singleton.1 hz⟩
  beyond_near z hz := absurd hz List.not_mem_nil
  visited z _ := fun ⟨_, hm, _⟩ => absurd hm (Nat.not_lt_zero _)
  in_front z _ := by
    rintro ⟨m, hm, hz⟩
    obtain rfl : m = 0 := by omega
    exact List.mem_singleton.2 hz
  handed_on n y hy hout := by
    have hlive : y ∈ nodes := by
      cases n with
      | zero => exact hy ▸ hx
      | succ n =>
          obtain ⟨w, -, hw⟩ := hy
          exact hnext w hw
    exact absurd hlive hout

namespace Levelled

variable {front beyond : List α}

/-- A front that was visited makes way for the nodes beyond it. -/
theorem advance (h : Levelled next x k nodes front beyond) (hf : ∀ z ∈ front, z ∉ nodes) :
    Levelled next x (k + 1) nodes beyond [] where
  front_near := h.beyond_near
  beyond_near z hz := absurd hz List.not_mem_nil
  visited z hz hnear := hf z (h.in_front z hz hnear) hz
  in_front z hz := by
    rintro ⟨m, hm, hpath⟩
    have hnear : ¬ Nearer next (k + 1) x z := fun hnear => hf z (h.in_front z hz hnear) hz
    obtain rfl : m = k + 1 := by
      by_contra hne
      exact hnear ⟨m, by omega, hpath⟩
    -- the last step starts at a node of the front, which was visited
    obtain ⟨y, hy, hyz⟩ := hpath
    have hout : y ∉ nodes := fun hyn => hf y (h.in_front y hyn ⟨k, by omega, hy⟩) hyn
    rcases List.mem_append.1 (h.handed_on k y hy hout z hyz hz) with hzf | hzb
    · exact absurd hz (hf z hzf)
    · exact hzb
  handed_on n y hy hout z hyz hz := by
    rcases List.mem_append.1 (h.handed_on n y hy hout z hyz hz) with hzf | hzb
    · exact absurd hz (hf z hzf)
    · exact List.mem_append_left _ hzb

/-- The first node of the front that was not visited yet is visited. -/
theorem visit [DecidableEq α] {passed rest : List α}
    (h : Levelled next x k nodes (passed ++ y :: rest) beyond)
    (hp : ∀ z ∈ passed, z ∉ nodes) (hn : nodes.Nodup) :
    Levelled next x k (nodes.erase y) rest (beyond ++ next y) where
  front_near z hz := h.front_near z (List.mem_append_right _ (List.mem_cons_of_mem _ hz))
  beyond_near z hz := by
    rcases List.mem_append.1 hz with hz | hz
    · exact h.beyond_near z hz
    · obtain ⟨m, hm, hy⟩ := h.front_near y (List.mem_append_right _ List.mem_cons_self)
      exact ⟨m + 1, by omega, y, hy, hz⟩
  visited z hz := h.visited z (List.mem_of_mem_erase hz)
  in_front z hz hnear := by
    obtain ⟨hne, hz⟩ := hn.mem_erase_iff.1 hz
    rcases List.mem_append.1 (h.in_front z hz hnear) with hzp | hzr
    · exact absurd hz (hp z hzp)
    · exact List.mem_of_ne_of_mem hne hzr
  handed_on n w hw hout z hwz hz := by
    obtain ⟨hne, hz⟩ := hn.mem_erase_iff.1 hz
    by_cases hwy : w = y
    · subst hwy
      exact List.mem_append_right _ (List.mem_append_right _ hwz)
    · have hout : w ∉ nodes := fun hmem => hout (hn.mem_erase_iff.2 ⟨hwy, hmem⟩)
      rcases List.mem_append.1 (h.handed_on n w hw hout z hwz hz) with hzf | hzb
      · rcases List.mem_append.1 hzf with hzp | hzr
        · exact absurd hz (hp z hzp)
        · exact List.mem_append_left _ (List.mem_of_ne_of_mem hne hzr)
      · exact List.mem_append_right _ (List.mem_append_left _ hzb)

/-- The node visited next is in the front, possibly after the front has advanced. -/
theorem next_visit [DecidableEq α] {todo rest : List α} (h : Levelled next x k nodes front beyond)
    (htodo : todo = front ++ beyond) (hn : nodes.Nodup)
    (hd : todo.dropWhile (fun z => !nodes.contains z) = y :: rest) :
    ∃ k front beyond, Nearer next (k + 1) x y ∧ (∀ z ∈ nodes, ¬ Nearer next k x z) ∧
      Levelled next x k (nodes.erase y) front beyond ∧ rest ++ next y = front ++ beyond := by
  obtain ⟨passed, hpassed⟩ : ∃ passed, passed = todo.takeWhile fun z => !nodes.contains z := ⟨_, rfl⟩
  have hp : ∀ z ∈ passed, z ∉ nodes := fun z hz => by
    rw [hpassed] at hz
    simpa using List.mem_takeWhile_imp hz
  have hsplit : front ++ beyond = passed ++ y :: rest := by
    rw [← htodo, ← hd, hpassed, List.takeWhile_append_dropWhile]
  rcases List.append_eq_append_iff.1 hsplit with ⟨more, rfl, rfl⟩ | ⟨ahead, rfl, hahead⟩
  · -- the whole front was visited
    have hadv := h.advance fun z hz => hp z (List.mem_append_left _ hz)
    have hmore : ∀ z ∈ more, z ∉ nodes := fun z hz => hp z (List.mem_append_right _ hz)
    refine ⟨k + 1, rest, next y, hadv.front_near y (List.mem_append_right _ List.mem_cons_self),
      hadv.visited, ?_, rfl⟩
    simpa using hadv.visit hmore hn
  · cases ahead with
    | nil =>
        rw [List.append_nil] at h
        rw [List.nil_append] at hahead
        subst hahead
        have hadv := h.advance hp
        refine ⟨k + 1, rest, next y, hadv.front_near y List.mem_cons_self, hadv.visited, ?_, rfl⟩
        have hnone : ∀ z ∈ ([] : List α), z ∉ nodes := fun z hz => absurd hz List.not_mem_nil
        simpa using hadv.visit hnone hn
    | cons a ahead =>
        obtain ⟨rfl, rfl⟩ := List.cons.inj hahead
        refine ⟨k, ahead, beyond ++ next y,
          h.front_near y (List.mem_append_right _ List.mem_cons_self), h.visited, h.visit hp hn, ?_⟩
        exact List.append_assoc ahead beyond (next y)

end Levelled

/-- **What is visited first is not farther away**: no path to something later is shorter than every
path to something earlier. -/
theorem Levelled.pairwise_explore [DecidableEq α] {front beyond todo : List α}
    (h : Levelled next x k nodes front beyond) (htodo : todo = front ++ beyond) (hn : nodes.Nodup) :
    (explore .breadthFirst next nodes todo).Pairwise fun y z =>
      ∀ n, LeadsIn next n x z → Nearer next (n + 1) x y := by
  fun_induction explore .breadthFirst next nodes todo generalizing k front beyond with
  | case1 => exact .nil
  | case2 nodes todo y rest hd ih =>
      obtain ⟨k, front, beyond, hy, hvisited, hlater, hrest⟩ := h.next_visit htodo hn hd
      refine List.pairwise_cons.2 ⟨fun z hz n hpath => ?_, ih hlater hrest (hn.erase y)⟩
      have hz : z ∈ nodes := List.mem_of_mem_erase (mem_nodes_of_mem_explore hz)
      have hk : k ≤ n := by
        by_contra hlt
        exact hvisited z hz ⟨n, by omega, hpath⟩
      obtain ⟨m, hm, hpath⟩ := hy
      exact ⟨m, by omega, hpath⟩

/-- **A search breadth first visits nodes by their distance.** -/
theorem pairwise_distance_explore [DecidableEq α] (hx : x ∈ nodes) (hn : nodes.Nodup)
    (hnext : ∀ a, next a ⊆ nodes) :
    (explore .breadthFirst next nodes [x]).Pairwise fun y z =>
      ∀ m n, IsDistance next x y m → IsDistance next x z n → m ≤ n := by
  refine ((levelled_start hx hnext).pairwise_explore rfl hn).imp fun h m n hm hn => ?_
  obtain ⟨l, hl, hpath⟩ := h n hn.1
  exact (hm.2 hpath).trans (Nat.lt_succ_iff.1 hl)

end Deadwood

/-
  What a search finds, and that it does not depend on the names of the nodes.

  1. **Steps** — the first node that waits is visited, or passed over (`explore_cons_of_mem`,
     `explore_cons_of_not_mem`).

  2. **Soundness and completeness (`mem_explore_iff`)** — a search visits exactly the nodes that a
     path inside the allowed nodes leads to.  The measure strikes visited nodes off, so the crux is
     `Reaches.avoid`: a path to another node can be cut at its last visit of the node struck off.

  3. **Naming (`explore_map`)** — renaming the nodes, their successors and the waiting list renames
     the answer, in the same order.

  4. **Sets only (`mem_explore_map_iff`)** — where the successors correspond as sets and not as
     lists, so do the answers.

  5. **Locality (`explore_congr`)** — a search does not read the successors of what it cannot come to.
-/
import Deadwood.Search
import Mathlib.Logic.Equiv.Basic
import Mathlib.Data.List.Nodup
import Mathlib.Logic.Relation

namespace Deadwood

universe u v

namespace Reaches

variable {α : Type u} {next : α → List α} {nodes more : List α} {x y z : α}

theorem mem_left (h : Reaches next nodes x y) : x ∈ nodes := by
  induction h with
  | here hx => exact hx
  | step _ _ _ ih => exact ih

theorem mem_right (h : Reaches next nodes x y) : y ∈ nodes := by
  cases h with
  | here hx => exact hx
  | step _ _ hz => exact hz

/-- More edges and more allowed nodes leave every path where it is. -/
theorem imp {next' : α → List α} (hnext : ∀ x, next x ⊆ next' x) (hn : nodes ⊆ more)
    (h : Reaches next nodes x y) : Reaches next' more x y := by
  induction h with
  | here hx => exact .here (hn hx)
  | step _ hz hm ih => exact .step ih (hnext _ hz) (hn hm)

theorem mono (hn : nodes ⊆ more) (h : Reaches next nodes x y) : Reaches next more x y :=
  h.imp (fun _ => List.Subset.refl _) hn

theorem trans (h : Reaches next nodes x y) (h' : Reaches next nodes y z) :
    Reaches next nodes x z := by
  induction h' with
  | here _ => exact h
  | step _ hz hm ih => exact .step ih hz hm

/-- A path that begins one step earlier. -/
theorem head (hx : x ∈ nodes) (hy : y ∈ next x) (h : Reaches next nodes y z) :
    Reaches next nodes x z :=
  (Reaches.step (.here hx) hy h.mem_left).trans h

/-- **Cutting a path**: what is reached from elsewhere is reached without `v`, or from a successor
of `v`. -/
theorem avoid [DecidableEq α] {v : α} (h : Reaches next nodes x y) (hy : y ≠ v) :
    (x ≠ v ∧ Reaches next (nodes.erase v) x y) ∨
      ∃ z ∈ next v, Reaches next (nodes.erase v) z y := by
  induction h with
  | here hx => exact .inl ⟨hy, .here ((List.mem_erase_of_ne hy).2 hx)⟩
  | @step y z _ hz hm ih =>
      have hm : z ∈ nodes.erase v := (List.mem_erase_of_ne hy).2 hm
      by_cases hv : y = v
      · subst hv
        exact .inr ⟨z, hz, .here hm⟩
      · rcases ih hv with ⟨hx, ih⟩ | ⟨w, hw, ih⟩
        · exact .inl ⟨hx, .step ih hz hm⟩
        · exact .inr ⟨w, hw, .step ih hz hm⟩

end Reaches

/-- Where successors are allowed, paths need not ask. -/
theorem reaches_iff_reflTransGen {α : Type u} {next : α → List α} {nodes : List α}
    {x y : α} (hx : x ∈ nodes) (hnext : ∀ a, next a ⊆ nodes) :
    Reaches next nodes x y ↔ Relation.ReflTransGen (fun a b => b ∈ next a) x y := by
  constructor
  · intro h
    induction h with
    | here _ => exact .refl
    | step _ hz _ ih => exact ih.tail hz
  · intro h
    induction h with
    | refl => exact .here hx
    | tail _ hz ih => exact .step ih hz (hnext _ hz)

theorem Strategy.mem_join {α : Type u} {strategy : Strategy} {new waiting : List α} {x : α} :
    x ∈ strategy.join new waiting ↔ x ∈ new ∨ x ∈ waiting := by
  cases strategy <;> simp [Strategy.join, or_comm]

theorem Strategy.map_join {α : Type u} {β : Type v} {strategy : Strategy} {f : α → β}
    {new waiting : List α} :
    strategy.join (new.map f) (waiting.map f) = (strategy.join new waiting).map f := by
  cases strategy <;> simp [Strategy.join]

section

variable {α : Type u} [DecidableEq α] {strategy : Strategy} {next : α → List α}

@[simp] theorem explore_nil {nodes : List α} : explore strategy next nodes [] = [] := by
  rw [explore]
  rfl

/-- An allowed node that waits first is visited. -/
theorem explore_cons_of_mem {nodes rest : List α} {x : α} (hx : x ∈ nodes) :
    explore strategy next nodes (x :: rest) =
      x :: explore strategy next (nodes.erase x) (strategy.join (next x) rest) := by
  have hd : (x :: rest).dropWhile (fun y => !nodes.contains y) = x :: rest := by simp [hx]
  rw [explore]
  split
  · rename_i h
    rw [hd] at h
    cases h
  · rename_i y ys h
    rw [hd] at h
    cases h
    rfl

/-- Any other node is passed over. -/
theorem explore_cons_of_not_mem {nodes rest : List α} {x : α} (hx : x ∉ nodes) :
    explore strategy next nodes (x :: rest) = explore strategy next nodes rest := by
  have hd : (x :: rest).dropWhile (fun y => !nodes.contains y) =
      rest.dropWhile fun y => !nodes.contains y := by simp [hx]
  rw [explore, explore, hd]

/-- An allowed node that waits is still waiting when the others are passed over. -/
theorem mem_dropWhile_of_mem {nodes todo : List α} {x : α} (hx : x ∈ todo) (hn : x ∈ nodes) :
    x ∈ todo.dropWhile fun x => !nodes.contains x := by
  induction todo with
  | nil => cases hx
  | cons y ys ih =>
      by_cases hy : y ∈ nodes
      · simpa [List.dropWhile_cons, hy] using hx
      · rcases List.mem_cons.1 hx with rfl | hx
        · exact absurd hn hy
        · simpa [List.dropWhile_cons, hy] using ih hx

theorem exists_reaches_of_mem_explore {nodes todo : List α} {y : α}
    (h : y ∈ explore strategy next nodes todo) : ∃ x ∈ todo, Reaches next nodes x y := by
  fun_induction explore strategy next nodes todo with
  | case1 => cases h
  | case2 nodes todo x rest hx ih =>
      obtain ⟨hxn, hxt⟩ := mem_of_dropWhile_eq_cons hx
      rcases List.mem_cons.1 h with rfl | h
      · exact ⟨y, hxt, .here hxn⟩
      · obtain ⟨z, hz, hr⟩ := ih h
        have hr := hr.mono List.erase_subset
        rcases Strategy.mem_join.1 hz with hz | hz
        · exact ⟨x, hxt, hr.head hxn hz⟩
        · have : z ∈ todo.dropWhile fun x => !nodes.contains x := by
            rw [hx]; exact List.mem_cons_of_mem _ hz
          exact ⟨z, (List.dropWhile_sublist _).subset this, hr⟩

theorem mem_explore_of_reaches {nodes todo : List α} {x y : α} (hx : x ∈ todo)
    (h : Reaches next nodes x y) : y ∈ explore strategy next nodes todo := by
  fun_induction explore strategy next nodes todo generalizing x with
  | case1 nodes todo hd =>
      have := mem_dropWhile_of_mem hx h.mem_left
      rw [hd] at this
      cases this
  | case2 nodes todo v rest hd ih =>
      by_cases hy : y = v
      · subst hy; exact List.mem_cons_self
      · refine List.mem_cons_of_mem _ ?_
        rcases h.avoid hy with ⟨hxv, h'⟩ | ⟨z, hz, h'⟩
        · -- the path avoids the visited node, so it begins at another waiting one
          have hxr : x ∈ v :: rest := hd ▸ mem_dropWhile_of_mem hx h.mem_left
          exact ih (Strategy.mem_join.2 (.inr (List.mem_of_ne_of_mem hxv hxr))) h'
        · exact ih (Strategy.mem_join.2 (.inl hz)) h'

/-- **A search visits exactly what a path leads to.** -/
theorem mem_explore_iff {nodes todo : List α} {y : α} :
    y ∈ explore strategy next nodes todo ↔ ∃ x ∈ todo, Reaches next nodes x y :=
  ⟨exists_reaches_of_mem_explore, fun ⟨_, hx, h⟩ => mem_explore_of_reaches hx h⟩

end

/-! ## Naming -/

section

variable {α : Type u} {β : Type v} [DecidableEq α] [DecidableEq β] {strategy : Strategy}
  {next : α → List α} {next' : β → List β} {f : α → β}

theorem dropWhile_map {nodes : List α} {nodes' : List β} (hn : ∀ x, f x ∈ nodes' ↔ x ∈ nodes)
    (todo : List α) :
    ((todo.map f).dropWhile fun y => !nodes'.contains y) =
      (todo.dropWhile fun x => !nodes.contains x).map f := by
  induction todo with
  | nil => rfl
  | cons x xs ih =>
      by_cases hx : x ∈ nodes
      · simp [hn, hx]
      · simpa [List.dropWhile_cons, hn, hx] using ih

/-- **A search does not depend on the names of the nodes.** -/
theorem explore_map (hf : Function.Injective f) (hnext : ∀ x, next' (f x) = (next x).map f)
    {nodes todo : List α} {nodes' : List β} (hd : nodes.Nodup) (hd' : nodes'.Nodup)
    (hn : ∀ x, f x ∈ nodes' ↔ x ∈ nodes) :
    explore strategy next' nodes' (todo.map f) = (explore strategy next nodes todo).map f := by
  fun_induction explore strategy next nodes todo generalizing nodes' with
  | case1 nodes todo hx =>
      rw [explore]
      have hx' := dropWhile_map hn todo
      rw [hx] at hx'
      split
      · rfl
      · rename_i h; rw [h] at hx'; cases hx'
  | case2 nodes todo x rest hx ih =>
      rw [explore]
      have hx' := dropWhile_map hn todo
      rw [hx] at hx'
      split
      · rename_i h; rw [h] at hx'; cases hx'
      · rename_i y rest' h
        rw [h, List.map_cons] at hx'
        obtain ⟨rfl, rfl⟩ := List.cons.inj hx'
        rw [hnext, Strategy.map_join, List.map_cons]
        refine congrArg _ (ih (hd.erase x) (hd'.erase _) fun z => ?_)
        rw [hd'.mem_erase_iff, hd.mem_erase_iff, hn, hf.ne_iff]

end

theorem reaches_map {α : Type u} {β : Type v} (f : α → β) {next : α → List α}
    {next' : β → List β} {nodes : List α} {nodes' : List β} {x y : α}
    (hnext : ∀ x y, y ∈ next x → f y ∈ next' (f x)) (hn : ∀ x ∈ nodes, f x ∈ nodes')
    (h : Reaches next nodes x y) : Reaches next' nodes' (f x) (f y) := by
  induction h with
  | here hx => exact .here (hn _ hx)
  | step _ hz hm ih => exact .step ih (hnext _ _ hz) (hn _ hm)

/-- Where the successors correspond as sets, so do the nodes that a search visits. -/
theorem mem_explore_map_iff {α : Type u} {β : Type v} [DecidableEq α] [DecidableEq β]
    {strategy : Strategy} {next : α → List α} {next' : β → List β} (f : α ≃ β)
    (hnext : ∀ x y, f y ∈ next' (f x) ↔ y ∈ next x) {nodes todo : List α}
    {nodes' todo' : List β} (hn : ∀ x, f x ∈ nodes' ↔ x ∈ nodes)
    (ht : ∀ x, f x ∈ todo' ↔ x ∈ todo) {y : α} :
    f y ∈ explore strategy next' nodes' todo' ↔ y ∈ explore strategy next nodes todo := by
  rw [mem_explore_iff, mem_explore_iff]
  constructor
  · rintro ⟨x, hx, h⟩
    have h : Reaches next nodes (f.symm x) (f.symm (f y)) :=
      reaches_map f.symm (fun a b hb => (hnext _ _).1 (by simpa using hb))
        (fun a ha => (hn _).1 (by simpa using ha)) h
    exact ⟨f.symm x, (ht _).1 (by simpa using hx), by simpa using h⟩
  · rintro ⟨x, hx, h⟩
    exact ⟨f x, (ht x).2 hx, reaches_map f (fun a b => (hnext a b).2) (fun a => (hn a).2) h⟩

/-! ## Locality -/

/-- **A search depends on the successors of what it can come to.** -/
theorem explore_congr {α : Type u} [DecidableEq α] {strategy : Strategy} {next next' : α → List α}
    {S : α → Prop} (hsame : ∀ x, S x → next' x = next x) (hclosed : ∀ x, S x → ∀ y ∈ next x, S y)
    {nodes todo : List α} (ht : ∀ x ∈ todo, S x) :
    explore strategy next' nodes todo = explore strategy next nodes todo := by
  fun_induction explore strategy next nodes todo with
  | case1 nodes todo hx =>
      rw [explore]
      split
      · rfl
      · rename_i h; rw [h] at hx; cases hx
  | case2 nodes todo x rest hx ih =>
      have hS : S x := ht x (mem_of_dropWhile_eq_cons hx).2
      have hrest : ∀ y ∈ rest, S y := fun y hy =>
        ht y ((List.dropWhile_sublist _).subset (hx ▸ List.mem_cons_of_mem x hy))
      rw [explore]
      split
      · rename_i h; rw [h] at hx; cases hx
      · rename_i y rest' h
        rw [hx] at h
        obtain ⟨rfl, rfl⟩ := List.cons.inj h
        rw [hsame x hS]
        refine congrArg _ (ih fun y hy => ?_)
        exact (Strategy.mem_join.1 hy).elim (hclosed x hS y) (hrest y)

end Deadwood

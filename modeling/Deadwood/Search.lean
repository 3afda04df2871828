/-
  Searching a finite graph without visiting anything twice.

  1. **Program** — `explore join next nodes todo` visits the first waiting node that is still
     allowed, strikes it off the list `nodes` of allowed nodes, and lets its successors wait in
     front of the others (depth first) or behind them (breadth first).  The answer is the list of
     nodes in the order of their visits.

  2. **Why it ends** — every visit strikes one node off a finite list, so `nodes` itself is the
     measure and no separate set of visited nodes is needed.  Cycles do no harm.

  3. **Specification** — `Reaches` is the reflexive and transitive closure of the edges that stay
     among the allowed nodes.  A visited node was allowed and no node is visited twice
     (`mem_nodes_of_mem_explore`, `nodup_explore`).
-/

namespace Deadwood

universe u

/-- Where the successors of a visited node wait: before or behind those already waiting. -/
inductive Strategy where
  | depthFirst
  | breadthFirst
  deriving DecidableEq, Repr

/-- The waiting list after the successors `new` joined the nodes `waiting`. -/
def Strategy.join {α : Type u} : Strategy → (new waiting : List α) → List α
  | .depthFirst, new, waiting => new ++ waiting
  | .breadthFirst, new, waiting => waiting ++ new

/-- A node that is visited first was waiting and allowed. -/
theorem mem_of_dropWhile_eq_cons {α : Type u} [DecidableEq α] {nodes todo rest : List α}
    {x : α}
    (h : (todo.dropWhile fun x => !nodes.contains x) = x :: rest) : x ∈ nodes ∧ x ∈ todo := by
  constructor
  · have := List.head?_dropWhile_not (fun x => !nodes.contains x) todo
    rw [h] at this
    simpa using this
  · exact (List.dropWhile_sublist _).subset (h ▸ List.mem_cons_self)

/-- The nodes found from `todo` through `next`, among `nodes`, each once, in the order of visits. -/
def explore {α : Type u} [DecidableEq α] (strategy : Strategy) (next : α → List α)
    (nodes todo : List α) : List α :=
  match _hx : todo.dropWhile fun x => !nodes.contains x with
  | [] => []
  | x :: rest => x :: explore strategy next (nodes.erase x) (strategy.join (next x) rest)
termination_by nodes.length
decreasing_by
  have hx := (mem_of_dropWhile_eq_cons ‹_›).1
  have := List.length_pos_of_mem hx
  rw [List.length_erase_of_mem hx]
  omega

/-- `Reaches next nodes x y`: a path leads from `x` to `y` and stays among `nodes`. -/
inductive Reaches {α : Type u} (next : α → List α) (nodes : List α) : α → α → Prop where
  | here {x : α} : x ∈ nodes → Reaches next nodes x x
  | step {x y z : α} : Reaches next nodes x y → z ∈ next y → z ∈ nodes → Reaches next nodes x z

section

variable {α : Type u} [DecidableEq α] {strategy : Strategy} {next : α → List α}

/-- **Only allowed nodes are visited.** -/
theorem mem_nodes_of_mem_explore {nodes todo : List α} {y : α}
    (h : y ∈ explore strategy next nodes todo) : y ∈ nodes := by
  fun_induction explore strategy next nodes todo with
  | case1 => cases h
  | case2 nodes todo x rest hx ih =>
      rcases List.mem_cons.1 h with rfl | h
      · exact (mem_of_dropWhile_eq_cons hx).1
      · exact List.mem_of_mem_erase (ih h)

/-- **No node is visited twice**, when no node is listed twice among the allowed ones. -/
theorem nodup_explore {nodes todo : List α} (hn : nodes.Nodup) :
    (explore strategy next nodes todo).Nodup := by
  fun_induction explore strategy next nodes todo with
  | case1 => exact .nil
  | case2 nodes todo x rest hx ih =>
      refine List.nodup_cons.2 ⟨fun h => ?_, ih (hn.erase x)⟩
      exact hn.not_mem_erase (mem_nodes_of_mem_explore h)

end

example : explore .depthFirst (fun n => [2 * n, 2 * n + 1]) (List.range 8) [1] =
    [1, 2, 4, 5, 3, 6, 7] := by decide +kernel
example : explore .breadthFirst (fun n => [2 * n, 2 * n + 1]) (List.range 8) [1] =
    [1, 2, 3, 4, 5, 6, 7] := by decide +kernel

end Deadwood

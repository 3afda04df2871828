/-
  What a pass over the graph leaves behind: the graph, the warnings it gave, and why it gave up,
  if it did.  A pass that gives up keeps what it had changed until then.
-/
import Deadwood.Fault
import Deadwood.Graph.Basic
import Deadwood.Warning

namespace Deadwood

/-- The outcome of a pass. -/
structure Outcome where
  graph : Graph
  warnings : List Warning := []
  fault : Option Fault := none

namespace Outcome

/-- A pass that went through without a warning. -/
def done (g : Graph) : Outcome := { graph := g }

/-- A pass that gave up. -/
def failed (g : Graph) (fault : Fault) : Outcome := { graph := g, fault := some fault }

/-- Go on with a graph and an answer, or give up where there is only a fault. -/
def andThen {α : Type} (g : Graph) (answer : Except Fault α) (next : α → Outcome) : Outcome :=
  match answer with
  | .ok a => next a
  | .error fault => failed g fault

end Outcome

end Deadwood

/-
  Obeying directives.

  A declaration with the directive to ignore it, or in a file with the directive to ignore all,
  is retained and not reported, and so is everything nested in it.  Parameters that a directive
  names are retained.
-/
import Deadwood.Graph.Edit

namespace Deadwood.Directives

/-- Whether the file of a declaration asks to be left alone. -/
def isInIgnoredFile (g : Graph) (d : Declaration) : Bool :=
  (g.file? d.location.file).any fun file => file.directives.contains .ignoreAll

/-- The declarations that directives suppress. -/
def suppressed (g : Graph) : List DeclId :=
  let addressed := g.declIdsWhere fun d => isInIgnoredFile g d || d.directives.contains .ignore
  addressed.flatMap fun id => id :: g.descendants id

/-- The names of the parameters that a declaration's directives keep. -/
def keptNames (d : Declaration) : List String :=
  d.directives.flatMap fun
    | .ignoreParameters names => names
    | _ => []

/-- The unused parameters that directives keep. -/
def keptParameters (g : Graph) : List DeclId :=
  g.declIds.flatMap fun id =>
    match g.declaration? id with
    | some d => d.parameters.toList.filter fun p =>
        (g.declaration? p).any fun parameter => (keptNames d).contains parameter.nameText
    | none => []

/-- Obey the directives of the program. -/
def obey (g : Graph) : Graph :=
  let suppressed := suppressed g
  ((g.retainAll suppressed).markAll .ignored suppressed).retainAll (keptParameters g)

end Deadwood.Directives

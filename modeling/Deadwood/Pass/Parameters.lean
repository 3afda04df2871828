/-
  Unused parameters that have to stay.

  Functions joined by structural references to functions (overrides, requirements and what
  satisfies them) form a family, which must keep one signature.  A parameter unused in one function
  stays when another one of the family uses it, and all stay when the family reaches outside of the
  program, or, if the settings say so, contains a requirement.  The parameters of a requirement
  always stay, and so does a parameter named by the low line.
-/
import Deadwood.Graph.Edit
import Deadwood.Settings.Basic

namespace Deadwood.Parameters

/-- The functions of the program, without accessors. -/
def functions (g : Graph) : List DeclId :=
  g.declarationsWhere fun d => d.kind.isFunction && !d.kind.isAccessor

/-- The identifiers of functions that a function is structurally related to. -/
def relatedUsrs (g : Graph) (function : DeclId) : List String :=
  match g.declaration? function with
  | some d => d.related.toList.filterMap fun r =>
      ((g.reference? r).filter (·.kind.isFunction)).map (·.usr)
  | none => []

/-- The functions that a function is structurally related to, each pair in both directions. -/
def links (g : Graph) (functions : List DeclId) : List (DeclId × DeclId) :=
  functions.flatMap fun f =>
    let targets := (relatedUsrs g f).flatMap g.declarationsWithUsr
    (targets.filter functions.contains).flatMap fun t => [(f, t), (t, f)]

/-- Whether a function is structurally related to something foreign. -/
def hasForeignBase (g : Graph) (function : DeclId) : Bool :=
  (relatedUsrs g function).any fun usr => (g.declarationsWithUsr usr).isEmpty

/-- The family of a function. -/
def family (functions : List DeclId) (links : List (DeclId × DeclId)) (f : DeclId) : List DeclId :=
  explore .depthFirst (fun x => (links.filter (·.1 = x)).map (·.2)) functions [f]

/-- The unused parameters of a function, with their names. -/
def namedParameters (g : Graph) (function : DeclId) : List (DeclId × String) :=
  match g.declaration? function with
  | some d => d.parameters.toList.filterMap fun p =>
      (g.declaration? p).map fun parameter => (p, parameter.nameText)
  | none => []

/-- Whether a function does not list a name among its unused parameters. -/
def usesName (g : Graph) (function : DeclId) (name : String) : Bool :=
  !(namedParameters g function).any (·.2 == name)

/-- The unused parameters of a function that have to stay, given its family. -/
def keptOf (s : Settings) (g : Graph) (family : List DeclId) (function : DeclId) : List DeclId :=
  let parameters := namedParameters g function
  let keepAll := family.any (hasForeignBase g) ||
    (s.retainUnusedProtocolFuncParams && family.any g.isProtocolMember)
  if keepAll || g.isProtocolMember function then parameters.map (·.1)
  else
    let siblings := family.filter fun m => m ≠ function && !g.isProtocolMember m
    (parameters.filter fun p => p.2 == "_" || siblings.any (usesName g · p.2)).map (·.1)

/-- The unused parameters that have to stay. -/
def kept (s : Settings) (g : Graph) : List DeclId :=
  let functions := functions g
  let links := links g functions
  functions.flatMap fun f => keptOf s g (family functions links f) f

end Deadwood.Parameters

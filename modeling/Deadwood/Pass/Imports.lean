/-
  Import statements that contribute nothing to their file.

  An import is judged only when its module has files in the program, is not one of the file's own
  modules and is not passed on.  It contributes when a reference in the file leads to a declaration
  of a module in its closure: the module itself and all that is passed on from there.
-/
import Deadwood.Graph.Edit

namespace Deadwood.Imports

/-- The modules whose declarations are referred to from a file. -/
def referredModules (g : Graph) (path : Path) : SortedSet String :=
  let here := g.refIdsWhere fun r => r.location.file.same path
  let usrs := here.filterMap fun id => (g.reference? id).map (·.usr)
  let targets := usrs.flatMap g.declarationsWithUsr
  targets.foldl (fun modules id =>
    match g.declaration? id with
    | some d => modules.union (g.modulesOf d.location.file)
    | none => modules) ∅

/-- The modules that a module passes on: as recorded for it, when it has files, and through the
exported imports of its files. -/
def passedOn (g : Graph) (module : String) : List String :=
  let recorded := if g.indexedModules.contains module then (g.exportedModules module).toList else []
  let files := g.files.values.filter fun file => file.modules.contains module
  let imported := files.flatMap fun file => (file.imports.filter (·.isExported)).map (·.module)
  recorded ++ imported

/-- Every module that something passes on. -/
def exportTargets (g : Graph) : List String :=
  g.exports.values.flatMap (·.toList) ++
    g.files.values.flatMap fun file => file.imports.map (·.module)

/-- A module and all that is passed on from there. -/
def closure (g : Graph) (module : String) : List String :=
  explore .depthFirst (passedOn g) (module :: exportTargets g).eraseDups [module]

/-- Whether an import statement of a file contributes nothing. -/
def isUnused (g : Graph) (file : SourceFile) (i : ImportStatement) : Bool :=
  !i.isExported && g.indexedModules.contains i.module && !file.modules.contains i.module &&
    (closure g i.module).all fun module => !(referredModules g file.path).contains module

/-- The import statements that contribute nothing. -/
def unused (g : Graph) : List UnusedImport :=
  g.files.values.flatMap fun file =>
    (file.imports.filter (isUnused g file)).map fun i => ⟨i.module, file.importLocation i⟩

/-- Record the import statements that contribute nothing. -/
def markUnused (g : Graph) : Graph := (unused g).foldl Graph.recordUnusedImport g

end Deadwood.Imports

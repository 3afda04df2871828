/-
  The graph of declarations and references.

  1. **State** — two arenas, three indices into them, the roots, four sets of marks, and what the
     analyses found out.  Every component has one representation only, so two graphs that answer
     all questions alike are equal values.

  2. **View** — `declaration?` and `reference?`: what a handle names, if it names anything.  A
     handle that was never given out, or whose entry was removed, names nothing.

  3. **Results** — the marks name live declarations; the maps of folded extensions and of
     redundancies may keep handles of declarations that are gone.
-/
import Deadwood.Arena
import Deadwood.Reference
import Deadwood.SortedMap
import Deadwood.SourceFile

namespace Deadwood

open Std

/-- A mark on a declaration. -/
inductive Mark where
  /-- Alive, whatever uses it. -/
  | retained
  /-- Reached from a root. -/
  | used
  /-- Not to be reported. -/
  | ignored
  /-- Only ever written, through its setter. -/
  | assignOnly
  deriving DecidableEq, Repr

/-- The marked declarations, by mark. -/
structure Marks where
  retained : SortedSet DeclId := ∅
  used : SortedSet DeclId := ∅
  ignored : SortedSet DeclId := ∅
  assignOnly : SortedSet DeclId := ∅
  deriving DecidableEq

namespace Marks

/-- The declarations with a mark. -/
def of (m : Marks) : Mark → SortedSet DeclId
  | .retained => m.retained
  | .used => m.used
  | .ignored => m.ignored
  | .assignOnly => m.assignOnly

/-- Put a mark on a declaration. -/
def add (m : Marks) (mark : Mark) (id : DeclId) : Marks :=
  match mark with
  | .retained => { m with retained := m.retained.insert id }
  | .used => { m with used := m.used.insert id }
  | .ignored => { m with ignored := m.ignored.insert id }
  | .assignOnly => { m with assignOnly := m.assignOnly.insert id }

/-- Take every mark off a declaration. -/
def forget (m : Marks) (id : DeclId) : Marks :=
  { retained := m.retained.erase id, used := m.used.erase id,
    ignored := m.ignored.erase id, assignOnly := m.assignOnly.erase id }

end Marks

/-- A protocol that types conform to and that nothing uses. -/
structure RedundantProtocol where
  /-- The conformance clauses that name it. -/
  references : SortedSet RefId
  /-- Its own inheritance clause. -/
  inherited : SortedSet RefId
  deriving DecidableEq

/-- A tier wider than the uses of the declaration need. -/
structure RedundantAccess where
  declared : Tier
  /-- The narrowest tier that serves every use. -/
  suggested : Tier
  modules : SortedSet String
  file : Path
  deriving DecidableEq

/-- An import statement that contributes nothing to its file. -/
structure UnusedImport where
  module : String
  location : Location
  deriving DecidableEq

namespace UnusedImport

instance : Ord UnusedImport := ⟨compareLex (compareOn module) (compareOn (·.location.place))⟩
instance : TransOrd UnusedImport :=
  inferInstanceAs (TransCmp (compareLex (compareOn module) (compareOn (·.location.place))))

end UnusedImport

/-- Everything known about the analysed program. -/
structure Graph where
  declarations : Arena Declaration := ∅
  references : Arena Reference := ∅
  /-- The declarations that carry an identifier. -/
  declarationsByUsr : Index String DeclId := ∅
  declarationsByKind : Index Kind DeclId := ∅
  /-- The references that name an identifier. -/
  referencesByUsr : Index String RefId := ∅
  roots : SortedSet DeclId := ∅
  rootReferences : SortedSet RefId := ∅
  marks : Marks := {}
  /-- Extensions that are gone, and the declarations that took over their members. -/
  folded : SortedMap DeclId DeclId := ∅
  redundantProtocols : SortedMap DeclId RedundantProtocol := ∅
  redundantAccess : SortedMap DeclId RedundantAccess := ∅
  unusedImports : SortedSet UnusedImport := ∅
  /-- The files, by the components of their paths. -/
  files : SortedMap (List Component) SourceFile := ∅
  /-- The modules that a module passes on. -/
  exports : Index String String := ∅
  assets : SortedSet AssetReference := ∅
  deriving DecidableEq

namespace Graph

instance : Inhabited Graph := ⟨{}⟩
instance : EmptyCollection Graph := ⟨{}⟩

/-- The declaration that a handle names. -/
def declaration? (g : Graph) (id : DeclId) : Option Declaration := g.declarations.get? id.index

/-- The reference that a handle names. -/
def reference? (g : Graph) (id : RefId) : Option Reference := g.references.get? id.index

def hasDeclaration (g : Graph) (id : DeclId) : Bool := (g.declaration? id).isSome

def hasReference (g : Graph) (id : RefId) : Bool := (g.reference? id).isSome

/-- Whether an owner is in the graph. -/
def hasOwner (g : Graph) : Owner → Bool
  | .declaration id => g.hasDeclaration id
  | .reference id => g.hasReference id

/-- The handles of the live declarations, ascending. -/
def declIds (g : Graph) : List DeclId := g.declarations.live.map DeclId.mk

/-- The handles of the live references, ascending. -/
def refIds (g : Graph) : List RefId := g.references.live.map RefId.mk

/-- The handles of the live declarations that satisfy a condition, ascending. -/
def declIdsWhere (g : Graph) (p : Declaration → Bool) : List DeclId :=
  g.declIds.filter fun id => (g.declaration? id).any p

/-- The handles of the live references that satisfy a condition, ascending. -/
def refIdsWhere (g : Graph) (p : Reference → Bool) : List RefId :=
  g.refIds.filter fun id => (g.reference? id).any p

def declarationCount (g : Graph) : Nat := g.declarations.count

def referenceCount (g : Graph) : Nat := g.references.count

/-- Whether a declaration has a mark. -/
def isMarked (g : Graph) (mark : Mark) (id : DeclId) : Bool := (g.marks.of mark).contains id

def isRetained (g : Graph) (id : DeclId) : Bool := g.isMarked .retained id

def isUsed (g : Graph) (id : DeclId) : Bool := g.isMarked .used id

def isIgnored (g : Graph) (id : DeclId) : Bool := g.isMarked .ignored id

/-! ## Files and modules -/

/-- The file of a path, whatever its spelling. -/
def file? (g : Graph) (path : Path) : Option SourceFile := g.files.find? path.components

/-- The modules that a file is compiled into; none for an unknown file. -/
def modulesOf (g : Graph) (path : Path) : SortedSet String :=
  ((g.file? path).map (·.modules)).getD ∅

/-- The modules of all files. -/
def indexedModules (g : Graph) : SortedSet String :=
  g.files.values.foldl (fun all file => all.union file.modules) ∅

/-- The modules that a module passes on, as recorded. -/
def exportedModules (g : Graph) (module : String) : SortedSet String := Index.get g.exports module

end Graph

end Deadwood

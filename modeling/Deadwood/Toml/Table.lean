/-
  The tables of a TOML document, while it is read.

  1. **Program** — a document is a list of assignments, in sections under headers.  `assign` and
     `Section.enter` put them where they belong, and `update` leads there: it follows the names of
     a path and makes the tables that are not there yet.

  2. **Rules** — a name is given once.  A table is under one header at most, and no header names a
     table that assignments have made.  An assignment with a path adds only to tables that
     assignments with paths have made.
-/
import Deadwood.Toml.Value

namespace Deadwood.Toml

/-- What a name stands for while the document is read. -/
inductive Item where
  | value (v : Value)
  /-- A table; `isImplicit` holds when no header names it, `byAssignment` when the path of an
  assignment has made it. -/
  | table (isImplicit byAssignment : Bool) (entries : List (String × Item))
  /-- The tables of a header that stands more than once, in order. -/
  | tables (items : List (List (String × Item)))
  deriving Inhabited

/-- The names of a table. -/
abbrev Entries := List (String × Item)

namespace Entries

/-- Give a name another meaning. -/
def replace (es : Entries) (name : String) (item : Item) : Entries :=
  es.map fun e => if e.1 == name then (name, item) else e

/-- Change the table at a path.  `change` is told whether the table was made by an assignment;
`byAssignment` says whether the path is that of an assignment. -/
def update (byAssignment : Bool) (change : Bool → Entries → Option Entries) :
    List String → Bool → Entries → Option Entries
  | [], made, es => change made es
  | name :: path, _, es =>
      match es.lookup name with
      | none => do
          let inner ← update byAssignment change path byAssignment []
          return es ++ [(name, .table true byAssignment inner)]
      | some (.value _) => none
      | some (.table isImplicit made inner) =>
          if byAssignment && !isImplicit then none
          else do
            let inner ← update byAssignment change path made inner
            return replace es name (.table isImplicit made inner)
      | some (.tables items) => do
          let inner ← update byAssignment change path false (items.getLast?.getD [])
          return replace es name (.tables (items.dropLast ++ [inner]))

/-- Give a name behind a path a value. -/
def assign (es : Entries) (path : List String) (name : String) (v : Value) : Option Entries :=
  update true (fun made inner =>
    if made == path.isEmpty || (inner.lookup name).isSome then none
    else some (inner ++ [(name, .value v)])) path false es

end Entries

/-- An assignment: a path, a name and a value. -/
structure Assignment where
  path : List String
  name : String
  value : Value

/-- The table that assignments make out of one that is there. -/
def assignAll (es : Entries) (assignments : List Assignment) : Option Entries :=
  assignments.foldlM (fun es a => Entries.assign es a.path a.name a.value) es

/-- A header: a table, or one more of several. -/
structure Header where
  isRepeated : Bool
  path : List String
  name : String

/-- A header with the assignments under it. -/
structure Section where
  header : Header
  assignments : List Assignment

/-- The table of a header, with the assignments under it. -/
def Section.enter (s : Section) (es : Entries) : Option Entries :=
  let name := s.header.name
  Entries.update false (fun _ inner =>
    match inner.lookup name, s.header.isRepeated with
    | none, false => do
        return inner ++ [(name, .table false false (← assignAll [] s.assignments))]
    | some (.table true false old), false => do
        return Entries.replace inner name (.table false false (← assignAll old s.assignments))
    | none, true => do return inner ++ [(name, .tables [← assignAll [] s.assignments])]
    | some (.tables items), true => do
        return Entries.replace inner name (.tables (items ++ [← assignAll [] s.assignments]))
    | _, _ => none) s.header.path false es

mutual

/-- The value of an item. -/
def Item.toValue : Item → Value
  | .value v => v
  | .table _ _ entries => .table (Item.entriesToValues entries)
  | .tables items => .array (Item.tablesToValues items)

/-- The values of the names of a table. -/
def Item.entriesToValues : List (String × Item) → List (String × Value)
  | [] => []
  | (name, item) :: rest => (name, item.toValue) :: Item.entriesToValues rest

/-- The values of several tables. -/
def Item.tablesToValues : List (List (String × Item)) → List Value
  | [] => []
  | entries :: rest => .table (Item.entriesToValues entries) :: Item.tablesToValues rest

end

/-- The value of a table. -/
def Entries.toValue (es : Entries) : Value := .table (Item.entriesToValues es)

/-- The table of a document: assignments in front of the first header, then sections. -/
def buildTable (top : List Assignment) (sections : List Section) : Option Value := do
  let es ← assignAll [] top
  return Entries.toValue (← sections.foldlM (fun es s => s.enter es) es)

end Deadwood.Toml

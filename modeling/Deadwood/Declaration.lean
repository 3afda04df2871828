/-
  Declarations.

  1. **`Symbol`** — what the source says of a declaration: its kind, identifiers, name, location,
     accessibility, attributes, modifiers, directives.

  2. **`Declaration`** — a symbol with its place in the graph: what encloses it, what is nested in
     it, and the references it owns.  Members and unused parameters are kept apart, and so are
     ordinary and structural references.

  3. **`Symbol.Key`** — the order of declarations, by location, kind, name and first identifier.
     It is read off the source alone, so it does not depend on the numbers of handles.
-/
import Deadwood.Access
import Deadwood.Directive
import Deadwood.Handle
import Deadwood.Kind
import Deadwood.Location
import Deadwood.SortedSet

namespace Deadwood

open Std

/-- What the source says of a declaration. -/
structure Symbol where
  kind : Kind
  /-- The identifiers; more than one where partial definitions were joined. -/
  usrs : SortedSet String
  /-- The name as written, such as `f(a:b:)` for a function. -/
  name : Option String := none
  location : Location
  access : Access := .unwritten
  /-- Attributes without the leading `@`. -/
  attributes : SortedSet String := ∅
  modifiers : SortedSet String := ∅
  directives : List Directive := []
  /-- Made by the compiler, not written in the source. -/
  isImplicit : Bool := false
  /-- Callable from the Objective-C runtime. -/
  isObjc : Bool := false
  deriving DecidableEq

namespace Symbol

/-- The name, empty where there is none. -/
def nameText (s : Symbol) : String := s.name.getD ""

/-- The name without its list of argument labels. -/
def baseName (s : Symbol) : String := String.ofList (s.nameText.toList.takeWhile (· != '('))

/-- The argument labels of a list that begins behind its opening parenthesis. -/
def labelsOf (inner : List Char) : Option (List String) :=
  match inner.reverse with
  | [')'] => some []
  | ')' :: ':' :: back => some ((Text.cutAt ':' back.reverse).map String.ofList)
  | _ => none

/-- The argument labels of a function's name; none where the name has no well-formed list. -/
def argumentLabels (s : Symbol) : Option (List String) :=
  match (s.nameText.toList.dropWhile (· != '(')) with
  | [] => none
  | _ :: inner => labelsOf inner

/-- The least identifier. -/
def firstUsr (s : Symbol) : String := s.usrs.least?.getD ""

def hasAttribute (s : Symbol) (name : String) : Bool := s.attributes.contains name

def hasModifier (s : Symbol) (name : String) : Bool := s.modifiers.contains name

def isOverride (s : Symbol) : Bool := s.hasModifier "override"

/-- Whether the symbol belongs to its type and not to the values of the type. -/
def isStatic (s : Symbol) : Bool :=
  s.hasModifier "static" || s.hasModifier "class" ||
    [Kind.staticMethod, .classMethod, .staticVariable, .classVariable].contains s.kind

/-- A symbol as messages show it. -/
def display (s : Symbol) : String := s!"{s.kind.noun} {s.nameText} ({s.location.text})"

/-! ## The order of declarations -/

/-- What declarations are ordered by. -/
structure Key where
  place : Place
  kind : Kind
  name : String
  usr : String
  deriving DecidableEq, Inhabited

namespace Key

instance : Ord Key :=
  ⟨compareLex (compareOn place)
    (compareLex (compareOn kind) (compareLex (compareOn name) (compareOn usr)))⟩
instance : TransOrd Key :=
  inferInstanceAs (TransCmp (compareLex (compareOn place)
    (compareLex (compareOn kind) (compareLex (compareOn name) (compareOn usr)))))

instance : LawfulEqOrd Key where
  eq_of_compare {a b} h := by
    have h : (compare a.place b.place).then ((compare a.kind b.kind).then
        ((compare a.name b.name).then (compare a.usr b.usr))) = .eq := h
    simp only [Ordering.then_eq_eq, Std.compare_eq_iff_eq] at h
    cases a; cases b; simp_all

end Key

/-- The key of a symbol. -/
def key (s : Symbol) : Key := ⟨s.location.place, s.kind, s.nameText, s.firstUsr⟩

end Symbol

/-- How a declaration is nested: as a member, or as a parameter found unused. -/
inductive Nesting where
  | member
  | unusedParameter
  deriving DecidableEq, Repr

/-- A declaration in the graph. -/
structure Declaration extends Symbol where
  /-- The declaration that encloses it; none for a root. -/
  parent : Option DeclId := none
  members : SortedSet DeclId := ∅
  parameters : SortedSet DeclId := ∅
  /-- Ordinary uses made by the declaration. -/
  references : SortedSet RefId := ∅
  /-- Structural uses: inheritance, conformance, override. -/
  related : SortedSet RefId := ∅
  deriving DecidableEq

namespace Declaration

/-- Everything nested directly in the declaration: members, then unused parameters. -/
def children (d : Declaration) : List DeclId := d.members.toList ++ d.parameters.toList

/-- The references the declaration owns directly, ordinary ones first. -/
def ownReferences (d : Declaration) : List RefId := d.references.toList ++ d.related.toList

/-- Nest another declaration. -/
def addChild (d : Declaration) (nesting : Nesting) (id : DeclId) : Declaration :=
  match nesting with
  | .member => { d with members := d.members.insert id }
  | .unusedParameter => { d with parameters := d.parameters.insert id }

/-- Nest another declaration no longer. -/
def dropChild (d : Declaration) (id : DeclId) : Declaration :=
  { d with members := d.members.erase id, parameters := d.parameters.erase id }

/-- Own another reference, as a structural one or as an ordinary one. -/
def addReference (d : Declaration) (isRelated : Bool) (id : RefId) : Declaration :=
  if isRelated then { d with related := d.related.insert id }
  else { d with references := d.references.insert id }

/-- Own a reference no longer. -/
def dropReference (d : Declaration) (id : RefId) : Declaration :=
  { d with references := d.references.erase id, related := d.related.erase id }

end Declaration

end Deadwood

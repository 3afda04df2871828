/-
  References.

  1. **`Mention`** — what the source says of a reference: the identifier it names, the kind of
     what it names, the name used, where it stands and in which role.

  2. **`Reference`** — a mention with its place in the graph: the declaration or the reference
     that owns it, and the references nested in its expression.

  3. **`Mention.Key`** — identifier, place and whether the reference is structural.  Two mentions
     with the same key are the same edge, and references are ordered by their keys.
-/
import Deadwood.Declaration

namespace Deadwood

open Std

/-- The syntactic position of a reference. -/
inductive Role where
  | unknown
  | varType
  | returnType
  | parameterType
  | genericParameterType
  | genericRequirementType
  | inheritedType
  | refinedProtocolType
  | variableInitFunctionCall
  | functionCallMetatypeArgument
  | extendedType
  deriving DecidableEq, Repr, Inhabited

namespace Role

def all : List Role := [
    unknown, varType, returnType, parameterType, genericParameterType, genericRequirementType,
    inheritedType, refinedProtocolType, variableInitFunctionCall, functionCallMetatypeArgument,
    extendedType]

/-- The name of a role in documents. -/
def label : Role → String
  | unknown => "unknown"
  | varType => "var_type"
  | returnType => "return_type"
  | parameterType => "parameter_type"
  | genericParameterType => "generic_parameter_type"
  | genericRequirementType => "generic_requirement_type"
  | inheritedType => "inherited_type"
  | refinedProtocolType => "refined_protocol_type"
  | variableInitFunctionCall => "variable_init_function_call"
  | functionCallMetatypeArgument => "function_call_metatype_argument"
  | extendedType => "extended_type"

/-- The role of that name in documents. -/
def ofLabel? (text : String) : Option Role := all.find? fun r => r.label == text

/-- Roles in the signature of a declaration. -/
def isSignature : Role → Bool
  | varType | returnType | parameterType | genericParameterType | genericRequirementType
  | inheritedType | refinedProtocolType => true
  | _ => false

/-- Roles in an inheritance or conformance clause. -/
def isConformance : Role → Bool
  | inheritedType | refinedProtocolType => true
  | _ => false

end Role

/-- What the source says of a reference. -/
structure Mention where
  /-- The kind of what is named. -/
  kind : Kind
  /-- The identifier of what is named. -/
  usr : String
  /-- The name used. -/
  name : Option String := none
  location : Location
  role : Role := .unknown
  /-- Structural (inheritance, conformance, override), not a use. -/
  isRelated : Bool := false
  deriving DecidableEq

namespace Mention

/-- The name used, empty where there is none. -/
def nameText (m : Mention) : String := m.name.getD ""

/-- Whether the mention stands in an inheritance or conformance clause, or is structural. -/
def isStructural (m : Mention) : Bool := m.isRelated || m.role.isConformance

/-- The identity of a reference, and what references are ordered by. -/
structure Key where
  place : Place
  usr : String
  isRelated : Bool
  deriving DecidableEq, Inhabited

namespace Key

instance : Ord Key :=
  ⟨compareLex (compareOn place) (compareLex (compareOn usr) (compareOn isRelated))⟩
instance : TransOrd Key :=
  inferInstanceAs (TransCmp
    (compareLex (compareOn place) (compareLex (compareOn usr) (compareOn isRelated))))

instance : LawfulEqOrd Key where
  eq_of_compare {a b} h := by
    have h : (compare a.place b.place).then
        ((compare a.usr b.usr).then (compare a.isRelated b.isRelated)) = .eq := h
    simp only [Ordering.then_eq_eq, Std.compare_eq_iff_eq] at h
    cases a; cases b; simp_all

end Key

/-- The key of a mention. -/
def key (m : Mention) : Key := ⟨m.location.place, m.usr, m.isRelated⟩

end Mention

/-- A mention of the symbol itself, at its own location. -/
def Symbol.mention (s : Symbol) (isRelated : Bool) : Mention :=
  { kind := s.kind, usr := s.firstUsr, name := some s.nameText, location := s.location,
    isRelated }

/-- What owns a reference: a declaration, or the reference in whose expression it is nested. -/
inductive Owner where
  | declaration (id : DeclId)
  | reference (id : RefId)
  deriving DecidableEq, Repr

/-- A reference in the graph. -/
structure Reference extends Mention where
  /-- What owns the reference; none for a root. -/
  owner : Option Owner := none
  /-- The references nested in its expression. -/
  nested : SortedSet RefId := ∅
  deriving DecidableEq

end Deadwood

/-
  Kinds of declarations.

  A kind says what a declaration is: a type, an extension, an accessor, a function, a variable.
  References carry kinds too: the kind of the declaration they point at.  The order of the
  constructors is the order in which kinds are compared; `Kind.all` lists them in that order.
-/

namespace Deadwood

open Std

/-- What a declaration is, as the index reports it. -/
inductive Kind where
  | associatedType
  | classType
  | enumType
  | enumCase
  | protocolType
  | structType
  | typeAlias
  | genericParameter
  | plainExtension
  | classExtension
  | enumExtension
  | protocolExtension
  | structExtension
  | addressAccessor
  | didSetAccessor
  | getter
  | initAccessor
  | modifyAccessor
  | mutableAddressAccessor
  | readAccessor
  | setter
  | willSetAccessor
  | initializer
  | deinitializer
  | freeFunction
  | classMethod
  | instanceMethod
  | staticMethod
  | plainOperator
  | infixOperator
  | postfixOperator
  | prefixOperator
  | subscriptFunction
  | macroFunction
  | classVariable
  | globalVariable
  | instanceVariable
  | localVariable
  | parameter
  | staticVariable
  | module
  | precedenceGroup
  deriving DecidableEq, Repr, Inhabited

/-- The coarse grouping of kinds; every kind is in exactly one family. -/
inductive Family where
  | typeFamily
  | genericParameterFamily
  | extensionFamily
  | accessorFamily
  | functionFamily
  | variableFamily
  | moduleFamily
  | precedenceGroupFamily
  deriving DecidableEq, Repr

namespace Kind

/-- Every kind, in the order of comparison. -/
def all : List Kind := [
    associatedType, classType, enumType, enumCase, protocolType, structType, typeAlias,
    genericParameter, plainExtension, classExtension, enumExtension, protocolExtension,
    structExtension, addressAccessor, didSetAccessor, getter, initAccessor, modifyAccessor,
    mutableAddressAccessor, readAccessor, setter, willSetAccessor, initializer, deinitializer,
    freeFunction, classMethod, instanceMethod, staticMethod, plainOperator, infixOperator,
    postfixOperator, prefixOperator, subscriptFunction, macroFunction, classVariable,
    globalVariable, instanceVariable, localVariable, parameter, staticVariable, module,
    precedenceGroup]

/-- The position of a kind in `all`. -/
def rank (k : Kind) : Nat := k.ctorIdx

instance : Ord Kind := ⟨compareOn rank⟩
instance : TransOrd Kind := inferInstanceAs (TransCmp (compareOn rank))

/-- The list of all kinds is in the order of their positions and leaves none out. -/
theorem getElem?_rank (k : Kind) : all[k.rank]? = some k := by cases k <;> rfl

instance : LawfulEqOrd Kind where
  eq_of_compare {a b} h := by
    have h : compare a.rank b.rank = .eq := h
    rw [Std.compare_eq_iff_eq] at h
    have ha := getElem?_rank a
    rw [h, getElem?_rank b] at ha
    exact (Option.some.inj ha).symm

/-- The name of a kind in documents. -/
def label : Kind → String
  | associatedType => "associatedtype"
  | classType => "class"
  | enumType => "enum"
  | enumCase => "enumelement"
  | protocolType => "protocol"
  | structType => "struct"
  | typeAlias => "typealias"
  | genericParameter => "generic_type_param"
  | plainExtension => "extension"
  | classExtension => "extension_class"
  | enumExtension => "extension_enum"
  | protocolExtension => "extension_protocol"
  | structExtension => "extension_struct"
  | addressAccessor => "function_accessor_address"
  | didSetAccessor => "function_accessor_didset"
  | getter => "function_accessor_getter"
  | initAccessor => "function_accessor_init"
  | modifyAccessor => "function_accessor_modify"
  | mutableAddressAccessor => "function_accessor_mutableaddress"
  | readAccessor => "function_accessor_read"
  | setter => "function_accessor_setter"
  | willSetAccessor => "function_accessor_willset"
  | initializer => "function_constructor"
  | deinitializer => "function_destructor"
  | freeFunction => "function_free"
  | classMethod => "function_method_class"
  | instanceMethod => "function_method_instance"
  | staticMethod => "function_method_static"
  | plainOperator => "function_operator"
  | infixOperator => "function_operator_infix"
  | postfixOperator => "function_operator_postfix"
  | prefixOperator => "function_operator_prefix"
  | subscriptFunction => "function_subscript"
  | macroFunction => "macro"
  | classVariable => "var_class"
  | globalVariable => "var_global"
  | instanceVariable => "var_instance"
  | localVariable => "var_local"
  | parameter => "var_parameter"
  | staticVariable => "var_static"
  | module => "module"
  | precedenceGroup => "precedence_group"

/-- The kind of that name in documents. -/
def ofLabel? (text : String) : Option Kind := all.find? fun k => k.label == text

/-- The name of a kind in messages to people. -/
def noun : Kind → String
  | associatedType => "associatedtype"
  | classType => "class"
  | enumType => "enum"
  | enumCase => "enum case"
  | protocolType => "protocol"
  | structType => "struct"
  | typeAlias => "typealias"
  | genericParameter => "generic type parameter"
  | plainExtension | classExtension | enumExtension | protocolExtension | structExtension =>
      "extension"
  | addressAccessor | mutableAddressAccessor => "addressor"
  | didSetAccessor => "didSet"
  | getter => "getter"
  | initAccessor => "init accessor"
  | modifyAccessor => "modify accessor"
  | readAccessor => "read accessor"
  | setter => "setter"
  | willSetAccessor => "willSet"
  | initializer => "initializer"
  | deinitializer => "deinitializer"
  | freeFunction | classMethod | instanceMethod | staticMethod => "function"
  | plainOperator | infixOperator | postfixOperator | prefixOperator => "operator"
  | subscriptFunction => "subscript"
  | macroFunction => "macro"
  | classVariable | globalVariable | instanceVariable | staticVariable => "property"
  | localVariable => "variable"
  | parameter => "parameter"
  | module => "module"
  | precedenceGroup => "precedence group"

/-- The name of a kind in diagnostics: its document name with each word capitalised. -/
def title (k : Kind) : String :=
  String.join ((k.label.splitOn "_").map String.capitalize)

/-! ## Families -/

/-- The family of a kind. -/
def family : Kind → Family
  | associatedType | classType | enumType | enumCase | protocolType | structType | typeAlias =>
      .typeFamily
  | genericParameter => .genericParameterFamily
  | plainExtension | classExtension | enumExtension | protocolExtension | structExtension =>
      .extensionFamily
  | addressAccessor | didSetAccessor | getter | initAccessor | modifyAccessor
  | mutableAddressAccessor | readAccessor | setter | willSetAccessor => .accessorFamily
  | initializer | deinitializer | freeFunction | classMethod | instanceMethod | staticMethod
  | plainOperator | infixOperator | postfixOperator | prefixOperator | subscriptFunction
  | macroFunction => .functionFamily
  | classVariable | globalVariable | instanceVariable | localVariable | parameter
  | staticVariable => .variableFamily
  | module => .moduleFamily
  | precedenceGroup => .precedenceGroupFamily

/-- The kinds of extensions. -/
def extensions : List Kind :=
  [plainExtension, classExtension, enumExtension, protocolExtension, structExtension]

def isExtension (k : Kind) : Bool := k.family == .extensionFamily

def isAccessor (k : Kind) : Bool := k.family == .accessorFamily

/-- Functions, accessors included. -/
def isFunction (k : Kind) : Bool := k.family == .functionFamily || k.family == .accessorFamily

def isVariable (k : Kind) : Bool := k.family == .variableFamily

def isType (k : Kind) : Bool := k.family == .typeFamily

/-- Classes, structs and enums: what can be instantiated and extended. -/
def isConcreteType : Kind → Bool
  | classType | structType | enumType => true
  | _ => false

/-- Stored or computed properties, which can own accessors. -/
def isProperty : Kind → Bool
  | classVariable | globalVariable | instanceVariable | staticVariable => true
  | _ => false

/-- Kinds that a conforming type may use to satisfy a requirement of a protocol. -/
def isWitness : Kind → Bool
  | initializer | classMethod | instanceMethod | staticMethod | plainOperator | infixOperator
  | postfixOperator | prefixOperator | subscriptFunction | classVariable | instanceVariable
  | staticVariable | associatedType => true
  | _ => false

/-- The kinds that may satisfy a requirement of this kind.  A static requirement can be met by a
class member, and an associated type by a nested type. -/
def witnesses : Kind → List Kind
  | staticMethod | classMethod => [staticMethod, classMethod]
  | staticVariable | classVariable => [staticVariable, classVariable]
  | associatedType | typeAlias => [associatedType, typeAlias, classType, structType, enumType]
  | plainOperator | infixOperator | postfixOperator | prefixOperator =>
      [plainOperator, infixOperator, postfixOperator, prefixOperator, staticMethod]
  | initializer => [initializer]
  | instanceMethod => [instanceMethod]
  | subscriptFunction => [subscriptFunction]
  | instanceVariable => [instanceVariable]
  | _ => []

/-- Whether a member of kind `found` can stand for a requirement of kind `wanted`. -/
def meets (found wanted : Kind) : Bool := found == wanted || wanted.witnesses.contains found

/-- The kind of type that an extension of this kind extends; a plain extension does not say. -/
def extended? : Kind → Option Kind
  | classExtension => some classType
  | enumExtension => some enumType
  | protocolExtension => some protocolType
  | structExtension => some structType
  | _ => none

end Kind

/-- The name of a family. -/
def Family.label : Family → String
  | .typeFamily => "Type"
  | .genericParameterFamily => "GenericParameter"
  | .extensionFamily => "Extension"
  | .accessorFamily => "Accessor"
  | .functionFamily => "Function"
  | .variableFamily => "Variable"
  | .moduleFamily => "Module"
  | .precedenceGroupFamily => "PrecedenceGroup"

example : Kind.all.length = 42 := rfl
example : Kind.all.map Kind.rank = List.range 42 := rfl

end Deadwood

import Mathlib.Tactic.Common

/-!
# Values and functions of the virtual machine

The values an instruction finds on the stack (`Value`), with the types and tags that the
pattern instructions compare, and the functions whose code the machine runs (`Function`).

The source shares a function by a counted pointer and compares closures by that pointer.  Here a
closure holds the pointer, a number (`FnId`), and the functions themselves are in a table, a field
of the `Env` that the verifier and the machine are given together with the rows of the builtin
registry.

## Main definitions

* `Value` : a value of the language at run time.
* `Function` : the code, the constants and the counts of one function.
* `Env` : the functions by their pointers, and the builtin registry.
* `VmError` : an error of a run.
-/

namespace Silt.Bytecode

/-- The pointer to a function. -/
abbrev FnId := Nat

/-- What a type's values are made of: an enum's variants, each with the number of its fields, or a
record's field names in the order a record holds them. -/
inductive Shape where
  | enum (variants : List (String × Nat))
  | record (fields : List String)
  | plain
  deriving DecidableEq, Inhabited

/-- A type, as the values of it carry it. -/
structure TypeInfo where
  id : Nat
  name : String
  shape : Shape
  deriving DecidableEq, Inhabited

/-- The fields a record type declares. -/
def TypeInfo.fields (ty : TypeInfo) : List String :=
  match ty.shape with
  | .record fields => fields
  | _ => []

/-- Where the record type declares the field `name`. -/
def TypeInfo.fieldIndex (ty : TypeInfo) (name : String) : Option Nat :=
  ty.fields.findIdx? (· == name)

/-- One variant of an enum: the constructor a program calls. -/
structure Tag where
  ty : TypeInfo
  ordinal : Nat
  deriving DecidableEq

/-- The name of the variant and the number of its fields. -/
def Tag.info (tag : Tag) : Option (String × Nat) :=
  match tag.ty.shape with
  | .enum variants => variants[tag.ordinal]?
  | _ => none

/-- The number of fields of the variant. -/
def Tag.arity (tag : Tag) : Nat := (tag.info.map (·.2)).getD 0

/-- The name of the variant. -/
def Tag.name (tag : Tag) : String := (tag.info.map (·.1)).getD ""

/-- The kinds of value that stand for something outside the program's data. -/
inductive Resource where
  | channel | handle | bytes | tcpListener | tcpStream
  deriving DecidableEq

/-- A value of the language at run time. -/
inductive Value where
  | int (n : Int64)
  | float (x : Float)
  | bool (b : Bool)
  | unit
  | string (s : String)
  | list (items : List Value)
  | map (entries : List (Value × Value))
  | set (items : List Value)
  | tuple (items : List Value)
  /-- A record, its fields in the order its type declares them. -/
  | record (ty : TypeInfo) (fields : List Value)
  | variant (tag : Tag) (fields : List Value)
  /-- A closure: its function, the values it captured, and the values a call of it is given
  before its arguments. -/
  | vmClosure (function : FnId) (upvalues bound : List Value)
  | builtinFn (id : Nat)
  | hostFn (id : Nat)
  | variantConstructor (tag : Tag)
  | typeDescriptor (ty : TypeInfo)
  | primitiveDescriptor (name : String)
  | resource (kind : Resource) (id : Nat)
  /-- The dictionary of an impl, with the dictionaries of its header. -/
  | dict (index : Nat) (parts : List Value)
  deriving Inhabited

namespace Value

/-- The name of the value's kind. -/
def kind : Value → String
  | int _ => "Int"
  | float _ => "Float"
  | bool _ => "Bool"
  | unit => "Unit"
  | string _ => "String"
  | list _ => "List"
  | map _ => "Map"
  | set _ => "Set"
  | tuple _ => "Tuple"
  | record _ _ => "Record"
  | variant _ _ => "Variant"
  | vmClosure _ _ _ => "Fn"
  | builtinFn _ => "BuiltinFn"
  | hostFn _ => "HostFn"
  | variantConstructor _ => "VariantConstructor"
  | typeDescriptor _ => "TypeDescriptor"
  | primitiveDescriptor _ => "PrimitiveDescriptor"
  | resource .channel _ => "Channel"
  | resource .handle _ => "Handle"
  | resource .bytes _ => "Bytes"
  | resource .tcpListener _ => "TcpListener"
  | resource .tcpStream _ => "TcpStream"
  | dict _ _ => "Dict"

/-- Whether the value is a function: a closure, a builtin, a host function or a constructor. -/
def isFn : Value → Bool
  | vmClosure _ _ _ | builtinFn _ | hostFn _ | variantConstructor _ => true
  | _ => false

/-- Whether the value counts as true where a jump asks. -/
def isTruthy : Value → Bool
  | bool b => b
  | unit => false
  | _ => true

/-- The record's field `name`. -/
def field? (ty : TypeInfo) (fields : List Value) (name : String) : Option Value :=
  (ty.fieldIndex name).bind (fields[·]?)

end Value

/-- A closure as a frame holds it. -/
structure VmClosure where
  function : FnId
  upvalues : List Value
  bound : List Value := []

/-- The closure as a value. -/
def VmClosure.value (c : VmClosure) : Value := .vmClosure c.function c.upvalues c.bound

/-- A function: its counts, its code and its constants. -/
structure Function where
  name : String
  arity : Nat
  upvalueCount : Nat
  dictSlot : Bool
  code : List UInt8
  constants : List Value

/-- A row of the builtin registry. -/
structure Row where
  qualified : String
  enabled : Bool
  isConstant : Bool
  arity : Nat

/-- What the verifier and the machine look up: a function by its pointer, a builtin's row by its
number, and the text that shows a value in an error of the verifier. -/
structure Env where
  function : FnId → Function
  builtin : Nat → Option Row
  debug : Value → String

/-- An error of a run.  A `typeConfusion` is one the typechecker should have found. -/
inductive VmError where
  | new (message : String)
  | typeConfusion (message : String)
  deriving DecidableEq, Inhabited

end Silt.Bytecode

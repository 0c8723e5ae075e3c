import Silt.Bytecode.Value

/-!
# What the instruction loop works with

The operations on values that the loop makes itself (arithmetic on Ints, the order and the
equality of two operands, the text of a plain value), and, as a structure of parameters, what it
asks of the rest of the runtime: the globals and the impls of the program, the builtins, and the
operations on values that are not the loop's.

The runtime has a state of its own, of any type `σ`, which a question may change; and a builtin
that is not finished at once is a frame, of any type `N`.

## Main definitions

* `intArithmetic`, `arithmetic`, `ordering`, `equal` : the operators of the language on values.
* `Runtime` : what the loop asks of the rest of the runtime.
-/

namespace Silt.Vm

open Bytecode

/-- The arithmetic operators. -/
inductive Arith where
  | add | sub | mul | div | mod
  deriving DecidableEq

/-- How the operator is written. -/
def Arith.symbol : Arith → String
  | add => "+" | sub => "-" | mul => "*" | div => "/" | mod => "%"

/-- The number as an Int, if it is one. -/
def checked (n : Int) : Option Int64 :=
  if Int64.minValue.toInt ≤ n ∧ n ≤ Int64.maxValue.toInt then some (Int64.ofInt n) else none

/-- `a / b` rounded down, for a `b` that is not 0: none where it is no Int. -/
def flooredDiv (a b : Int64) : Option Int64 := do
  let q ← checked (a.toInt.tdiv b.toInt)
  -- truncation rounded a negative quotient up
  if a.toInt.tmod b.toInt ≠ 0 ∧ decide (a < 0) ≠ decide (b < 0) then checked (q.toInt - 1)
  else some q

/-- `a % b` with the sign of `b`, for a `b` that is not 0. -/
def flooredMod (a b : Int64) : Int64 :=
  if b = -1 then 0
  else
    let r := a.toInt.tmod b.toInt
    if r ≠ 0 ∧ decide (r < 0) ≠ decide (b < 0) then Int64.ofInt (r + b.toInt) else Int64.ofInt r

/-- `a op b` of two Ints. -/
def intArithmetic (op : Arith) (a b : Int64) : Except VmError Int64 :=
  let overflow := VmError.new s!"integer overflow: {a} {op.symbol} {b}"
  let result (n : Option Int64) : Except VmError Int64 :=
    match n with
    | some n => .ok n
    | none => .error overflow
  match op with
  | .add => result (checked (a.toInt + b.toInt))
  | .sub => result (checked (a.toInt - b.toInt))
  | .mul => result (checked (a.toInt * b.toInt))
  | .div => if b = 0 then .error (.new "division by zero") else result (flooredDiv a b)
  | .mod => if b = 0 then .error (.new "modulo by zero") else .ok (flooredMod a b)

/-- What a call of something that is not a closure came to: a value, or a builtin's frame. -/
inductive Entered (N : Type) where
  | value (v : Value)
  | native (n : N)

/-- Which part of a dictionary an instruction takes. -/
inductive DictPart where
  | sub (k : Nat) | super (index : Nat) | clause (index : Nat) | type
  deriving DecidableEq

/-- A question to the runtime, which may fail and may change its state. -/
abbrev Ask (σ α : Type) : Type := σ → Except VmError α × σ

/-- What the instruction loop asks of the rest of the runtime. -/
structure Runtime (σ N : Type) where
  /-- Whether two values that are not both Ints are equal, and the order of two values. -/
  same : Value → Value → Bool
  cmp : Value → Value → Ordering
  /-- Whether a value that has parts holds a function. -/
  partsContainFn : Value → Bool
  /-- `a op b` of two Floats. -/
  floatArithmetic : Arith → Float → Float → Except VmError Float
  floatText : Float → String
  /-- The names of a value's type in an error, and for the choice of a method. -/
  userFacingTypeName : Value → String
  dispatchTypeName : Value → String
  dispatchType : Value → Nat
  /-- The list of the Ints from the first to the second. -/
  ints : Int64 → Int64 → Except VmError Value
  concat : List Value → List Value → Except VmError Value
  /-- The map of keys and values, and the set of values, that a literal writes. -/
  mapOf : List Value → Value
  setOf : List Value → Value
  mapGet : List (Value × Value) → Value → Option Value
  /-- A type applied to types. -/
  applied : TypeInfo → List Value → TypeInfo
  /-- The record with other values for the named fields, and the one without the named fields. -/
  updated : TypeInfo → List Value → List String → List Value → Option Value
  rest : TypeInfo → List Value → List String → Value
  /-- The variants `?` unwraps, and those it returns. -/
  okOrSome : Tag → Bool
  errOrNone : Tag → Bool
  getGlobal : Nat → Ask σ Value
  setGlobal : Nat → Value → σ → Bool × σ
  /-- The template of a dictionary's impl, and the type of the impl of a template. -/
  template : Value → Ask σ Nat
  templateType : Nat → Ask σ Nat
  /-- A dictionary's method, by its place in the trait, with the type of the impl. -/
  dictFind : Value → Nat → Ask σ (Nat × Nat)
  methodValue : Nat → Ask σ Value
  /-- The errors of a receiver that is not of the impl's type. -/
  wrongReceiver : Value → Value → VmError
  wrongImplReceiver : Nat → Value → VmError
  dictMethod : Value → Nat → Ask σ Value
  undecidedMethod : Nat → Nat → σ → Value
  dictPart : DictPart → Value → Ask σ Value
  typeArg : Nat → Value → Except VmError Value
  /-- The method of the impl of a trait for the receiver's type, if there is one. -/
  method : Nat → Value → Nat → σ → Option Value × σ
  /-- A method that no impl of the program has, of a builtin trait. -/
  builtinMethod : Nat → Nat → List Value → Ask σ (Entered N)
  enterBuiltin : Nat → List Value → Ask σ (Entered N)
  invokeHostFn : Nat → List Value → Ask σ Value
  /-- The text of a value, and the panic that a message is the text of. -/
  shown : Value → Ask σ (Entered N)
  panicked : Value → Ask σ N
  deriving Inhabited

namespace Runtime

variable {σ N : Type} (R : Runtime σ N)

/-- Whether two values are equal, as values. -/
def equals (a b : Value) : Bool :=
  match a, b with
  | .int x, .int y => x == y
  | a, b => R.same a b

/-- Whether the value is a function, or has one inside it. -/
def containsFn (v : Value) : Bool :=
  match v with
  | .list _ | .tuple _ | .variant _ _ | .set _ | .map _ | .record _ _ => R.partsContainFn v
  | other => other.isFn

/-- `a op b` of operands that are not two Ints: two Floats give a Float, anything else is
refused. -/
def otherArithmetic (op : Arith) (a b : Value) : Except VmError Value :=
  match a, b with
  | .float x, .float y => (R.floatArithmetic op x y).map .float
  | a, b =>
    if (a.kind == "Int" && b.kind == "Float") || (a.kind == "Float" && b.kind == "Int") then
      .error (.typeConfusion
        "cannot mix Int and Float — use int.to_float or float.to_int for explicit conversion")
    else
      let hint :=
        if op = .add && (a.kind == "String" || b.kind == "String") then
          "; build strings with interpolation, e.g. \"\x7ba\x7d\x7bb\x7d\""
        else ""
      .error (.typeConfusion s!"cannot apply '{op.symbol}' to {a.kind} and {b.kind}{hint}")

/-- `a op b`. -/
def arithmetic (op : Arith) (a b : Value) : Except VmError Value :=
  match a, b with
  | .int x, .int y => (intArithmetic op x y).map .int
  | a, b => R.otherArithmetic op a b

/-- The order of two values that have parts, if neither holds a function. -/
def orderingWithFnGate (a b : Value) : Except VmError Ordering :=
  if R.containsFn a || R.containsFn b then
    .error (.typeConfusion "type 'Fn' does not implement Compare")
  else .ok (R.cmp a b)

/-- The order of operands that are not two Ints. -/
def otherOrdering (a b : Value) : Except VmError Ordering :=
  match a, b with
  | .float _, .float _ | .string _, .string _ | .bool _, .bool _ | .unit, .unit => .ok (R.cmp a b)
  | .list _, .list _ | .variant _ _, .variant _ _ | .tuple _, .tuple _ => R.orderingWithFnGate a b
  | .record ty _, .record ty' _ =>
    if ty.id = ty'.id then R.orderingWithFnGate a b
    else .error (.typeConfusion s!"unsupported operation: cannot compare {a.kind} and {b.kind}")
  | a, b =>
    if a.isFn && b.isFn then R.orderingWithFnGate a b
    else .error (.typeConfusion s!"unsupported operation: cannot compare {a.kind} and {b.kind}")

/-- The order of two operands. -/
def ordering (a b : Value) : Except VmError Ordering :=
  match a, b with
  | .int x, .int y => .ok (compare x y)
  | a, b => R.otherOrdering a b

/-- The operands of `==` and `!=`, if the two can be compared so. -/
def equalityOperands (a b : Value) : Except VmError Unit :=
  if a.kind != b.kind && !(a.isFn && b.isFn) then
    .error (.typeConfusion s!"unsupported operation: cannot compare {a.kind} and {b.kind}")
  else if R.containsFn a || R.containsFn b then
    .error (.typeConfusion "type 'Fn' does not implement Equal")
  else .ok ()

/-- Whether two operands are equal, compared as values. -/
def otherEqual (a b : Value) : Except VmError Bool :=
  (R.equalityOperands a b).map fun _ => R.equals a b

/-- Whether two operands are equal: two Ints are compared as numbers. -/
def equal (a b : Value) : Except VmError Bool :=
  match a, b with
  | .int x, .int y => .ok (x == y)
  | a, b => R.otherEqual a b

/-- The text of a value that is shown as it is. -/
def plainText (v : Value) : Option String :=
  match v with
  | .string s => some s
  | .int n => some (toString n)
  | .float x => some (R.floatText x)
  | .bool b => some (if b then "true" else "false")
  | _ => none

end Runtime

/-- Whether a value of this kind has a text. -/
def implementsDisplay : Value → Bool
  | .resource .bytes _ => true
  | .vmClosure _ _ _ | .builtinFn _ | .hostFn _ | .variantConstructor _ | .resource _ _
  | .typeDescriptor _ | .primitiveDescriptor _ => false
  | _ => true

end Silt.Vm

import Silt.Bytecode.Instr

/-!
# Decoding

An instruction is a byte, its opcode, and then its operands: one byte or two for a number, two
for a jump forward, four for a jump either way, and a counted list for the operands that are
lists.  A jump's distance counts from the end of its operand.  `decode` reads the instruction at
an offset, and gives none where no opcode is or where the operands run past the end of the code.

## Main definitions

* `Reader` : the decoder's place in the code, every read of it checked.
* `decode` : the instruction at an offset and the offset after it.
-/

namespace Silt.Bytecode

/-- A read of the code from a place on: what is read and the place after it. -/
def Reader (α : Type) : Type := List UInt8 → Nat → Option (α × Nat)

namespace Reader

variable {α β : Type}

instance : Monad Reader where
  pure a := fun _ i => some (a, i)
  bind r f := fun code i => (r code i).bind fun p => f p.1 code p.2

/-- The byte at the place. -/
def u8 : Reader Nat := fun code i => (code[i]?).map fun byte => (byte.toNat, i + 1)

/-- Two bytes, the low one first. -/
def u16 : Reader Nat := do
  let lo ← u8
  let hi ← u8
  return lo + 256 * hi

/-- Where the reader is. -/
def here : Reader Nat := fun _ i => some (i, i)

/-- No instruction is read. -/
def none : Reader α := fun _ _ => Option.none

/-- The target of a jump forward. -/
def fwd : Reader Nat := do
  let distance ← u16
  return (← here) + distance

/-- The target of a jump forward or back: the distance has a sign. -/
def rel : Reader Nat := do
  let lo ← u16
  let hi ← u16
  let origin ← here
  let distance : Int := if hi < 32768 then lo + 65536 * hi else lo + 65536 * hi - 4294967296
  let dest := (origin : Int) + distance
  if dest < 0 then none else return dest.toNat

/-- `count` items, one after another. -/
def items (item : Reader α) : Nat → Reader (List α)
  | 0 => return []
  | count + 1 => do
    let first ← item
    let rest ← items item count
    return first :: rest

/-- The items of a list operand, after their number. -/
def list (item : Reader α) : Reader (List α) := do items item (← u8)

/-- A captured value: whether it is a local, and its index. -/
def upvalueDesc : Reader UpvalueDesc := do
  let isLocal ← u8
  let index ← u8
  return ⟨isLocal != 0, index⟩

/-- A segment of an interpolation: whether it is a literal, and the constant. -/
def segment : Reader Segment := do
  let isLiteral ← u8
  let k ← u16
  return if isLiteral != 0 then .literal k else .value

/-- The segments of an interpolation, after their number and the number of values. -/
def segments : Reader Segments := do
  let count ← u8
  let values ← u8
  let segments ← items segment count
  return ⟨values, segments⟩

/-- An instruction of one operand. -/
def one (make : α → Instr Nat) (a : Reader α) : Reader (Instr Nat) := do return make (← a)

/-- An instruction of two operands. -/
def two (make : α → β → Instr Nat) (a : Reader α) (b : Reader β) : Reader (Instr Nat) := do
  let x ← a
  let y ← b
  return make x y

end Reader

open Reader in
/-- The instructions in the order of their opcodes, each with how its operands are read. -/
def table : List (Reader (Instr Nat)) :=
  [one .constant u16, pure .unit, pure .true, pure .false,
    pure .add, pure .sub, pure .mul, pure .div, pure .mod, one .addConst u16, one .subConst u16,
    pure .eq, pure .neq, pure .lt, pure .gt, pure .leq, pure .geq,
    pure .negate, pure .not,
    one .interpolate segments, pure .displayValue,
    one .getLocal u16, one .setLocal u16, one .getGlobal u16, one .setGlobal u16,
    one .getUpvalue u8, pure .getClosure,
    one .call u8, one .tailCall u8, two .tailCallKeep u8 u8, pure .ret, two .callBuiltin u16 u8,
    two .makeClosure u16 (list upvalueDesc),
    one .makeTuple u8, one .makeList u16, one .makeMap u16, one .makeSet u16,
    two .makeRecord u16 (list u16), two .makeType u16 u8, one .recordUpdate (list u16),
    pure .makeRange, pure .listConcat,
    one .getField u16, one .getFieldNamed u16,
    one .jump rel, one .jumpIfFalse fwd, one .jumpIfTrue fwd,
    one .jumpIfNotLt fwd, one .jumpIfNotGt fwd, one .jumpIfNotLeq fwd, one .jumpIfNotGeq fwd,
    one .jumpIfNotEq fwd, one .jumpIfNotNeq fwd, pure .pop, pure .dup,
    one .testTag u16, one .testEqual u16, one .testTupleLen u8, one .testListMin u8,
    one .testListExact u8, two .testIntRange u16 u16, two .testFloatRange u16 u16,
    one .destructTuple u8, one .destructVariant u8, one .destructList u8,
    one .destructListRest u8, one .destructRecordField u16, one .destructRecordFieldNamed u16,
    one .destructRecordRest (list u16), one .testRecordTag u16, one .testMapHasKey u16,
    one .destructMapValue u16,
    do return .recur (← u8) (← u16) (← rel),
    pure .questionMark, pure .panic,
    do return .callMethod (← u16) (← u8) (← u16) (← u8),
    do return .tailCallMethod (← u16) (← u8) (← u16) (← u8),
    two .makeDict u16 u8,
    do return .callDict (← u16) (← u8) (← u8), do return .tailCallDict (← u16) (← u8) (← u8),
    do return .callChecked (← u8) (← u8) (← u16), do return .tailCallChecked (← u8) (← u8) (← u16),
    pure .frameDict, two .dictMethod u16 u16, one .dictSub u8, one .superDict u8,
    one .whereDict u8, pure .dictType, one .typeArg u8, one .bind u8,
    one .slide u16]

/-- The instruction encoded at `i` in `code` and the offset of the one after it; none where no
instruction is encoded there. -/
def decode (code : List UInt8) (i : Nat) : Option (Instr Nat × Nat) := do
  let byte ← code[i]?
  let operands ← table[byte.toNat]?
  operands code (i + 1)

end Silt.Bytecode

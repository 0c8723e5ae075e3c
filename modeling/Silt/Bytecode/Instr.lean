import Silt.Bytecode.Value

/-!
# The instruction table

One instruction set, written once as the source's table is: an instruction with its operands
(`Instr`), what it does to the height of its frame and where control goes after it
(`Instr.effect`), and its operands with the kind that the verifier checks (`Instr.operands`).  The
target of a jump is a parameter: an offset in the code where an instruction has been decoded, a
label where the compiler hands it to the emitter.

## Main definitions

* `Instr` : an instruction with its operands.
* `Instr.effect` : the values it takes off, the height it cuts back to, the values it pushes.
* `Instr.operands` : its operands as the verifier checks them.
-/

namespace Silt.Bytecode

/-- Where control goes after an instruction: to the next one, to the next one or the target, to
the target, or nowhere in this function. -/
inductive Flow where
  | next | branch | jump | finish
  deriving DecidableEq

/-- Whether control may go on to the next instruction. -/
def Flow.goesOn : Flow → Bool
  | .next | .branch => true
  | .jump | .finish => false

/-- Whether control may go to the target. -/
def Flow.jumps : Flow → Bool
  | .branch | .jump => true
  | .next | .finish => false

/-- What an instruction does to the height of its frame. -/
structure Effect where
  /-- The values it takes off the top of the frame. -/
  pops : Nat
  /-- With those off, the height the frame is cut back to. -/
  cut : Option Nat
  /-- The values it then pushes. -/
  pushes : Nat
  flow : Flow
  deriving DecidableEq

/-- The kind of constant an operand names. -/
inductive ConstKind where
  | any | str | tag | type | func | int | float
  deriving DecidableEq

/-- The name the verifier's errors give the kind. -/
def ConstKind.name : ConstKind → String
  | any => "Any" | str => "Str" | tag => "Tag" | type => "Type" | func => "Func" | int => "Int"
  | float => "Float"

/-- Where a closure takes a captured value from: a slot of the frame, or an upvalue. -/
structure UpvalueDesc where
  isLocal : Bool
  index : Nat
  deriving DecidableEq

/-- A part of an interpolated string: a constant, or the next of the values on the stack. -/
inductive Segment where
  | value
  | literal (k : Nat)
  deriving DecidableEq

/-- The segments of an interpolation, with the number of values among them as encoded. -/
structure Segments where
  values : Nat
  items : List Segment
  deriving DecidableEq

/-- An operand with its kind, as the verifier checks it. -/
inductive Operand (τ : Type) where
  | plain
  | slot (slot : Nat)
  | upvalue (index : Nat)
  | const (k : Nat) (kind : ConstKind)
  | builtin (id : Nat)
  | target (dest : τ)
  | strs (names : List Nat)
  | captures (captures : List UpvalueDesc)
  | segments (segments : Segments)

/-- An instruction with its operands, whose jumps go to a `τ`. -/
inductive Instr (τ : Type) where
  | constant (k : Nat)
  | unit
  | true
  | false
  | add
  | sub
  | mul
  | div
  | mod
  | addConst (k : Nat)
  | subConst (k : Nat)
  | eq
  | neq
  | lt
  | gt
  | leq
  | geq
  | negate
  | not
  | interpolate (segments : Segments)
  | displayValue
  | getLocal (slot : Nat)
  | setLocal (slot : Nat)
  | getGlobal (slot : Nat)
  | setGlobal (slot : Nat)
  | getUpvalue (index : Nat)
  | getClosure
  | call (argc : Nat)
  | tailCall (argc : Nat)
  | tailCallKeep (argc keep : Nat)
  | ret
  | callBuiltin (builtin argc : Nat)
  | makeClosure (f : Nat) (captures : List UpvalueDesc)
  | makeTuple (count : Nat)
  | makeList (count : Nat)
  | makeMap (pairs : Nat)
  | makeSet (count : Nat)
  | makeRecord (ty : Nat) (fields : List Nat)
  | makeType (ty count : Nat)
  | recordUpdate (fields : List Nat)
  | makeRange
  | listConcat
  | getField (index : Nat)
  | getFieldNamed (name : Nat)
  | jump (dest : τ)
  | jumpIfFalse (dest : τ)
  | jumpIfTrue (dest : τ)
  | jumpIfNotLt (dest : τ)
  | jumpIfNotGt (dest : τ)
  | jumpIfNotLeq (dest : τ)
  | jumpIfNotGeq (dest : τ)
  | jumpIfNotEq (dest : τ)
  | jumpIfNotNeq (dest : τ)
  | pop
  | dup
  | testTag (tag : Nat)
  | testEqual (k : Nat)
  | testTupleLen (len : Nat)
  | testListMin (len : Nat)
  | testListExact (len : Nat)
  | testIntRange (lo hi : Nat)
  | testFloatRange (lo hi : Nat)
  | destructTuple (index : Nat)
  | destructVariant (index : Nat)
  | destructList (index : Nat)
  | destructListRest (start : Nat)
  | destructRecordField (index : Nat)
  | destructRecordFieldNamed (name : Nat)
  | destructRecordRest (excluded : List Nat)
  | testRecordTag (ty : Nat)
  | testMapHasKey (key : Nat)
  | destructMapValue (key : Nat)
  | recur (argc first : Nat) (dest : τ)
  | questionMark
  | panic
  | callMethod (method argc of receiver : Nat)
  | tailCallMethod (method argc of receiver : Nat)
  | makeDict (k n : Nat)
  | callDict (method argc receiver : Nat)
  | tailCallDict (method argc receiver : Nat)
  | callChecked (argc receiver template : Nat)
  | tailCallChecked (argc receiver template : Nat)
  | frameDict
  | dictMethod (method of : Nat)
  | dictSub (k : Nat)
  | superDict (index : Nat)
  | whereDict (index : Nat)
  | dictType
  | typeArg (k : Nat)
  | bind (n : Nat)
  | slide (slot : Nat)

variable {τ : Type}

/-- The effect of an instruction that goes on to the next one. -/
def Effect.of (pops pushes : Nat) : Effect := ⟨pops, none, pushes, .next⟩

/-- What the instruction does to the frame. -/
def Instr.effect : Instr τ → Effect
  | .constant _ | .unit | .true | .false | .getLocal _ | .getGlobal _ | .getUpvalue _
  | .getClosure | .makeClosure _ _ | .frameDict => .of 0 1
  | .add | .sub | .mul | .div | .mod | .eq | .neq | .lt | .gt | .leq | .geq | .makeRange
  | .listConcat => .of 2 1
  | .addConst _ | .subConst _ | .negate | .not | .displayValue | .setLocal _ | .setGlobal _
  | .getField _ | .getFieldNamed _ | .destructRecordRest _ | .questionMark | .dictSub _
  | .superDict _ | .whereDict _ | .dictType | .typeArg _ => .of 1 1
  | .interpolate segments => .of segments.values 1
  | .call argc | .tailCall argc | .tailCallKeep argc _ | .callDict _ argc _
  | .tailCallDict _ argc _ | .callChecked argc _ _ | .tailCallChecked argc _ _ => .of (argc + 1) 1
  | .ret | .panic => ⟨1, none, 0, .finish⟩
  | .callBuiltin _ argc | .callMethod _ argc _ _ | .tailCallMethod _ argc _ _ => .of argc 1
  | .makeTuple count | .makeList count | .makeSet count | .makeType _ count => .of count 1
  | .makeMap pairs => .of (pairs * 2) 1
  | .makeRecord _ fields => .of fields.length 1
  | .recordUpdate fields => .of (fields.length + 1) 1
  | .jump _ => ⟨0, none, 0, .jump⟩
  | .jumpIfFalse _ | .jumpIfTrue _ => ⟨1, none, 0, .branch⟩
  | .jumpIfNotLt _ | .jumpIfNotGt _ | .jumpIfNotLeq _ | .jumpIfNotGeq _ | .jumpIfNotEq _
  | .jumpIfNotNeq _ => ⟨2, none, 0, .branch⟩
  | .pop => .of 1 0
  | .dup | .testTag _ | .testEqual _ | .testTupleLen _ | .testListMin _ | .testListExact _
  | .testIntRange _ _ | .testFloatRange _ _ | .destructTuple _ | .destructVariant _
  | .destructList _ | .destructListRest _ | .destructRecordField _ | .destructRecordFieldNamed _
  | .testRecordTag _ | .testMapHasKey _ | .destructMapValue _ | .dictMethod _ _ => .of 1 2
  | .recur argc first _ => ⟨argc, some first, argc, .jump⟩
  | .makeDict _ n => .of n 1
  | .bind n => .of (n + 1) 1
  | .slide slot => ⟨1, some slot, 1, .next⟩

/-- The instruction's operands, in order, with their kinds. -/
def Instr.operands : Instr τ → List (Operand τ)
  | .constant k | .testEqual k => [.const k .any]
  | .makeDict k _ => [.const k .any, .plain]
  | .addConst k | .subConst k => [.const k .int]
  | .interpolate segments => [.segments segments]
  | .getLocal slot | .setLocal slot => [.slot slot]
  | .getUpvalue index => [.upvalue index]
  | .callBuiltin builtin _ => [.builtin builtin, .plain]
  | .makeClosure f captures => [.const f .func, .captures captures]
  | .makeRecord ty fields => [.const ty .type, .strs fields]
  | .makeType ty _ => [.const ty .type, .plain]
  | .recordUpdate fields | .destructRecordRest fields => [.strs fields]
  | .getFieldNamed name | .destructRecordFieldNamed name | .testMapHasKey name
  | .destructMapValue name => [.const name .str]
  | .jump dest | .jumpIfFalse dest | .jumpIfTrue dest | .jumpIfNotLt dest | .jumpIfNotGt dest
  | .jumpIfNotLeq dest | .jumpIfNotGeq dest | .jumpIfNotEq dest
  | .jumpIfNotNeq dest => [.target dest]
  | .testTag tag => [.const tag .tag]
  | .testIntRange lo hi => [.const lo .int, .const hi .int]
  | .testFloatRange lo hi => [.const lo .float, .const hi .float]
  | .testRecordTag ty => [.const ty .type]
  | .recur _ _ dest => [.plain, .plain, .target dest]
  -- the operands of the others are counts, indices into a value and numbers of the program's
  -- globals, traits and methods: nothing of the function's to check
  | _ => []

/-- The place the instruction may jump to. -/
def Instr.target? : Instr τ → Option τ
  | .jump dest | .jumpIfFalse dest | .jumpIfTrue dest | .jumpIfNotLt dest | .jumpIfNotGt dest
  | .jumpIfNotLeq dest | .jumpIfNotGeq dest | .jumpIfNotEq dest | .jumpIfNotNeq dest
  | .recur _ _ dest =>
    some dest
  | _ => none

/-- The instruction's name, as the errors of the verifier give it. -/
def Instr.name : Instr τ → String
  | .constant _ => "Constant" | .unit => "Unit" | .true => "True" | .false => "False"
  | .add => "Add" | .sub => "Sub" | .mul => "Mul" | .div => "Div" | .mod => "Mod"
  | .addConst _ => "AddConst" | .subConst _ => "SubConst" | .eq => "Eq" | .neq => "Neq"
  | .lt => "Lt" | .gt => "Gt" | .leq => "Leq" | .geq => "Geq" | .negate => "Negate"
  | .not => "Not" | .interpolate _ => "Interpolate" | .displayValue => "DisplayValue"
  | .getLocal _ => "GetLocal" | .setLocal _ => "SetLocal" | .getGlobal _ => "GetGlobal"
  | .setGlobal _ => "SetGlobal" | .getUpvalue _ => "GetUpvalue" | .getClosure => "GetClosure"
  | .call _ => "Call" | .tailCall _ => "TailCall" | .tailCallKeep _ _ => "TailCallKeep"
  | .ret => "Return" | .callBuiltin _ _ => "CallBuiltin" | .makeClosure _ _ => "MakeClosure"
  | .makeTuple _ => "MakeTuple" | .makeList _ => "MakeList" | .makeMap _ => "MakeMap"
  | .makeSet _ => "MakeSet" | .makeRecord _ _ => "MakeRecord" | .makeType _ _ => "MakeType"
  | .recordUpdate _ => "RecordUpdate" | .makeRange => "MakeRange" | .listConcat => "ListConcat"
  | .getField _ => "GetField" | .getFieldNamed _ => "GetFieldNamed" | .jump _ => "Jump"
  | .jumpIfFalse _ => "JumpIfFalse" | .jumpIfTrue _ => "JumpIfTrue"
  | .jumpIfNotLt _ => "JumpIfNotLt" | .jumpIfNotGt _ => "JumpIfNotGt"
  | .jumpIfNotLeq _ => "JumpIfNotLeq" | .jumpIfNotGeq _ => "JumpIfNotGeq"
  | .jumpIfNotEq _ => "JumpIfNotEq" | .jumpIfNotNeq _ => "JumpIfNotNeq" | .pop => "Pop"
  | .dup => "Dup" | .testTag _ => "TestTag" | .testEqual _ => "TestEqual"
  | .testTupleLen _ => "TestTupleLen" | .testListMin _ => "TestListMin"
  | .testListExact _ => "TestListExact" | .testIntRange _ _ => "TestIntRange"
  | .testFloatRange _ _ => "TestFloatRange" | .destructTuple _ => "DestructTuple"
  | .destructVariant _ => "DestructVariant" | .destructList _ => "DestructList"
  | .destructListRest _ => "DestructListRest" | .destructRecordField _ => "DestructRecordField"
  | .destructRecordFieldNamed _ => "DestructRecordFieldNamed"
  | .destructRecordRest _ => "DestructRecordRest" | .testRecordTag _ => "TestRecordTag"
  | .testMapHasKey _ => "TestMapHasKey" | .destructMapValue _ => "DestructMapValue"
  | .recur _ _ _ => "Recur" | .questionMark => "QuestionMark" | .panic => "Panic"
  | .callMethod _ _ _ _ => "CallMethod" | .tailCallMethod _ _ _ _ => "TailCallMethod"
  | .makeDict _ _ => "MakeDict" | .callDict _ _ _ => "CallDict"
  | .tailCallDict _ _ _ => "TailCallDict" | .callChecked _ _ _ => "CallChecked"
  | .tailCallChecked _ _ _ => "TailCallChecked" | .frameDict => "FrameDict"
  | .dictMethod _ _ => "DictMethod" | .dictSub _ => "DictSub" | .superDict _ => "SuperDict"
  | .whereDict _ => "WhereDict" | .dictType => "DictType" | .typeArg _ => "TypeArg"
  | .bind _ => "Bind" | .slide _ => "Slide"

end Silt.Bytecode

import Silt.Bytecode.Verify
import Silt.Vm.Runtime

/-!
# The arms of the instruction loop

What one instruction does to the stack, in the frame it runs in: one arm for each instruction of
the table.  The stack is the machine's, a list with its bottom first; the frame's values start at
its `base`, and the slot below them is the callee's, where a method finds its dictionary.

An arm has no value (`none`) where the source would stop the program: a value taken off an empty
stack, a slot, a constant or an upvalue that is not there, a constant of another kind.  The source
does not look for any of that, since it runs verified code only.

## Main definitions

* `Outcome` : how an arm ends.
* `callValue`, `tailCall`, `tailCallKeep`, `callDict`, `callMethod` : the calls.
* `exec` : the arm of an instruction.
-/

namespace Silt.Vm

open Bytecode

variable {σ N : Type}

/-- The frame of a function: its closure and where its values start on the stack. -/
structure CallFrame where
  closure : VmClosure
  base : Nat

/-- How an arm ends. -/
inductive Outcome (N : Type) where
  /-- On to the instruction at `ip` in this frame. -/
  | go (ip : Nat) (stack : List Value)
  /-- A closure is called: its frame, whose values start at `base`, is on top. -/
  | enter (ip : Nat) (stack : List Value) (closure : VmClosure) (base : Nat)
  /-- A builtin's frame is on top; its value is the instruction's. -/
  | native (ip : Nat) (stack : List Value) (n : N)
  /-- A builtin's frame is on top that makes the text of a panic, and fails with it. -/
  | panics (ip : Nat) (stack : List Value) (n : N)
  /-- A closure takes the frame over, at its first instruction. -/
  | become (stack : List Value) (closure : VmClosure)
  /-- The frame is finished, with this value. -/
  | returned (stack : List Value) (v : Value)
  | fail (ip : Nat) (stack : List Value) (e : VmError)

/-- An arm: none where the source would stop the program. -/
abbrev Arm (σ N : Type) : Type := σ → Option (Outcome N × σ)

/-! ### The stack -/

/-- The value on top, and the stack without it. -/
def popped (stack : List Value) : Option (List Value × Value) :=
  (stack.getLast?).map fun v => (stack.dropLast, v)

/-- The top `n` values, and the stack without them. -/
def split (n : Nat) (stack : List Value) : Option (List Value × List Value) :=
  if n ≤ stack.length then some (stack.take (stack.length - n), stack.drop (stack.length - n))
  else none

/-- The stack with `v` written over slot `i`. -/
def put (stack : List Value) (i : Nat) (v : Value) : Option (List Value) :=
  if i < stack.length then some (stack.set i v) else none

/-- The stack with the `n` values from slot `src` on copied to the slots from `dst` on, the first
one first. -/
def copied (dst src : Nat) : Nat → List Value → Option (List Value)
  | 0, stack => some stack
  | n + 1, stack => do
    let v ← stack[src]?
    let stack ← put stack dst v
    copied (dst + 1) (src + 1) n stack

/-! ### The shapes of an arm -/

/-- On to `ip` with `stack`. -/
def goOn (ip : Nat) (stack : List Value) : Arm σ N := fun s => some (.go ip stack, s)

/-- The instruction fails. -/
def refuse (ip : Nat) (stack : List Value) (e : VmError) : Arm σ N :=
  fun s => some (.fail ip stack e, s)

/-- Push what is there, if it is there. -/
def pushFound (ip : Nat) (stack : List Value) (v : Option Value) : Arm σ N := fun s => do
  goOn ip (stack ++ [← v]) s

/-- Write `f` of the operand on top over it; a refused operand leaves the stack. -/
def overTop (ip : Nat) (stack : List Value) (f : Value → Except VmError Value) : Arm σ N :=
  fun s => do
    let (below, v) ← popped stack
    match f v with
    | .ok r => goOn ip (below ++ [r]) s
    | .error e => refuse ip below e s

/-- Write `f` of the two operands on top over them; refused operands leave the stack. -/
def overTwo (ip : Nat) (stack : List Value) (f : Value → Value → Except VmError Value) :
    Arm σ N := fun s => do
  let (below, b) ← popped stack
  let (below, a) ← popped below
  match f a b with
  | .ok r => goOn ip (below ++ [r]) s
  | .error e => refuse ip below e s

/-- Take two operands off, and jump unless they are as `f` says. -/
def jumpUnless (ip dest : Nat) (stack : List Value) (f : Value → Value → Except VmError Bool) :
    Arm σ N := fun s => do
  let (below, b) ← popped stack
  let (below, a) ← popped below
  match f a b with
  | .ok holds => goOn (if holds then ip else dest) below s
  | .error e => refuse ip below e s

/-- Push whether the value on top is as `f` says. -/
def test (ip : Nat) (stack : List Value) (f : Value → Option Bool) : Arm σ N := fun s => do
  let v ← stack.getLast?
  let result ← f v
  goOn ip (stack ++ [.bool result]) s

/-- Push a part of the value on top. -/
def destruct (ip : Nat) (stack : List Value) (f : Value → Option (Except VmError Value)) :
    Arm σ N :=
  fun s => do
    let v ← stack.getLast?
    match ← f v with
    | .ok part => goOn ip (stack ++ [part]) s
    | .error e => refuse ip stack e s

/-- Put one value in place of the top `n`. -/
def gather (ip n : Nat) (stack : List Value) (f : List Value → Option (Except VmError Value)) :
    Arm σ N := fun s => do
  let (below, values) ← split n stack
  match ← f values with
  | .ok v => goOn ip (below ++ [v]) s
  | .error e => refuse ip below e s

/-- Write the answer to a question about the value on top over it; where there is none the stack
stays as it is. -/
def askTop (ip : Nat) (stack : List Value) (f : Value → Ask σ Value) : Arm σ N := fun s => do
  let (below, v) ← popped stack
  match f v s with
  | (.ok r, s) => goOn ip (below ++ [r]) s
  | (.error e, s) => refuse ip stack e s

/-- Go on after a builtin, a host function or a constructor was called, its arguments off the
stack. -/
def entered (ip : Nat) (stack : List Value) (call : Ask σ (Entered N)) : Arm σ N := fun s =>
  match call s with
  | (.ok (.value v), s) => goOn ip (stack ++ [v]) s
  | (.ok (.native n), s) => some (.native ip stack n, s)
  | (.error e, s) => refuse ip stack e s

/-! ### Calls -/

section Calls

variable (env : Env) (R : Runtime σ N) (frame : CallFrame)

/-- The closure the value is, if it is one. -/
def closure? : Value → Option VmClosure
  | .vmClosure function upvalues bound => some ⟨function, upvalues, bound⟩
  | _ => none

/-- The function the frame runs. -/
def CallFrame.function : Function := env.function frame.closure.function

/-- The arguments of a call of `closure` from slot `first` on, with the values bound to the closure
put before them: the first of those in the slot below, if the closure takes its dictionary from
there.  With the number of arguments. -/
def withBound (closure : VmClosure) (first argc : Nat) (stack : List Value) :
    Option (List Value × Nat) :=
  match closure.bound with
  | [] => some (stack, argc)
  | dict :: rest =>
    if (env.function closure.function).dictSlot then
      if first = 0 then none
      else do
        let stack ← put stack (first - 1) dict
        return (stack.take first ++ rest ++ stack.drop first, argc + rest.length)
    else
      some (stack.take first ++ closure.bound ++ stack.drop first, argc + closure.bound.length)

/-- The error of a call with another number of arguments than the function takes. -/
def wrongArity (closure : VmClosure) (argc : Nat) : VmError :=
  let f := env.function closure.function
  .typeConfusion s!"function '{f.name}' expects {f.arity} arguments, got {argc}"

/-- Call the closure, whose slot is `funcSlot`, with the `argc` values above that. -/
def callClosure (ip : Nat) (closure : VmClosure) (argc funcSlot : Nat) (stack : List Value) :
    Arm σ N := fun s => do
  let (stack, argc) ← withBound env closure (funcSlot + 1) argc stack
  if argc ≠ (env.function closure.function).arity then
    refuse ip stack (wrongArity env closure argc) s
  else
    some (.enter ip stack closure (funcSlot + 1), s)

/-- Call a value that is no closure: its arguments, and its slot, leave the stack. -/
def callOther (ip : Nat) (callee : Value) (funcSlot : Nat) (stack : List Value) : Arm σ N :=
  let args := stack.drop (funcSlot + 1)
  match callee with
  | .builtinFn id => entered ip (stack.take funcSlot) (R.enterBuiltin id args)
  | .hostFn id =>
    entered ip (stack.take funcSlot) fun s =>
      let (result, s) := R.invokeHostFn id args s
      (result.map .value, s)
  | .variantConstructor tag =>
    if args.length ≠ tag.arity then
      refuse ip (stack.take funcSlot) (.typeConfusion
        s!"variant constructor '{tag.name}' expects {tag.arity} arguments, got {args.length}")
    else goOn ip (stack.take funcSlot ++ [.variant tag args])
  | other =>
    refuse ip (stack.take funcSlot)
      (.typeConfusion s!"cannot call value of type {R.userFacingTypeName other}")

/-- The slot of the function under the top `argc` values, and the function. -/
def calleeOf (argc : Nat) (stack : List Value) : Option (Nat × Value) :=
  if argc + 1 ≤ stack.length then
    (stack[stack.length - 1 - argc]?).map fun callee => (stack.length - 1 - argc, callee)
  else none

/-- The stack with the dictionary of a method, from the slot below its arguments, in the slot below
the frame: a method that takes the frame over finds it there. -/
def lendDict (closure : VmClosure) (first : Nat) (stack : List Value) : Option (List Value) :=
  if (env.function closure.function).dictSlot then
    if frame.base = 0 ∨ first = 0 then none
    else do put stack (frame.base - 1) (← stack[first - 1]?)
  else some stack

/-- The closure takes the frame over: the frame's first `keep` values stay, and the `argc` values
from slot `first` on follow them. -/
def reuseFrameAfter (closure : VmClosure) (first argc keep : Nat) (stack : List Value) :
    Option (Outcome N) := do
  let stack ← lendDict env frame closure first stack
  let stack ← copied (frame.base + keep) first argc stack
  return .become (stack.take (frame.base + keep + argc)) closure

/-- The closure takes the frame over, with the `argc` values from slot `first` on. -/
def takeOver (ip : Nat) (closure : VmClosure) (first argc : Nat) (stack : List Value) : Arm σ N :=
  fun s => do
    let (stack, argc) ← withBound env closure first argc stack
    if argc ≠ (env.function closure.function).arity then
      refuse ip stack (wrongArity env closure argc) s
    else return (← reuseFrameAfter env frame closure first argc 0 stack, s)

/-- Call the value with the `argc` values above the slot `funcSlot`.  In tail position (`tail`) a
closure takes the frame over. -/
def callValue (tail : Bool) (ip : Nat) (callee : Value) (argc funcSlot : Nat)
    (stack : List Value) : Arm σ N :=
  match closure? callee with
  | none => callOther R ip callee funcSlot stack
  | some closure =>
    if tail then takeOver env frame ip closure (funcSlot + 1) argc stack
    else callClosure env ip closure argc funcSlot stack

/-- `Call`, and `TailCall` (`tail`): call the function under the top `argc` values with them. -/
def call (tail : Bool) (ip argc : Nat) (stack : List Value) : Arm σ N := fun s => do
  let (funcSlot, callee) ← calleeOf argc stack
  callValue env R frame tail ip callee argc funcSlot stack s

/-- The tail call of the function under the top `argc` values with the frame's first `keep`
values, then those. -/
def tailCallKeep (ip argc keep : Nat) (stack : List Value) : Arm σ N := fun s => do
  let (funcSlot, callee) ← calleeOf argc stack
  match closure? callee with
  | none =>
    let kept ← keptValues keep
    refuse ip (stack.take (funcSlot + 1) ++ kept ++ stack.drop (funcSlot + 1))
      (.typeConfusion s!"cannot call value of type {callee.kind}") s
  | some closure =>
    if closure.bound.isEmpty ∧ keep + argc = (env.function closure.function).arity then
      return (← reuseFrameAfter env frame closure (funcSlot + 1) argc keep stack, s)
    else
      let kept ← keptValues keep
      takeOver env frame ip closure (funcSlot + 1) (argc + keep)
        (stack.take (funcSlot + 1) ++ kept ++ stack.drop (funcSlot + 1)) s
where
  /-- The frame's first `keep` values. -/
  keptValues (keep : Nat) : Option (List Value) :=
    if frame.base + keep ≤ stack.length then some ((stack.drop frame.base).take keep) else none

/-- The receiver of a call through the impl of a template is of the impl's type; then the call. -/
def checkReceiver (ip template slot : Nat) (stack : List Value) (callee : Arm σ N) : Arm σ N :=
  fun s =>
    match R.templateType template s with
    | (.error e, s) => refuse ip stack e s
    | (.ok ty, s) => do
      let receiver ← stack[slot]?
      if R.dispatchType receiver = ty then callee s
      else refuse ip stack (R.wrongImplReceiver template receiver) s

/-- The slot of the argument `receiver` of the top `argc` values. -/
def argumentSlot (argc receiver : Nat) (stack : List Value) : Option Nat :=
  if argc ≤ stack.length then some (stack.length - argc + receiver) else none

/-- The receiver of a call through a dictionary, if it is not of the dictionary's type `ty`: the
argument `receiver` of those from slot `first` on.  The call has none if that is 255. -/
def wrongReceiver? (ty first receiver : Nat) (stack : List Value) : Option (Option Value) :=
  if receiver = 255 then some none
  else (stack[first + receiver]?).map fun v => if R.dispatchType v = ty then none else some v

/-- The call of the method `found` of the dictionary below the top `argc` values, whose receiver
has been looked at. -/
def callDictMethod (tail : Bool) (ip : Nat) (found argc funcSlot : Nat) (stack : List Value) :
    Arm σ N := fun s =>
  match R.methodValue found s with
  | (.error e, s) => refuse ip stack e s
  | (.ok callee, s) => callValue env R frame tail ip callee argc funcSlot stack s

/-- `CallDict`, and `TailCallDict` (`tail`): call the method of the dictionary below the top `argc`
values with them. -/
def callDict (tail : Bool) (ip method argc receiver : Nat) (stack : List Value) : Arm σ N :=
  fun s => do
    let (funcSlot, dict) ← calleeOf argc stack
    match dict with
    | .dict _ _ =>
      match R.dictFind dict method s with
      | (.error e, s) => refuse ip stack e s
      | (.ok (found, ty), s) =>
        match ← wrongReceiver? R ty (funcSlot + 1) receiver stack with
        | some v => refuse ip stack (R.wrongReceiver dict v) s
        | none => callDictMethod env R frame tail ip found argc funcSlot stack s
    | other =>
      refuse ip stack
        (.typeConfusion s!"a dictionary was expected, not a value of kind {other.kind}") s

/-- Whether the value stands for a type: as a receiver it is no argument of the method. -/
def isDescriptor : Value → Bool
  | .typeDescriptor _ | .primitiveDescriptor _ => true
  | _ => false

/-- The stack with a slot that holds unit below slot `i`. -/
def openSlot (stack : List Value) (i : Nat) : List Value :=
  stack.take i ++ [.unit] ++ stack.drop i

/-- `CallMethod`, and `TailCallMethod` (`tail`): call the method of the trait `of` for the type of
the argument `receiver` of the top `argc` values, with them. -/
def callMethod (tail : Bool) (ip method argc of receiver : Nat) (stack : List Value) :
    Arm σ N := fun s => do
  let slot ← argumentSlot argc receiver stack
  let first := stack.length - argc
  let value ← stack[slot]?
  let (found, s) := R.method of value method s
  match found with
  | none => entered ip (stack.take first) (R.builtinMethod method of (stack.drop first)) s
  | some callee =>
    let opened := if isDescriptor value then stack else openSlot stack first
    match closure? callee with
    | none => callOther R ip callee first opened s
    | some closure =>
      if tail then
        let first := if isDescriptor value then first + 1 else first
        takeOver env frame ip closure first (stack.length - first) stack s
      else callClosure env ip closure (opened.length - first - 1) first opened s

end Calls

/-! ### The constants of a function -/

/-- The string constant `k`. -/
def stringAt (f : Function) (k : Nat) : Option String :=
  match f.constants[k]? with
  | some (.string s) => some s
  | _ => none

/-- The variant whose constructor the constant `k` is. -/
def tagAt (f : Function) (k : Nat) : Option Tag :=
  match f.constants[k]? with
  | some (.variantConstructor tag) => some tag
  | _ => none

/-- The type whose descriptor the constant `k` is. -/
def typeInfoAt (f : Function) (k : Nat) : Option TypeInfo :=
  match f.constants[k]? with
  | some (.typeDescriptor ty) => some ty
  | _ => none

/-- The function constant `k`. -/
def functionAt (f : Function) (k : Nat) : Option FnId :=
  match f.constants[k]? with
  | some (.vmClosure g _ _) => some g
  | _ => none

/-! ### The parts of a value -/

section Parts

variable (R : Runtime σ N)

/-- The element of a tuple. -/
def tupleElement (index : Nat) (v : Value) : Except VmError Value :=
  match v with
  | .tuple items =>
    match items[index]? with
    | some item => .ok item
    | none => .error (.typeConfusion
        s!"tuple destructure: expected at least {index + 1} elements, got {items.length}")
  | other => .error (.typeConfusion
      s!"tuple destructure: expected tuple, got {R.userFacingTypeName other}")

/-- The field of a variant. -/
def variantField (index : Nat) (v : Value) : Except VmError Value :=
  match v with
  | .variant _ fields =>
    match fields[index]? with
    | some field => .ok field
    | none => .error (.typeConfusion
        ("variant destructure: field index " ++ toString index ++
          " out of bounds (variant has " ++ toString fields.length ++ " fields)"))
  | other => .error (.typeConfusion
      s!"variant destructure: expected variant, got {R.userFacingTypeName other}")

/-- The element of a list. -/
def listElement (index : Nat) (v : Value) : Except VmError Value :=
  match v with
  | .list items =>
    match items[index]? with
    | some item => .ok item
    | none => .error (.typeConfusion
        s!"list destructure: expected at least {index + 1} elements, got {items.length}")
  | other => .error (.typeConfusion
      s!"list destructure: expected list, got {R.userFacingTypeName other}")

/-- The elements of a list from `start` on. -/
def listRest (start : Nat) (v : Value) : Except VmError Value :=
  match v with
  | .list items =>
    if start ≤ items.length then .ok (.list (items.drop start))
    else .error (.typeConfusion
      ("list destructure: rest pattern start " ++ toString start ++ " exceeds list length " ++
        toString items.length))
  | other => .error (.typeConfusion
      s!"list destructure: expected list, got {R.userFacingTypeName other}")

/-- The field of a record that its type declares at `index`. -/
def recordField (index : Nat) (v : Value) : Option Value :=
  match v with
  | .record _ fields => fields[index]?
  | _ => none

/-- The named field of a record; `other` is the error of a value that is no record. -/
def recordFieldNamed (name : String) (other : Value → String) (v : Value) :
    Except VmError Value :=
  match v with
  | .record ty fields =>
    match Value.field? ty fields name with
    | some field => .ok field
    | none => .error (.typeConfusion s!"record has no field '{name}'")
  | v => .error (.typeConfusion (other v))

/-- The record of the named fields, in the order the type declares them; none if they are not the
type's fields, each once. -/
def writtenRecord (ty : TypeInfo) (names : List String) (values : List Value) : Option Value :=
  if ty.fields.length ≠ values.length then none
  else if ty.fields = names then some (.record ty values)
  else do
    let fields ← ty.fields.mapM fun name => do
      let written ← names.findIdx? (· == name)
      values[written]?
    return .record ty fields

end Parts

/-! ### The arms -/

section Arms

variable (env : Env) (R : Runtime σ N) (frame : CallFrame)

/-- Go on with the answer to a question that takes nothing off the stack. -/
def pushAsked (ip : Nat) (stack : List Value) (question : Ask σ Value) : Arm σ N := fun s =>
  match question s with
  | (.ok v, s) => goOn ip (stack ++ [v]) s
  | (.error e, s) => refuse ip stack e s

/-- `DisplayValue`: make the value on top a segment of an interpolation. -/
def displayValue (ip : Nat) (stack : List Value) : Arm σ N := fun s => do
  let (below, v) ← popped stack
  match v with
  | .string _ | .int _ | .float _ | .bool _ => goOn ip stack s
  | v =>
    if implementsDisplay v then entered ip below (R.shown v) s
    else
      let name :=
        match v with
        | .typeDescriptor _ | .primitiveDescriptor _ => v.kind
        | v => R.dispatchTypeName v
      refuse ip below (.typeConfusion
        (s!"type '{name}' does not implement Display " ++
          "(required for string interpolation)")) s

/-- The text of the segments, whose values are in the slots from `next` on; the slot of a value
that has none. -/
def segmentsText (f : Function) (stack : List Value) :
    List Segment → Nat → String → Option (Except Nat String)
  | [], _, text => some (.ok text)
  | .literal k :: rest, next, text => do
    segmentsText f stack rest next (text ++ (← stringAt f k))
  | .value :: rest, next, text => do
    match R.plainText (← stack[next]?) with
    | some shown => segmentsText f stack rest (next + 1) (text ++ shown)
    | none => some (.error next)

/-- The longest string, in bytes. -/
def maxCollectionLen : Nat := 10000000

/-- `Interpolate`: put the string of the segments in place of their values. -/
def interpolate (ip : Nat) (segments : Segments) (stack : List Value) : Arm σ N := fun s => do
  let (below, values) ← split segments.values stack
  match segments.items, values with
  -- a lone segment that is a string is the string itself
  | [_], [.string _] => goOn ip stack s
  | items, _ =>
    match ← segmentsText R (frame.function env) stack items below.length "" with
    | .error slot =>
      let v ← stack[slot]?
      refuse ip stack (.typeConfusion
        (s!"string interpolation requires string values, got {R.userFacingTypeName v} " ++
          "— convert the value with `string.from` first")) s
    | .ok text =>
      if maxCollectionLen < text.utf8ByteSize then
        refuse ip stack (.new ("string interpolation: result would exceed maximum string size (" ++
          toString text.utf8ByteSize ++ " bytes > " ++ toString maxCollectionLen ++ " limit)")) s
      else goOn ip (below ++ [.string text]) s

/-- `SetGlobal`: the value on top goes into the global slot, and stays. -/
def setGlobal (ip slot : Nat) (stack : List Value) : Arm σ N := fun s => do
  let v ← stack.getLast?
  match R.setGlobal slot v s with
  | (true, s) => goOn ip stack s
  | (false, s) =>
    refuse ip stack (.typeConfusion s!"the global slot {slot} is none of the program's") s

/-- `MakeClosure`: the closure of the function with the captured values. -/
def makeClosure (ip k : Nat) (captures : List UpvalueDesc) (stack : List Value) : Arm σ N :=
  fun s => do
    let upvalues ← captures.mapM fun c =>
      if c.isLocal then stack[frame.base + c.index]? else frame.closure.upvalues[c.index]?
    let g ← functionAt (frame.function env) k
    goOn ip (stack ++ [.vmClosure g upvalues []]) s

/-- `MakeDict`: the dictionary of the impl whose dictionary the constant is, of the top `n`
values. -/
def makeDict (ip k n : Nat) (stack : List Value) : Arm σ N := fun s => do
  let proto ← (frame.function env).constants[k]?
  match R.template proto s with
  | (.error e, s) => refuse ip stack e s
  | (.ok template, s) =>
    let (below, parts) ← split n stack
    goOn ip (below ++ [.dict template parts]) s

/-- `DictMethod`: the method of the dictionary on top, then the dictionary. -/
def dictMethod (ip method of : Nat) (stack : List Value) : Arm σ N := fun s => do
  let (below, v) ← popped stack
  match v with
  | .unit => goOn ip (below ++ [R.undecidedMethod method of s, .unit]) s
  | dict =>
    match R.dictMethod dict method s with
    | (.ok callee, s) => goOn ip (below ++ [callee, dict]) s
    | (.error e, s) => refuse ip stack e s

/-- `DictSub`, `SuperDict`, `WhereDict`, `DictType`: what the dictionary on top has there; unit is
a dictionary no code will use. -/
def dictPart (ip : Nat) (part : DictPart) (stack : List Value) : Arm σ N :=
  askTop ip stack fun v s =>
    match v with
    | .unit => (.ok .unit, s)
    | dict => R.dictPart part dict s

/-- `Bind`: the closure below the top `n` values with those bound. -/
def bind (ip n : Nat) (stack : List Value) : Arm σ N := fun s => do
  let (below, values) ← split n stack
  let (rest, v) ← popped below
  match v with
  | .unit => goOn ip below s
  | .vmClosure function upvalues bound =>
    goOn ip (rest ++ [.vmClosure function upvalues (bound ++ values)]) s
  | v =>
    -- a method of a built-in impl takes no dictionary
    if v.kind == "BuiltinFn" && n == 1 then goOn ip below s
    else
      refuse ip below (.typeConfusion s!"dictionaries bound to a value of kind {v.kind}") s

/-- `Negate` of a value. -/
def negated (v : Value) : Except VmError Value :=
  match v with
  | .int n =>
    match checked (-n.toInt) with
    | some m => .ok (.int m)
    | none => .error (.new s!"integer overflow: negate {n}")
  | .float x => .ok (.float (-x))
  | v => .error (.typeConfusion s!"cannot negate {R.userFacingTypeName v}")

/-- `Not` of a value. -/
def notted (v : Value) : Except VmError Value :=
  match v with
  | .bool b => .ok (.bool !b)
  | v => .error (.typeConfusion s!"cannot apply 'not' to {R.userFacingTypeName v}")

/-- The list of the Ints from `a` to `b`. -/
def rangeOf (a b : Value) : Except VmError Value :=
  match a, b with
  | .int x, .int y => R.ints x y
  | a, b => .error (.typeConfusion
      ("range `a..b` requires two Int operands, got " ++ R.userFacingTypeName a ++ " and " ++
        R.userFacingTypeName b))

/-- Two lists as one. -/
def concatOf (a b : Value) : Except VmError Value :=
  match a, b with
  | .list xs, .list ys => R.concat xs ys
  | _, _ => .error (.typeConfusion "ListConcat: an operand is not a list")

/-- `MakeRecord` of the values of the named fields. -/
def recordOf (f : Function) (ty : Nat) (names : List Nat) (values : List Value) :
    Option (Except VmError Value) := do
  let info ← typeInfoAt f ty
  let names ← names.mapM (stringAt f)
  match writtenRecord info names values with
  | some record => some (.ok record)
  | none => some (.error (.typeConfusion "a record literal's fields are not its type's"))

/-- `RecordUpdate` of a record, then the values of the named fields. -/
def updateOf (f : Function) (names : List Nat) (values : List Value) :
    Option (Except VmError Value) :=
  match values with
  | .record ty fields :: values => do
    let names ← names.mapM (stringAt f)
    match R.updated ty fields names values with
    | some record => some (.ok record)
    | none => some (.error (.typeConfusion
        "record update `.\x7b...\x7d` of a field the record has not"))
  | v :: _ => some (.error (.typeConfusion
      ("record update `.\x7b...\x7d` requires a record, got " ++ R.userFacingTypeName v)))
  | [] => none

/-- `DestructRecordRest` of a record. -/
def restOf (f : Function) (excluded : List Nat) (values : List Value) :
    Option (Except VmError Value) :=
  match values with
  | [.record ty fields] => do
    let excluded ← excluded.mapM (stringAt f)
    some (.ok (R.rest ty fields excluded))
  | [v] => some (.error (.typeConfusion
      s!"record rest destructure: expected record, got {R.userFacingTypeName v}"))
  | _ => none

/-- The value of a key of a map. -/
def mapValue (f : Function) (key : Nat) (v : Value) : Option (Except VmError Value) := do
  let k ← f.constants[key]?
  match v with
  | .map entries =>
    match R.mapGet entries k with
    | some found => some (.ok found)
    | none => do
      let name ← stringAt f key
      some (.error (.typeConfusion s!"map has no key '{name}'"))
  | v => some (.error (.typeConfusion
      s!"map destructure: expected map, got {R.userFacingTypeName v}"))

/-- `?`: what an `Ok` or a `Some` holds; an `Err` or a `None` is the function's value. -/
def questionMark (ip : Nat) (stack : List Value) : Arm σ N := fun s => do
  let (below, v) ← popped stack
  match v with
  | .variant tag fields =>
    if R.okOrSome tag then
      match fields with
      | [held] => goOn ip (below ++ [held]) s
      | _ => goOn ip (below ++ [.unit]) s
    else if R.errOrNone tag then some (.returned (stack.take (frame.base - 1)) v, s)
    else
      refuse ip stack (.typeConfusion
        ("`?` applies only to Result or Option; got variant `" ++ tag.name ++ "`")) s
  | v =>
    refuse ip stack (.typeConfusion
      ("`?` applies only to Result or Option; got " ++ R.userFacingTypeName v)) s

/-- `Panic` with the message on top. -/
def panics (ip : Nat) (stack : List Value) : Arm σ N := fun s => do
  let (below, message) ← popped stack
  match R.panicked message s with
  | (.ok n, s) => some (.panics ip below n, s)
  | (.error e, s) => refuse ip below e s

/-- `Recur`: the top `argc` values go into the slots from `first` on, the frame is cut back to just
above them, and control goes to `dest`. -/
def recur (argc first dest : Nat) (stack : List Value) : Arm σ N := fun s => do
  if argc ≤ stack.length then
    let stack ← copied (frame.base + first) (stack.length - argc) argc stack
    goOn dest (stack.take (frame.base + first + argc)) s
  else none

/-- `Slide`: the value on top goes down to the slot, and the values above that leave. -/
def slide (ip slot : Nat) (stack : List Value) : Arm σ N := fun s => do
  let (_, v) ← popped stack
  if frame.base + slot < stack.length - 1 then
    let stack ← put stack (frame.base + slot) v
    goOn ip (stack.take (frame.base + slot + 1)) s
  else goOn ip stack s

end Arms

/-- The arm of the instruction, with the offset of the next one. -/
def exec (env : Env) (R : Runtime σ N) (frame : CallFrame) (instr : Instr Nat) (ip : Nat)
    (stack : List Value) : Arm σ N :=
  let f := frame.function env
  let compare (holds : Ordering → Bool) :=
    overTwo ip stack fun a b => (R.ordering a b).map fun o => .bool (holds o)
  let jumpUnlessOrdered (dest : Nat) (holds : Ordering → Bool) :=
    jumpUnless ip dest stack fun a b => (R.ordering a b).map holds
  let arithmetic (op : Arith) := overTwo ip stack (R.arithmetic op)
  let arithmeticConst (op : Arith) (k : Nat) : Arm σ N := fun s => do
    let b ← f.constants[k]?
    overTop ip stack (R.arithmetic op · b) s
  let gatherAll (n : Nat) (make : List Value → Value) :=
    gather ip n stack fun values => some (.ok (make values))
  match instr with
  | .constant k => pushFound ip stack f.constants[k]?
  | .unit => goOn ip (stack ++ [.unit])
  | .true => goOn ip (stack ++ [.bool true])
  | .false => goOn ip (stack ++ [.bool false])
  | .add => arithmetic .add
  | .sub => arithmetic .sub
  | .mul => arithmetic .mul
  | .div => arithmetic .div
  | .mod => arithmetic .mod
  | .addConst k => arithmeticConst .add k
  | .subConst k => arithmeticConst .sub k
  | .eq => overTwo ip stack fun a b => (R.equal a b).map .bool
  | .neq => overTwo ip stack fun a b => (R.equal a b).map fun holds => .bool !holds
  | .lt => compare Ordering.isLT
  | .gt => compare Ordering.isGT
  | .leq => compare Ordering.isLE
  | .geq => compare Ordering.isGE
  | .negate => overTop ip stack (negated R)
  | .not => overTop ip stack (notted R)
  | .interpolate segments => interpolate env R frame ip segments stack
  | .displayValue => displayValue R ip stack
  | .getLocal slot => pushFound ip stack stack[frame.base + slot]?
  | .setLocal slot => fun s => do
    let stack ← put stack (frame.base + slot) (← stack.getLast?)
    goOn ip stack s
  | .getGlobal slot => pushAsked ip stack (R.getGlobal slot)
  | .setGlobal slot => setGlobal R ip slot stack
  | .getUpvalue index => pushFound ip stack frame.closure.upvalues[index]?
  | .getClosure => goOn ip (stack ++ [frame.closure.value])
  | .call argc => call env R frame false ip argc stack
  | .tailCall argc => call env R frame true ip argc stack
  | .tailCallKeep argc keep => tailCallKeep env frame ip argc keep stack
  | .ret => fun s => do
    let (_, v) ← popped stack
    -- the function's own slot goes with its frame
    return (.returned (stack.take (frame.base - 1)) v, s)
  | .callBuiltin builtin argc => fun s => do
    let (below, args) ← split argc stack
    entered ip below (R.enterBuiltin builtin args) s
  | .makeClosure k captures => makeClosure env frame ip k captures stack
  | .makeTuple count => gatherAll count .tuple
  | .makeList count => gatherAll count .list
  | .makeMap pairs => gatherAll (pairs * 2) R.mapOf
  | .makeSet count => gatherAll count R.setOf
  | .makeRecord ty fields => gather ip fields.length stack (recordOf f ty fields)
  | .makeType ty count =>
    gather ip count stack fun values => do
      let info ← typeInfoAt f ty
      some (.ok (.typeDescriptor (R.applied info values)))
  | .recordUpdate fields => gather ip (fields.length + 1) stack (updateOf R f fields)
  | .makeRange => overTwo ip stack (rangeOf R)
  | .listConcat => overTwo ip stack (concatOf R)
  | .getField index =>
    overTop ip stack fun v =>
      match recordField index v with
      | some field => .ok field
      | none => .error (.typeConfusion
          s!"cannot access field {index} of {R.userFacingTypeName v}")
  | .getFieldNamed k => fun s => do
    let name ← stringAt f k
    overTop ip stack (recordFieldNamed name fun v =>
      s!"cannot access field '{name}' on {R.userFacingTypeName v}") s
  | .jump dest => goOn dest stack
  | .jumpIfFalse dest => fun s => do
    let (below, v) ← popped stack
    goOn (if v.isTruthy then ip else dest) below s
  | .jumpIfTrue dest => fun s => do
    let (below, v) ← popped stack
    goOn (if v.isTruthy then dest else ip) below s
  | .jumpIfNotLt dest => jumpUnlessOrdered dest Ordering.isLT
  | .jumpIfNotGt dest => jumpUnlessOrdered dest Ordering.isGT
  | .jumpIfNotLeq dest => jumpUnlessOrdered dest Ordering.isLE
  | .jumpIfNotGeq dest => jumpUnlessOrdered dest Ordering.isGE
  | .jumpIfNotEq dest => jumpUnless ip dest stack R.equal
  | .jumpIfNotNeq dest => jumpUnless ip dest stack fun a b => (R.equal a b).map (!·)
  | .pop => fun s => do
    let (below, _) ← popped stack
    goOn ip below s
  | .dup => pushFound ip stack stack.getLast?
  | .testTag k =>
    test ip stack fun v => (tagAt f k).map fun expected =>
      match v with
      | .variant tag _ => tag.ordinal == expected.ordinal && tag.ty.id == expected.ty.id
      | _ => false
  | .testEqual k => test ip stack fun v => (f.constants[k]?).map (R.equals v)
  | .testTupleLen len =>
    test ip stack fun v => some (match v with | .tuple items => items.length == len | _ => false)
  | .testListMin len =>
    test ip stack fun v => some (match v with | .list items => len ≤ items.length | _ => false)
  | .testListExact len =>
    test ip stack fun v => some (match v with | .list items => items.length == len | _ => false)
  | .testIntRange lo hi =>
    test ip stack fun v => do
      match v, ← f.constants[lo]?, ← f.constants[hi]? with
      | .int n, .int lo, .int hi => some (lo ≤ n && n ≤ hi)
      | _, _, _ => some false
  | .testFloatRange lo hi =>
    test ip stack fun v => do
      match v, ← f.constants[lo]?, ← f.constants[hi]? with
      | .float n, .float lo, .float hi =>
        some ((R.cmp (.float n) (.float lo)).isGE && (R.cmp (.float n) (.float hi)).isLE)
      | _, _, _ => some false
  | .destructTuple index => destruct ip stack fun v => some (tupleElement R index v)
  | .destructVariant index => destruct ip stack fun v => some (variantField R index v)
  | .destructList index => destruct ip stack fun v => some (listElement R index v)
  | .destructListRest start => destruct ip stack fun v => some (listRest R start v)
  | .destructRecordField index =>
    destruct ip stack fun v =>
      match recordField index v with
      | some field => some (.ok field)
      | none => some (.error (.typeConfusion
          s!"record destructure: no field {index} in {R.userFacingTypeName v}"))
  | .destructRecordFieldNamed k =>
    destruct ip stack fun v => do
      let name ← stringAt f k
      some (recordFieldNamed name (fun v =>
        s!"record destructure: expected record, got {R.userFacingTypeName v}") v)
  | .destructRecordRest excluded => gather ip 1 stack (restOf R f excluded)
  | .testRecordTag ty =>
    test ip stack fun v => (typeInfoAt f ty).map fun expected =>
      match v with
      | .record info _ => info.id == expected.id
      | _ => false
  | .testMapHasKey key =>
    test ip stack fun v => (f.constants[key]?).map fun k =>
      match v with
      | .map entries => (R.mapGet entries k).isSome
      | _ => false
  | .destructMapValue key => destruct ip stack (mapValue R f key)
  | .recur argc first dest => recur frame argc first dest stack
  | .questionMark => questionMark R frame ip stack
  | .panic => panics R ip stack
  | .callMethod method argc of receiver =>
    callMethod env R frame false ip method argc of receiver stack
  | .tailCallMethod method argc of receiver =>
    callMethod env R frame true ip method argc of receiver stack
  | .makeDict k n => makeDict env R frame ip k n stack
  | .callDict method argc receiver => callDict env R frame false ip method argc receiver stack
  | .tailCallDict method argc receiver => callDict env R frame true ip method argc receiver stack
  | .callChecked argc receiver template => fun s => do
    let slot ← argumentSlot argc receiver stack
    checkReceiver R ip template slot stack (call env R frame false ip argc stack) s
  | .tailCallChecked argc receiver template => fun s => do
    let slot ← argumentSlot argc receiver stack
    checkReceiver R ip template slot stack (call env R frame true ip argc stack) s
  | .frameDict =>
    pushFound ip stack (if frame.base = 0 then none else stack[frame.base - 1]?)
  | .dictMethod method of => dictMethod R ip method of stack
  | .dictSub k => dictPart R ip (.sub k) stack
  | .superDict index => dictPart R ip (.super index) stack
  | .whereDict index => dictPart R ip (.clause index) stack
  | .dictType => dictPart R ip .type stack
  | .typeArg k => askTop ip stack fun v s => (R.typeArg k v, s)
  | .bind n => bind ip n stack
  | .slide slot => slide frame ip slot stack

end Silt.Vm

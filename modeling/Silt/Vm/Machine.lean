import Mathlib.Algebra.Ring.Nat
import Silt.Lib.Sliced
import Silt.Vm.Exec

/-!
# The instruction loop

The machine with its frames, and `runFrames`, which runs them for at most a budget of steps.  A
frame is a function's, which runs instructions, or a builtin's, which is resumed with a value.  An
instruction and a resumption cost one step each.  An instruction that fuses two costs two: with one
step left its first part runs, the slice ends, and the next slice starts with the second part.

The frames are those above the floor of the run, the top one first.  Builtins do not wait here: a
resumption gives a value, another builtin, a call or an error.

## Main definitions

* `Machine` : the frames, the stack and what an earlier slice left behind.
* `firstPart`, `secondPart` : the two parts of an instruction that fuses two.
* `runFrames` : a slice.
* `slices` : one slice after another.
-/

namespace Silt.Vm

open Bytecode

variable {σ N : Type}

/-- A frame: a function's with its instruction pointer, or a builtin's. -/
inductive Frame (N : Type) where
  | code (frame : CallFrame) (ip : Nat)
  | native (n : N)

/-- The second part of an instruction that fuses two, left for the next slice. -/
inductive Half where
  /-- `Add` or `Sub` of the two values on top. -/
  | arith (op : Arith)
  /-- Take the Bool on top off, and jump if it is false. -/
  | branch (dest : Nat)
  | jump (dest : Nat)

/-- The machine between two steps.  `begun` is the history, not a field of the source: the frames
and the stack of every state in which an instruction began, the last one first. -/
structure Machine (σ N : Type) where
  frames : List (Frame N)
  stack : List Value
  half : Option Half := none
  /-- The value for the builtin's frame on top, that an earlier slice had no step left for. -/
  pendingInput : Option Value := none
  world : σ
  begun : List (List (Frame N) × List Value) := []

/-- What a builtin's frame does when it is resumed. -/
inductive Step (N : Type) where
  | done (v : Value)
  /-- The frame becomes another builtin's. -/
  | run (next : N)
  /-- Call a value, with arguments; `slot` is what the callee's slot holds. -/
  | call (callee slot : Value) (args : List Value)

/-- The builtins' frames: what a resumption with a value does, and the frame after it. -/
structure Natives (σ N : Type) where
  resume : N → Value → σ → Except VmError (Step N) × N × σ

/-- How the run of the frames ends. -/
inductive End (σ N : Type) where
  | done (v : Value) (m : Machine σ N)
  | failed (e : VmError) (m : Machine σ N)
  /-- The source would stop the program. -/
  | stopped

/-- How a slice ends.  A slice whose frames are done has some of its budget left. -/
inductive Slice (σ N : Type) where
  | done (v : Value) (left : Nat) (m : Machine σ N)
  | outOfBudget (m : Machine σ N)
  | failed (e : VmError) (m : Machine σ N)
  | stopped

/-- The slice that ends so with `left` steps of its budget left. -/
def End.slice (left : Nat) : End σ N → Slice σ N
  | .done v m => .done v left m
  | .failed e m => .failed e m
  | .stopped => .stopped

/-- Where the machine is after an instruction or a resumption. -/
inductive Got (σ N : Type) where
  /-- A function's frame is on top, and goes on. -/
  | goesOn (m : Machine σ N)
  /-- The frame on top is given a value. -/
  | gives (v : Value) (m : Machine σ N)
  | ends (e : End σ N)

/-- The most calls of functions in progress. -/
def maxFrames : Nat := 100000

/-- The error of a call that would be one more. -/
def stackOverflowError : VmError :=
  .new s!"stack overflow: recursion depth exceeded {maxFrames} frames"

/-- Whether the frame is a function's. -/
def Frame.isCode : Frame N → Bool
  | .code _ _ => true
  | .native _ => false

namespace Machine

variable (env : Env) (R : Runtime σ N) (natives : Natives σ N)

/-- Push the frame of a call of the closure, if there is room for one more. -/
def pushCodeFrame (closure : VmClosure) (base : Nat) (m : Machine σ N) : Got σ N :=
  if maxFrames ≤ m.frames.countP Frame.isCode then .ends (.failed stackOverflowError m)
  else .goesOn { m with frames := .code ⟨closure, base⟩ 0 :: m.frames }

/-- What the loop does at the end of an arm that ran in `frame`, with the frames `rest` below. -/
def obey (frame : CallFrame) (rest : List (Frame N)) (m : Machine σ N) : Outcome N → Got σ N
  | .go ip stack => .goesOn { m with frames := .code frame ip :: rest, stack }
  | .enter ip stack closure base =>
    pushCodeFrame closure base { m with frames := .code frame ip :: rest, stack }
  | .native ip stack n | .panics ip stack n =>
    .gives .unit { m with frames := .native n :: .code frame ip :: rest, stack }
  | .become stack closure =>
    .goesOn { m with frames := .code { frame with closure } 0 :: rest, stack }
  | .returned stack v => .gives v { m with frames := rest, stack }
  | .fail ip stack e => .ends (.failed e { m with frames := .code frame ip :: rest, stack })

/-- The history with the state an instruction begins in. -/
def noted (m : Machine σ N) : Machine σ N := { m with begun := (m.frames, m.stack) :: m.begun }

/-- Run the instruction at `ip` whole. -/
def whole (frame : CallFrame) (ip : Nat) (rest : List (Frame N)) (m : Machine σ N) : Got σ N :=
  match decode (frame.function env).code ip with
  | none => .ends .stopped
  | some (instr, next) =>
    match exec env R frame instr next m.stack m.world with
    | none => .ends .stopped
    | some (o, world) => obey frame rest { m.noted with world } o

/-! ### Instructions of two parts -/

/-- Whether the opcode is of an instruction that fuses two. -/
def fusesTwo (byte : UInt8) : Bool :=
  -- AddConst, SubConst, the comparing jumps, Recur
  [9, 10, 47, 48, 49, 50, 51, 52, 72].contains byte

/-- The values over the slots from `dst` on, the first one first. -/
def written (dst : Nat) : List Value → List Value → Option (List Value)
  | [], stack => some stack
  | v :: values, stack => do written (dst + 1) values (← put stack dst v)

/-- A comparison's Bool in place of its operands, which leave the stack if it refuses them. -/
def compared (dest : Nat) (stack : List Value) (f : Value → Value → Except VmError Bool) :
    Option (Except VmError Half × List Value) := do
  let (below, b) ← popped stack
  let (below, a) ← popped below
  match f a b with
  | .ok holds => return (.ok (.branch dest), below ++ [.bool holds])
  | .error e => return (.error e, below)

/-- The first part of an instruction that fuses two: the second part, and the stack. -/
def firstPart (frame : CallFrame) (instr : Instr Nat) (stack : List Value) :
    Option (Except VmError Half × List Value) :=
  let pushConstant (op : Arith) (k : Nat) : Option (Except VmError Half × List Value) := do
    return (.ok (.arith op), stack ++ [← (frame.function env).constants[k]?])
  let ordered (dest : Nat) (holds : Ordering → Bool) :=
    compared dest stack fun a b => (R.ordering a b).map holds
  match instr with
  | .addConst k => pushConstant .add k
  | .subConst k => pushConstant .sub k
  | .jumpIfNotLt dest => ordered dest Ordering.isLT
  | .jumpIfNotGt dest => ordered dest Ordering.isGT
  | .jumpIfNotLeq dest => ordered dest Ordering.isLE
  | .jumpIfNotGeq dest => ordered dest Ordering.isGE
  | .jumpIfNotEq dest => compared dest stack fun a b => (R.otherEqual a b).map (· == true)
  | .jumpIfNotNeq dest => compared dest stack fun a b => (R.otherEqual a b).map (· == false)
  | .recur argc first dest => do
    let (below, values) ← split argc stack
    let stack ← written (frame.base + first) values below
    return (.ok (.jump dest), stack.take (frame.base + first + argc))
  | _ => none

/-- The second part, in a frame whose instruction pointer is `ip`: the instruction pointer, and the
stack. -/
def secondPart (ip : Nat) (stack : List Value) : Half → Option (Except VmError Nat × List Value)
  | .arith op => do
    let (below, b) ← popped stack
    let (below, a) ← popped below
    match R.arithmetic op a b with
    | .ok v => return (.ok ip, below ++ [v])
    | .error e => return (.error e, below)
  | .branch dest => do
    let (below, v) ← popped stack
    match v with
    | .bool false => return (.ok dest, below)
    | _ => return (.ok ip, below)
  | .jump dest => some (.ok dest, stack)

/-- Run the first part of the instruction at `ip`. -/
def runFirst (frame : CallFrame) (ip : Nat) (rest : List (Frame N)) (m : Machine σ N) :
    Machine σ N ⊕ End σ N :=
  match decode (frame.function env).code ip with
  | none => .inr .stopped
  | some (instr, next) =>
    match firstPart env R frame instr m.stack with
    | none => .inr .stopped
    | some (.ok half, stack) =>
      .inl { m.noted with frames := .code frame next :: rest, stack, half := some half }
    | some (.error e, stack) =>
      .inr (.failed e { m.noted with frames := .code frame next :: rest, stack })

/-- Run the second part of the instruction whose first part ran at the end of the last slice. -/
def runSecond (half : Half) (m : Machine σ N) : Machine σ N ⊕ End σ N :=
  match m.frames with
  | .code frame ip :: rest =>
    match secondPart R ip m.stack half with
    | none => .inr .stopped
    | some (.ok ip, stack) =>
      .inl { m with frames := .code frame ip :: rest, stack, half := none }
    | some (.error e, stack) =>
      .inr (.failed e { m with frames := .code frame ip :: rest, stack, half := none })
  | _ => .inr .stopped

/-! ### Builtins' frames -/

/-- A call of a builtin's frame: the callee's slot and its arguments go on the stack.  The value of
a callee that is done at once is given to the frame, not pushed. -/
def callFrom (callee slot : Value) (args : List Value) (m : Machine σ N) : Got σ N :=
  let funcSlot := m.stack.length
  let stack := m.stack ++ slot :: args
  match closure? callee with
  | some closure =>
    match withBound env closure (funcSlot + 1) args.length stack with
    | none => .ends .stopped
    | some (stack, argc) =>
      if argc ≠ (env.function closure.function).arity then
        .ends (.failed (wrongArity env closure argc) { m with stack })
      else pushCodeFrame closure (funcSlot + 1) { m with stack }
  | none =>
    match callOther R 0 callee funcSlot stack m.world with
    | some (.go _ stack, world) =>
      match popped stack with
      | some (stack, v) => .gives v { m with stack, world }
      | none => .ends .stopped
    | some (.native _ stack n, world) =>
      .gives .unit { m with frames := .native n :: m.frames, stack, world }
    | some (.fail _ stack e, world) => .ends (.failed e { m with stack, world })
    | _ => .ends .stopped

/-- Resume the builtin's frame `n` with the value, with the frames `rest` below. -/
def resumeNative (n : N) (v : Value) (rest : List (Frame N)) (m : Machine σ N) : Got σ N :=
  match natives.resume n v m.world with
  | (.ok (.done result), _, world) => .gives result { m with frames := rest, world }
  | (.ok (.run next), _, world) => .gives .unit { m with frames := .native next :: rest, world }
  | (.ok (.call callee slot args), n, world) =>
    callFrom env R callee slot args { m with frames := .native n :: rest, world }
  | (.error e, n, world) => .ends (.failed e { m with frames := .native n :: rest, world })

/-! ### The loop -/

/-- What became of a value that was given to the frame on top: the loop goes on with a function's
frame and what is left of the budget, or the slice is over. -/
inductive Delivered (σ N : Type) where
  | goesOn (left : Nat) (m : Machine σ N)
  | over (slice : Slice σ N)

/-- The slice, whose loop goes on as `go` says. -/
def Delivered.slice (go : Nat → Machine σ N → Slice σ N) : Delivered σ N → Slice σ N
  | .goesOn left m => go left m
  | .over slice => slice

/-- Give the value to the frame on top: a function's gets it on the stack, a builtin's is resumed
with it, until one calls a function or the slice ends. -/
def deliver (budget : Nat) (v : Value) (m : Machine σ N) : Delivered σ N :=
  match m.frames with
  | [] => .over (.done v budget m)
  | .code _ _ :: _ => .goesOn budget { m with stack := m.stack ++ [v] }
  | .native n :: rest =>
    match budget with
    | 0 => .over (.outOfBudget { m with pendingInput := some v })
    | budget + 1 =>
      match resumeNative env R natives n v rest m with
      | .goesOn m => .goesOn budget m
      | .gives v m => deliver budget v m
      | .ends e => .over (e.slice budget)

/-- Whether the instruction at `ip` fuses two. -/
def fusesAt (frame : CallFrame) (ip : Nat) : Bool :=
  ((frame.function env).code[ip]?).any fusesTwo

/-- What the instruction at `ip` costs beyond its first step. -/
def secondStep (frame : CallFrame) (ip : Nat) : Nat := if fusesAt env frame ip then 1 else 0

/-- The loop: one instruction after another of the function's frame on top.  Each takes a step, so
a budget of at most `fuel` is used up before the fuel is. -/
def loop (fuel budget : Nat) (m : Machine σ N) : Slice σ N :=
  match fuel, budget with
  | 0, _ | _, 0 => .outOfBudget m
  | fuel + 1, budget + 1 =>
    match m.frames with
    | .code frame ip :: rest =>
      if budget = 0 ∧ fusesAt env frame ip then
        match runFirst env R frame ip rest m with
        | .inl m => .outOfBudget m
        | .inr e => e.slice 0
      else
        -- an instruction that fuses two takes its second step in its arm
        let left := budget - secondStep env frame ip
        match whole env R frame ip rest m with
        | .goesOn m => loop fuel left m
        | .gives v m => (deliver env R natives left v m).slice fun left m => loop fuel left m
        | .ends e => e.slice left
    | _ => .stopped

/-- Go on after an earlier slice: a builtin's frame on top gets the value that is there for it, or
unit. -/
def goOnFrom (budget : Nat) (m : Machine σ N) : Slice σ N :=
  match m.frames with
  | .native _ :: _ =>
    (deliver env R natives budget (m.pendingInput.getD .unit) { m with pendingInput := none }).slice
      fun left m => loop env R natives left left m
  | _ => loop env R natives budget budget m

/-- A slice: run the frames for at most `budget` steps. -/
def runFrames (budget : Nat) (m : Machine σ N) : Slice σ N :=
  match m.frames with
  | [] => .done .unit budget m
  | _ :: _ =>
    match m.half, budget with
    | none, _ => goOnFrom env R natives budget m
    | some _, 0 => .outOfBudget m
    | some half, budget + 1 =>
      match runSecond R half m with
      | .inl m => goOnFrom env R natives budget m
      | .inr e => e.slice budget

/-- Slices with these budgets, each going on where the one before ran out of budget.  What is left
is left of all the budgets together. -/
def slices : List Nat → Machine σ N → Slice σ N
  | [], m => .outOfBudget m
  | budget :: budgets, m =>
    match runFrames env R natives budget m with
    | .outOfBudget m => slices budgets m
    | .done v left m => .done v (left + budgets.sum) m
    | slice => slice

end Machine

end Silt.Vm

import Silt.Sync.Channel

/-!
# What a task waits for, and the park that starts the wait

A wait has some arms, each on a channel or on a cell, and maybe a deadline. `park` either completes
one arm at once or leaves a token on the queue of every arm. This file models
`runtime/sync/wait.rs`: the part of `park` that runs with all channels of the wait locked
(`Locked.park`).

## Main definitions

* `Silt.Sync.Arm`, `Silt.Sync.Wait`.
* `Silt.Sync.Locked`, `Silt.Sync.Locked.tryArms`, `Silt.Sync.Locked.park`.
-/

namespace Silt.Sync

/-- A reading of the clock's monotonic time. -/
abbrev Time := Nat

/-- One thing a wait can end on. -/
inductive Arm (V : Type) where
  | recv (chan : ChanId)
  | send (chan : ChanId) (value : V)
  | cell (cell : CellId)
  | demand (chan : ChanId)
  deriving DecidableEq, Repr

/-- An arm without its value: what a parked task is queued on. -/
inductive Source where
  | recv (chan : ChanId)
  | send (chan : ChanId)
  | cell (cell : CellId)
  | demand (chan : ChanId)
  deriving DecidableEq, Repr

/-- What a task waits for. -/
structure Wait (V : Type) where
  arms : List (Arm V)
  deadline : Option Time
  first : Nat
  cancel : Option FlagId
  taskDeadline : Option Time
  deriving DecidableEq, Repr

/-- The two times that can end a wait, and whether each had come when the wait began. -/
structure Times where
  deadline : Option Time
  expired : Bool
  taskDeadline : Option Time
  taskExpired : Bool
  deriving DecidableEq, Repr

/-- The result of the part of a park that runs under the locks. -/
inductive Park (V : Type) where
  | ready (fired : Fired V)
  | parked
  | cancelled
  | expired
  deriving DecidableEq, Repr

variable {V : Type}

/-- How the wait ended under the locks, if it did. -/
def Park.resumed : Park V → Option (Resumed V)
  | .ready fired => some (.fired fired)
  | .parked => none
  | .cancelled => some .cancelled
  | .expired => some .expired

/-- What the task is queued on. -/
def Arm.source : Arm V → Source
  | .recv chan => .recv chan
  | .send chan _ => .send chan
  | .cell id => .cell id
  | .demand chan => .demand chan

/-- The value of a send. -/
def Arm.payload : Arm V → Option V
  | .send _ value => some value
  | .recv _ | .cell _ | .demand _ => none

/-- The arms in the order they are tried: from `first` on, around the end. -/
def tryOrder (first count : Nat) : List Nat :=
  (List.range count).map fun i => (first + i) % count

/-- Whether the task of a wait that begins takes nothing new. -/
def takesNothingNew (cancelled taskExpired : Bool) : Bool :=
  cancelled || taskExpired

/-- Whether a time has come at the reading `now`. -/
def isOver (now : Time) : Option Time → Bool
  | none => false
  | some time => decide (time ≤ now)

/-- The times of a wait that begins at the reading `now`. -/
def Wait.times (wait : Wait V) (now : Time) : Times where
  deadline := wait.deadline
  expired := isOver now wait.deadline
  taskDeadline := wait.taskDeadline
  taskExpired := isOver now wait.taskDeadline

/-- What a park works on while it holds the locks of its channels: the channels and the tokens. -/
structure Locked (V : Type) where
  chan : ChanId → State V
  peers : Peers V

namespace Locked

/-- Run an operation on the channel `id` and keep what it leaves. -/
def set (locked : Locked V) (id : ChanId) (state : State V) (peers : Peers V) : Locked V :=
  { chan := Function.update locked.chan id state, peers }

/-- A send on the channel `id` that does not wait, by an arm of a wait or by none. -/
def trySend (locked : Locked V) (caller : Option (TokenId × Nat)) (id : ChanId) (value : V) :
    TrySend V × Locked V :=
  match (locked.chan id).send locked.peers value with
  | (result, state, peers) =>
    (result, locked.set id state (peers.noteReturn id caller (some value) result.outcome))

/-- A receive from the channel `id` that does not wait, by an arm of a wait or by none. -/
def tryReceive (locked : Locked V) (caller : Option (TokenId × Nat)) (id : ChanId) :
    TryReceive V × Locked V :=
  match (locked.chan id).receive locked.peers with
  | (result, state, peers) =>
    (result, locked.set id state (peers.noteReturn id caller none result.outcome))

/-- Try one arm of the wait: how it was completed, if it could be. `seen` is what the look at the
cells finds. -/
def tryArm (locked : Locked V) (wait : TokenId) (noTakes : Bool) (seen : CellId → Bool)
    (index : Nat) : Arm V → Option (Outcome V) × Locked V
  | .recv id =>
    if noTakes then (none, locked)
    else
      match locked.tryReceive (some (wait, index)) id with
      | (result, locked) => (result.outcome, locked)
  | .demand id => if noTakes then (none, locked) else ((locked.chan id).demand, locked)
  | .send id value =>
    match locked.trySend (some (wait, index)) id value with
    | (result, locked) => (result.outcome, locked)
  | .cell id => (if seen id then some .done else none, locked)

/-- Try arms in the given order, up to the first that can be completed. -/
def tryArms (locked : Locked V) (wait : TokenId) (noTakes : Bool) (seen : CellId → Bool)
    (arms : List (Arm V)) : List Nat → Option (Fired V) × Locked V
  | [] => (none, locked)
  | index :: order =>
    match arms[index]? with
    | none => locked.tryArms wait noTakes seen arms order
    | some arm =>
      match locked.tryArm wait noTakes seen index arm with
      | (some outcome, locked) => (some (.arm index outcome), locked)
      | (none, locked) => locked.tryArms wait noTakes seen arms order

/-- Put the waiter of one arm on the queue of its channel. -/
def enqueue (locked : Locked V) (wait : TokenId) (arm : Arm V) (index : Nat) : Locked V :=
  let waiter : Waiter V := { token := wait, arm := index, payload := arm.payload }
  match arm with
  | .recv id =>
    let state := locked.chan id
    locked.set id { state with recvq := state.recvq ++ [waiter] } locked.peers
  | .send id _ =>
    let state := locked.chan id
    locked.set id { state with sendq := state.sendq ++ [waiter] } locked.peers
  | .demand id =>
    let state := locked.chan id
    locked.set id { state with demandq := state.demandq ++ [waiter] } locked.peers
  | .cell _ => locked

/-- Put the waiters of the arms, the first of which has the index `index`, on their queues. -/
def enqueueAll (locked : Locked V) (wait : TokenId) (index : Nat) : List (Arm V) → Locked V
  | [] => locked
  | arm :: arms => (locked.enqueue wait arm index).enqueueAll wait (index + 1) arms

/-- Make the token of the wait. -/
def newToken (locked : Locked V) (wait : TokenId) (task : TaskId) (cancel : Option FlagId) :
    Locked V :=
  { locked with
    peers := { locked.peers with
      token := Function.update locked.peers.token wait (Token.new task cancel) } }

/-- Start a wait: the part of `park` up to where the locks are released. A wait with one arm takes
the same way: what `park_one` does for it is the same, as `Silt.Sync.ParkSteps` shows step by
step. -/
def park (locked : Locked V) (wait : TokenId) (task : TaskId) (what : Wait V) (now : Time)
    (seen : CellId → Bool) : Park V × Locked V :=
  let times := what.times now
  let cancelled := isSet locked.peers.flags what.cancel
  let noTakes := takesNothingNew cancelled times.taskExpired
  match locked.tryArms wait noTakes seen what.arms (tryOrder what.first what.arms.length) with
  | (some fired, locked) => (.ready fired, locked)
  | (none, locked) =>
    if cancelled then (.cancelled, locked)
    else if times.taskExpired then (.expired, locked)
    else if times.expired then (.ready .deadline, locked)
    else (.parked, (locked.newToken wait task what.cancel).enqueueAll wait 0 what.arms)

end Locked

end Silt.Sync

import Silt.Sync.Wait

/-!
# Waits, channels, cells and the timer together

The parties that can end a wait: peers on a channel (`Silt.Sync.State`), whoever completes a cell
(`runtime/sync/cell.rs`), the timer (`runtime/sync/timer.rs`), and a cancel of the task. The state
of all of them is a `World`. A step of a world is what one party does without another in between:
the part of an operation that runs under one lock, or one claim.

The operations that take several such steps are taken apart. `Cell::complete` sets the value, takes
the queue and claims the waiters one by one. `Timer::fire_due` takes the entries that are due and
carries them out one by one. `park` looks at the arms and joins the queues of the channels under
the locks of all its channels, and joins the queues of its cells and the timer after that; the
look at a cell may be behind.

## Main definitions

* `Silt.Sync.World`, `Silt.Sync.Op`, `Silt.Sync.World.step`, `Silt.Sync.World.run`.
-/

namespace Silt.Sync

/-- A cell: whether it is complete, those who wait for it, and those whom the one who completed it
has taken off the queue and not claimed yet. -/
structure CellState (V : Type) where
  done : Bool
  waiters : List (Waiter V)
  firing : List (Waiter V)
  deriving DecidableEq, Repr

/-- An armed entry of the timer: its deadline and a number that tells entries of one deadline
apart. -/
structure TimerId where
  deadline : Time
  number : Nat
  deriving DecidableEq, Repr

/-- What the timer does at a deadline. -/
inductive Action where
  | fire (token : TokenId)
  | expire (token : TokenId)
  | close (chan : ChanId)
  deriving DecidableEq, Repr

/-- The timer: the entries in the order of their ids, and the actions that `fire_due` has taken out
and not carried out yet. -/
structure Timer where
  next : Nat
  entries : List (TimerId × Action)
  firing : List Action
  deriving DecidableEq, Repr

/-- A task's place on the queues of its wait, with the times of the wait. -/
structure Parked where
  sources : List Source
  times : Times
  timer : Option TimerId
  finished : Bool
  deriving DecidableEq, Repr

/-- The channels, the tokens and the waits that have parked. Waits are numbered in the order they
begin; `next` is the number of the next one. -/
structure Waits (V : Type) extends Locked V where
  next : TokenId
  parked : TokenId → Option Parked

/-- The channels, the tokens, the waits, the cells and the timer. -/
structure World (V : Type) extends Waits V where
  cell : CellId → CellState V
  timer : Timer

variable {V : Type}

/-- The order of the timer's ids. -/
def TimerId.le (a b : TimerId) : Bool :=
  a.deadline < b.deadline || (a.deadline == b.deadline && a.number ≤ b.number)

namespace Timer

/-- Add an entry, in its place. -/
def insert (id : TimerId) (action : Action) :
    List (TimerId × Action) → List (TimerId × Action)
  | [] => [(id, action)]
  | entry :: entries =>
    if id.le entry.1 then (id, action) :: entry :: entries else entry :: insert id action entries

/-- Put an entry in. -/
def arm (timer : Timer) (deadline : Time) (action : Action) : TimerId × Timer :=
  let id : TimerId := { deadline, number := timer.next }
  (id, { timer with next := timer.next + 1, entries := insert id action timer.entries })

/-- Take an entry out before its time. -/
def disarm (timer : Timer) (id : TimerId) : Timer :=
  { timer with entries := timer.entries.filter fun entry => entry.1 != id }

/-- Take out the entries whose deadline the clock has reached, or all if the clock has failed. -/
def fireDue (timer : Timer) (now : Time) (failed : Bool) : Timer :=
  let due (entry : TimerId × Action) : Bool := failed || entry.1.deadline ≤ now
  { timer with
    entries := timer.entries.filter fun entry => !due entry
    firing := timer.firing ++ (timer.entries.filter due).map Prod.snd }

end Timer

/-- Put the wait of `token` in the timer: one entry, at the earlier of the two times. When both are
the same reading it is the task's. -/
def Times.arm (times : Times) (timer : Timer) (token : TokenId) : Option TimerId × Timer :=
  match times.deadline, times.taskDeadline with
  | some own, some task =>
    if own < task then
      let (id, timer) := timer.arm own (.fire token)
      (some id, timer)
    else
      let (id, timer) := timer.arm task (.expire token)
      (some id, timer)
  | none, some task =>
    let (id, timer) := timer.arm task (.expire token)
    (some id, timer)
  | some own, none =>
    let (id, timer) := timer.arm own (.fire token)
    (some id, timer)
  | none, none => (none, timer)

/-- What one party does without another in between. -/
inductive Op (V : Type) where
  | trySend (chan : ChanId) (value : V)
  | tryReceive (chan : ChanId)
  | close (chan : ChanId) (how : Close)
  | drain (chan : ChanId)
  /-- A park up to where it releases the locks. A cell that is `seen` complete is complete. -/
  | park (task : TaskId) (wait : Wait V) (now : Time) (seen : CellId → Bool)
  /-- A park joins the queue of the cell of its arm. -/
  | enqueueCell (wait : TokenId) (arm : Nat)
  /-- A park joins the timer. -/
  | armTimer (wait : TokenId)
  | commit (wait : TokenId)
  | cancel (wait : TokenId)
  | finish (wait : TokenId)
  /-- The first step of the drop of a `Parked`. -/
  | abandon (wait : TokenId)
  /-- The drop takes the wait off the queue of an arm. -/
  | forget (wait : TokenId) (arm : Nat)
  /-- The drop takes the wait out of the timer. -/
  | disarm (wait : TokenId)
  | setFlag (flag : FlagId)
  /-- `Cell::complete` sets the value. -/
  | complete (cell : CellId)
  /-- `Cell::complete` takes the queue. -/
  | takeQueue (cell : CellId)
  /-- `Cell::complete` claims the next waiter. -/
  | fireNext (cell : CellId)
  | closeAt (chan : ChanId) (deadline : Time)
  /-- `Timer::fire_due` takes out what is due. -/
  | fireDue (now : Time) (failed : Bool)
  /-- `Timer::fire_due` carries one entry out. -/
  | carryOut (index : Nat)

namespace World

/-- Run an operation on the channel `id`. -/
def onChan (world : World V) (id : ChanId) (result : State V × Peers V) : World V :=
  { world with toLocked := world.toLocked.set id result.1 result.2 }

/-- Change the tokens. -/
def onPeers (world : World V) (peers : Peers V) : World V :=
  { world with peers }

/-- The completion of a claimed waiter of a cell, if it can be claimed. -/
def fireCell (world : World V) (id : CellId) (waiter : Waiter V) : World V :=
  if world.peers.claimable waiter then
    world.onPeers (world.peers.fire (.cell id) waiter .done)
  else world

/-- The part of a park that runs under the locks; its result goes to the log if it is one. -/
def park (world : World V) (task : TaskId) (wait : Wait V) (now : Time) (seen : CellId → Bool) :
    World V :=
  let look (id : CellId) : Bool := seen id && (world.cell id).done
  match world.toLocked.park world.next task wait now look with
  | (result, locked) =>
    match result.resumed with
    | none =>
      { world with
        toLocked := locked
        next := world.next + 1
        parked := Function.update world.parked world.next (some
          { sources := wait.arms.map Arm.source, times := wait.times now, timer := none,
            finished := false }) }
    | some resumed =>
      { world with
        chan := locked.chan
        peers := locked.peers.note (.ended world.next resumed)
        next := world.next + 1 }

/-- A park, past its locks, joins the queue of the cell of the arm `index`: a cell that is complete
by now ends the wait here. -/
def enqueueCell (world : World V) (wait : TokenId) (index : Nat) : World V :=
  match (world.parked wait).bind fun parked => parked.sources[index]? with
  | some (.cell id) =>
    let waiter : Waiter V := { token := wait, arm := index, payload := none }
    let cell := world.cell id
    if cell.done then world.fireCell id waiter
    else { world with
      cell := Function.update world.cell id { cell with waiters := cell.waiters ++ [waiter] } }
  | _ => world

/-- A park, past its locks, joins the timer. -/
def armTimer (world : World V) (wait : TokenId) : World V :=
  match world.parked wait with
  | some parked =>
    if parked.timer.isNone then
      let (timerId, timer) := parked.times.arm world.timer wait
      { world with
        timer
        parked := Function.update world.parked wait (some { parked with timer := timerId }) }
    else world
  | none => world

/-- The task takes the result of its wait, if it has ended. -/
def finish (world : World V) (wait : TokenId) : World V :=
  match world.parked wait with
  | some parked =>
    if parked.finished then world
    else
      match (world.peers.token wait).take with
      | .ok (some result, token) =>
        { world with
          peers := ({ world.peers with
            token := Function.update world.peers.token wait token }).note (.resumed wait result)
          parked := Function.update world.parked wait (some { parked with finished := true }) }
      | .ok (none, _) => world
      | .error _ => world
  | none => world

/-- The drop of a `Parked` takes the wait, which has ended, off the queue of the arm `index`; the
queue of the arm that ended the wait has let go of it already. -/
def forget (world : World V) (wait : TokenId) (index : Nat) : World V :=
  if (world.peers.token wait).state.isWaiting || (world.peers.token wait).endedBy == some index then
    world
  else
    match (world.parked wait).bind fun parked => parked.sources[index]? with
    | some (.recv id) | some (.send id) | some (.demand id) =>
      world.onChan id ((world.chan id).forget world.peers wait, world.peers)
    | some (.cell id) =>
      let cell := world.cell id
      { world with
        cell := Function.update world.cell id
          { cell with waiters := cell.waiters.filter fun waiter => waiter.token != wait } }
    | none => world

/-- `fire_due` carries the action out. -/
def carryOut (world : World V) (action : Action) : World V :=
  match action with
  | .fire token => world.onPeers (world.peers.timeOut token)
  | .expire token => world.onPeers (world.peers.expire token)
  | .close id =>
    world.onChan id ((world.chan id).close world.peers { failure := none, stage := none }).2

/-- One step. -/
def step (world : World V) : Op V → World V
  | .trySend id value => { world with toLocked := (world.toLocked.trySend none id value).2 }
  | .tryReceive id => { world with toLocked := (world.toLocked.tryReceive none id).2 }
  | .close id how => world.onChan id ((world.chan id).close world.peers how).2
  | .drain id => world.onChan id ((world.chan id).drain world.peers)
  | .park task wait now seen => world.park task wait now seen
  | .enqueueCell wait index => world.enqueueCell wait index
  | .armTimer wait => world.armTimer wait
  | .commit wait =>
    if (world.parked wait).isSome then world.onPeers (world.peers.commit wait) else world
  | .cancel wait =>
    if (world.parked wait).isSome then world.onPeers (world.peers.cancel wait) else world
  | .finish wait => world.finish wait
  | .abandon wait =>
    if (world.parked wait).isSome then world.onPeers (world.peers.abandon wait) else world
  | .forget wait index => world.forget wait index
  | .disarm wait =>
    match (world.parked wait).bind Parked.timer with
    | some id => { world with timer := world.timer.disarm id }
    | none => world
  | .setFlag flag => world.onPeers (world.peers.setFlag flag)
  | .complete id =>
    { world with cell := Function.update world.cell id { world.cell id with done := true } }
  | .takeQueue id =>
    let cell := world.cell id
    if cell.done then
      { world with
        cell := Function.update world.cell id
          { cell with waiters := [], firing := cell.firing ++ cell.waiters } }
    else world
  | .fireNext id =>
    match (world.cell id).firing with
    | [] => world
    | waiter :: firing =>
      ({ world with cell := Function.update world.cell id { world.cell id with firing } }).fireCell
        id waiter
  | .closeAt id deadline => { world with timer := (world.timer.arm deadline (.close id)).2 }
  | .fireDue now failed => { world with timer := world.timer.fireDue now failed }
  | .carryOut index =>
    match world.timer.firing[index]? with
    | none => world
    | some action =>
      ({ world with timer := { world.timer with firing := world.timer.firing.eraseIdx index } }
        ).carryOut action

/-- A run: one step after another. -/
def run (world : World V) (ops : List (Op V)) : World V :=
  ops.foldl step world

/-- The start: channels with the given capacities, of which the feeder may hold `ahead` values, no
wait and no cell that is complete. -/
def start (capacity ahead : ChanId → Nat) : World V where
  chan id := .fed id (capacity id) (ahead id)
  peers := { flags := fun _ => false, token := fun _ => .new 0 none, wakes := [], log := [] }
  next := 0
  cell _ := { done := false, waiters := [], firing := [] }
  timer := { next := 0, entries := [], firing := [] }
  parked _ := none

end World

end Silt.Sync

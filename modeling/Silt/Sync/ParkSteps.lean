import Silt.Sync.World

/-!
# The steps of a park, one by one

`runtime/sync/wait.rs` has the protocol of a park twice: `park` for any arms, and `park_one` for a
wait whose one arm is on a channel. Here both are taken apart into the steps that other parties can
come between: the look at the cancel flag, each arm that is tried, the token, each queue that is
joined, the wakes that are sent and the entry of the timer. `Silt.Sync.Locked.park` does the first
of these in one step.

Between two steps the other parties may do anything to the world. What the locks keep them from is
not used: the two paths agree whatever happens.

## Main definitions

* `Silt.Sync.Steps`, `Silt.Sync.Steps.run` : the steps of a call, and a run of them among others.
* `Silt.Sync.World.parkArms`, `Silt.Sync.World.parkOne`.

## Main results

* `Silt.Sync.World.parkOne_as_park` : the path for one arm does what the path for several does.
-/

namespace Silt.Sync

/-- The steps of a call on a shared state: what a step does to the state, and how the call goes on
from the state that the step found. -/
inductive Steps (S α : Type) where
  | done (result : α)
  | step (act : S → S) (next : S → Steps S α)

namespace Steps

variable {S α β : Type}

/-- A step that gives a result. -/
def atomically (act : S → β × S) (next : β → Steps S α) : Steps S α :=
  .step (fun s => (act s).2) fun s => next (act s).1

/-- A run of the call: `others n` is what the other parties do before its step `n`, and the last
of these comes after its return. -/
def run (others : Nat → S → S) (n : Nat) : Steps S α → S → α × S
  | .done result, s => (result, others n s)
  | .step act next, s => (next (others n s)).run others (n + 1) (act (others n s))

end Steps

variable {V : Type}

/-- The result of `park`: a task that is parked has its token, what it is queued on, and its entry
of the timer. -/
inductive Started (V : Type) where
  | ready (fired : Fired V)
  | parked (token : TokenId) (sources : List Source) (timer : Option TimerId)
  | cancelled
  | expired
  deriving DecidableEq, Repr

namespace World

/-- Run an operation under the locks. The tasks it wakes are not woken yet: they come back with its
result. -/
def collect {β : Type} (world : World V) (act : Locked V → β × Locked V) :
    (β × List TaskId) × World V :=
  let quiet : Locked V := { world.toLocked with peers := { world.peers with wakes := [] } }
  match act quiet with
  | (result, locked) =>
    ((result, locked.peers.wakes), { world with
      chan := locked.chan
      peers := { locked.peers with wakes := world.peers.wakes } })

/-- Wake the tasks. -/
def send (wakes : List TaskId) (world : World V) : World V :=
  { world with peers := { world.peers with wakes := world.peers.wakes ++ wakes } }

/-- The token of the wait. -/
def newToken (wait : TokenId) (task : TaskId) (cancel : Option FlagId) (world : World V) :
    World V :=
  { world with toLocked := world.toLocked.newToken wait task cancel }

/-- The waiter of an arm joins the queue of its channel. -/
def enqueue (wait : TokenId) (arm : Arm V) (index : Nat) (world : World V) : World V :=
  { world with toLocked := world.toLocked.enqueue wait arm index }

/-- `Cell::enqueue`, with the tasks to wake. -/
def joinCell (wait : TokenId) (index : Nat) (id : CellId) (world : World V) :
    List TaskId × World V :=
  let waiter : Waiter V := { token := wait, arm := index, payload := none }
  let cell := world.cell id
  if cell.done then
    match world.collect fun locked => ((), { locked with
        peers := locked.peers.fireAll (.cell id) .done [waiter] }) with
    | ((_, wakes), world) => (wakes, world)
  else
    ([], { world with
      cell := Function.update world.cell id { cell with waiters := cell.waiters ++ [waiter] } })

/-- The wait joins the timer. -/
def armTimes (times : Times) (wait : TokenId) (world : World V) : Option TimerId × World V :=
  match times.arm world.timer wait with
  | (id, timer) => (id, { world with timer })

/-- The wait is over: send the wakes and return. -/
def ready (fired : Fired V) (wakes : List TaskId) : Steps (World V) (Started V) :=
  .step (send wakes) fun _ => .done (.ready fired)

/-! ### `park` -/

section Park

variable (wait : TokenId) (task : TaskId) (arms : List (Arm V)) (times : Times)
  (cancel : Option FlagId)

/-- The arms in the given order, up to the first that can be completed; the call goes on with it
and the tasks to wake. -/
def tryEach (noTakes : Bool) (next : Option (Fired V) → List TaskId → Steps (World V) (Started V)) :
    List Nat → List TaskId → Steps (World V) (Started V)
  | [], wakes => next none wakes
  | index :: order, wakes =>
    match arms[index]? with
    | none => tryEach noTakes next order wakes
    | some arm =>
      .atomically (fun world => world.collect fun locked =>
          locked.tryArm wait noTakes (fun id => (world.cell id).done) index arm)
            fun (outcome, more) =>
        match outcome with
        | some outcome => next (some (.arm index outcome)) (wakes ++ more)
        | none => tryEach noTakes next order (wakes ++ more)

/-- The queues of the arms on channels, the first of which has the index `index`. -/
def joinEach (next : Steps (World V) (Started V)) : Nat → List (Arm V) → Steps (World V) (Started V)
  | _, [] => next
  | index, .cell _ :: arms => joinEach next (index + 1) arms
  | index, arm :: arms => .step (enqueue wait arm index) fun _ => joinEach next (index + 1) arms

/-- The queues of the cells, after the locks of the channels are released. -/
def joinCells (next : List TaskId → Steps (World V) (Started V)) :
    Nat → List (Arm V) → List TaskId → Steps (World V) (Started V)
  | _, [], wakes => next wakes
  | index, .cell id :: arms, wakes =>
    .atomically (joinCell wait index id) fun more => joinCells next (index + 1) arms (wakes ++ more)
  | index, _ :: arms, wakes => joinCells next (index + 1) arms wakes

/-- The steps of `park` from where it has the times of the wait, for any arms. -/
def parkArms (first : Nat) : Steps (World V) (Started V) :=
  .step id fun world =>
    let cancelled := isSet world.peers.flags cancel
    tryEach wait arms (takesNothingNew cancelled times.taskExpired)
      (fun found wakes =>
        match found with
        | some fired => ready fired wakes
        | none =>
          if cancelled then .done .cancelled
          else if times.taskExpired then .done .expired
          else if times.expired then ready .deadline wakes
          else
            .step (newToken wait task cancel) fun _ =>
              joinEach wait
                (joinCells wait
                  (fun wakes => .step (send wakes) fun _ =>
                    .atomically (armTimes times wait) fun timer =>
                      .done (.parked wait (arms.map Arm.source) timer))
                  0 arms wakes)
                0 arms)
      (tryOrder first arms.length) []

end Park

/-! ### `park_one` -/

section ParkOne

variable (wait : TokenId) (task : TaskId) (times : Times) (cancel : Option FlagId)

/-- What `park_one` does once its arm has been tried, on both of its branches. -/
def parkTried (arm : Arm V) (cancelled : Bool) (outcome : Option (Outcome V))
    (wakes : List TaskId) : Steps (World V) (Started V) :=
  match outcome with
  | some outcome => ready (.arm 0 outcome) wakes
  | none =>
    if cancelled then .done .cancelled
    else if times.taskExpired then .done .expired
    else if times.expired then ready .deadline wakes
    else
      .step (newToken wait task cancel) fun _ => .step (enqueue wait arm 0) fun _ =>
        .step (send wakes) fun _ => .atomically (armTimes times wait) fun timer =>
          .done (.parked wait [arm.source] timer)

/-- An arm on a channel: the one arm of a wait that `park` gives to `park_one`. -/
inductive ChanArm (V : Type) where
  | recv (chan : ChanId)
  | send (chan : ChanId) (value : V)
  | demand (chan : ChanId)

/-- The arm of the wait. -/
def ChanArm.arm : ChanArm V → Arm V
  | .recv chan => .recv chan
  | .send chan value => .send chan value
  | .demand chan => .demand chan

/-- The steps of `park_one`. -/
def parkOne (arm : ChanArm V) : Steps (World V) (Started V) :=
  .step id fun world =>
    let cancelled := isSet world.peers.flags cancel
    .atomically
      (fun world => world.collect fun locked =>
        match arm with
        | .recv chan =>
          if takesNothingNew cancelled times.taskExpired then (none, locked)
          else
            match locked.tryReceive (some (wait, 0)) chan with
            | (result, locked) => (result.outcome, locked)
        | .demand chan =>
          if takesNothingNew cancelled times.taskExpired then (none, locked)
          else ((locked.chan chan).demand, locked)
        | .send chan value =>
          match locked.trySend (some (wait, 0)) chan value with
          | (result, locked) => (result.outcome, locked))
      fun (outcome, wakes) => parkTried wait task times cancel arm.arm cancelled outcome wakes

end ParkOne

variable (wait : TokenId) (task : TaskId) (times : Times) (cancel : Option FlagId)

/-- The path for one arm has the steps of the path for several. -/
theorem parkOne_eq_parkArms (arm : ChanArm V) (first : Nat) :
    parkOne wait task times cancel arm = parkArms wait task [arm.arm] times cancel first := by
  have ho : tryOrder first [arm.arm].length = [0] := by simp [tryOrder, Nat.mod_one]
  rw [parkOne, parkArms, ho]
  congr 1
  -- What comes after the one arm is the same text by now; the arm is tried alike on both paths.
  cases arm <;> rfl

/-- Whatever a channel holds and whichever arm on it the wait has, whatever its times and its
cancel flag, and whatever the other parties do before, between and after its steps: `park_one`
returns what the steps of `park` for several arms return for that arm. It leaves the channels, the
tokens and the timer as they do, and wakes the same tasks. -/
theorem parkOne_as_park (others : Nat → World V → World V) (world : World V) (arm : ChanArm V)
    (first : Nat) :
    (parkOne wait task times cancel arm).run others 0 world =
      (parkArms wait task [arm.arm] times cancel first).run others 0 world := by
  rw [parkOne_eq_parkArms]

end World

end Silt.Sync

import Mathlib.Data.List.Nodup
import Silt.Sync.Effect

/-!
# The parked tasks

`Parking` holds a task while it waits. The call that parks a task, the wakes, the cancels and a
shutdown meet at the map of the parked tasks and at the token of the wait, and each of them is
several steps that others may come between. This file models `runtime/sync/parking.rs`: one step is
what one party does under one lock, or to one token.

A call of `park` has the number of its token. The task itself is its name, `TaskId`; what is proved
of it is that it comes out once.

## Main definitions

* `Silt.Sync.Parking` and `Silt.Sync.Parking.step`: the registry with the calls in progress, and the
  steps.
* `Silt.Sync.Parking.Inv`: where the task of each call is, and what is on its way to it.

## Main results

* `Silt.Sync.Parking.loses_no_task`: each task given to `park` is in one place and comes out once.
* `Silt.Sync.Parking.shutdown_leaves_nobody`: a shutdown leaves nobody behind.
-/

namespace Silt.Sync

open List Function

/-- A parked task. -/
structure Entry where
  task : TaskId
  token : TokenId
  /-- The worker has given the task up: a wake will come for it. -/
  committed : Bool
  deriving DecidableEq, Repr

/-- How far a call of `park` is. -/
inductive Stage where
  | notBegun
  /-- The wait has begun. -/
  | started
  /-- It found the registry shut down. -/
  | refused
  /-- The entry is in the map. -/
  | inserted
  /-- It has looked for a cancel once more. -/
  | checked
  /-- Its commit failed, and it has the entry. -/
  | finishing
  | over
  deriving DecidableEq, Repr

/-- Who has taken the entry of a call off the map, other than the call itself. -/
inductive Hand where
  | nobody
  | wake
  | shutdown
  deriving DecidableEq, Repr

/-- How a task comes out. -/
inductive Out (V : Type) where
  | returned (result : Resumed V)
  | ready (result : Resumed V)
  | shutdown
  deriving DecidableEq, Repr

/-- The registry of the parked tasks, with the calls in progress. -/
structure Parking (V : Type) where
  token : TokenId → Token V
  next : TokenId
  entries : List Entry
  /-- The number of entries that are committed, as the code counts it. -/
  waiting : Int
  shutDown : Bool
  stage : TokenId → Stage
  hand : TokenId → Hand
  /-- The tokens that calls of `cancel` have found. -/
  found : List TokenId
  /-- The wakes that were sent and have not been carried out. -/
  wakes : List TaskId
  /-- How the task of each call came out. -/
  out : TokenId → List (Out V)
  /-- How each wait ended. -/
  ended : TokenId → Option (Resumed V)
  /-- The calls whose commit succeeded. -/
  gaveUp : TokenId → Bool
  /-- An `assert!` or an `unreachable!` was reached. -/
  panicked : Bool

/-- The number of maps that the parked tasks are kept in. -/
def shards : Nat := 16

/-- The map that a task is kept in. -/
def shard (task : TaskId) : Nat := task % shards

variable {V : Type}

namespace Parking

/-- The steps. A step whose party is not there leaves everything as it is. -/
inductive Op (V : Type) where
  /-- `park` is called. The task is refused, or its wait ends under its locks, with the result; or
  the wait begins. A task is parked by one call at a time. -/
  | call (task : TaskId) (result : Option (Resumed V))
  /-- The call puts the entry in, under the lock of its map. -/
  | insert (wait : TokenId)
  /-- The call drops the wait that it could not put in, and returns. -/
  | giveBack (wait : TokenId)
  /-- The call looks once more whether the task is refused or cancelled. -/
  | recheck (wait : TokenId) (stop : Bool)
  /-- The call commits, under the lock of its map. -/
  | commit (wait : TokenId)
  /-- The call whose commit failed returns the task. -/
  | goOn (wait : TokenId)
  /-- `cancel` finds the token of a parked task. -/
  | lookUp (task : TaskId)
  /-- `cancel` cancels the token that it has found. -/
  | cancel (wait : TokenId)
  /-- A peer or the timer ends the wait. -/
  | fire (wait : TokenId) (fired : Fired V)
  /-- The timer ends the wait at the deadline of its task. -/
  | expire (wait : TokenId)
  /-- `wake` takes the entry of the task out. -/
  | wake (task : TaskId)
  /-- `wake` hands the task to `ready`. -/
  | ready (wait : TokenId)
  /-- `shutdown` begins. -/
  | shutDown
  /-- `shutdown` empties a map. -/
  | drain (map : Nat)
  /-- `shutdown` drops the wait of a task that it took, and returns the task. -/
  | drop (wait : TokenId)

/-- A call for the task is in progress, or the registry has it. -/
def busy (parking : Parking V) (task : TaskId) : Bool :=
  ((List.range parking.next).any fun wait => (parking.token wait).task == task &&
    (!(parking.stage wait == .over) || !(parking.hand wait == .nobody))) ||
  parking.entries.any fun entry => entry.task == task

/-- Change the token of a wait; the wakes that this sends are on their way. -/
def setToken (parking : Parking V) (wait : TokenId) (token : Token V)
    (wakes : List TaskId) : Parking V :=
  { parking with
    token := update parking.token wait token
    wakes := parking.wakes ++ wakes
    ended := if (parking.token wait).state.isWaiting then
      update parking.ended wait token.state.resumed else parking.ended }

/-- The call of the wait goes on to the stage. -/
def goTo (parking : Parking V) (wait : TokenId) (stage : Stage) : Parking V :=
  { parking with stage := update parking.stage wait stage }

/-- The task of the wait comes out. -/
def emit (parking : Parking V) (wait : TokenId) (out : Out V) : Parking V :=
  { parking with out := update parking.out wait (parking.out wait ++ [out]) }

/-- `finish`: the result of a wait that has ended. Of one that has not, it is unreachable. -/
def finish (parking : Parking V) (wait : TokenId) (out : Resumed V → Out V) : Parking V :=
  match (parking.token wait).take with
  | .ok (some result, token) =>
    ({ parking with token := update parking.token wait token }).emit wait (out result)
  | .ok (none, _) | .error _ => { parking with panicked := true }

/-- Cancel the token of the wait, and wake its task if it is parked. -/
def cancelToken (parking : Parking V) (wait : TokenId) : Parking V :=
  let token := parking.token wait
  parking.setToken wait token.cancel.1 (if token.cancel.2 then token.wakes else [])

/-- Drop the wait. -/
def dropWait (parking : Parking V) (wait : TokenId) : Parking V :=
  parking.setToken wait (parking.token wait).abandon []

/-- The task is in its map. -/
def isIn (parking : Parking V) (task : TaskId) : Bool :=
  parking.entries.any fun entry => entry.task == task

/-- Take the task out of its map. -/
def remove (parking : Parking V) (task : TaskId) : Parking V :=
  { parking with entries := parking.entries.filter fun entry => entry.task != task }

/-- A call of `park` begins. -/
def call (parking : Parking V) (task : TaskId) (result : Option (Resumed V)) : Parking V :=
  let wait := parking.next
  match result with
  | some result =>
    { parking with
      next := wait + 1
      -- No token was made.
      token := update parking.token wait
        { (Token.new task none : Token V) with state := .taken }
      stage := update parking.stage wait .over
      out := update parking.out wait [.returned result]
      ended := update parking.ended wait (some result) }
  | none =>
    { parking with
      next := wait + 1
      token := update parking.token wait (.new task none)
      stage := update parking.stage wait .started }

/-- Put an entry in. -/
def addEntry (parking : Parking V) (entry : Entry) : Parking V :=
  { parking with entries := parking.entries ++ [entry] }

/-- Mark the entry of the task, if it is there, as committed, and count it. -/
def commitEntry (parking : Parking V) (task : TaskId) : Parking V :=
  { parking with
    entries := parking.entries.map fun entry =>
      { entry with committed := entry.committed || entry.task == task }
    waiting := if parking.isIn task then parking.waiting + 1 else parking.waiting }

/-- The call puts its entry in. -/
def insert (parking : Parking V) (wait : TokenId) : Parking V :=
  let task := (parking.token wait).task
  if parking.shutDown then parking.goTo wait .refused
  else if parking.isIn task then { parking with panicked := true }
  else (parking.addEntry { task, token := wait, committed := false }).goTo wait .inserted

/-- The call commits: the registry has the task now, or a shutdown has; or the wait has ended, and
the call takes the task back. -/
def commit (parking : Parking V) (wait : TokenId) : Parking V :=
  let task := (parking.token wait).task
  let (token, given) := (parking.token wait).commit
  if given then
    { ((parking.commitEntry task).setToken wait token []).goTo wait .over with
      gaveUp := update parking.gaveUp wait true }
  else if parking.isIn task then (parking.remove task).goTo wait .finishing
  else parking.goTo wait .over

/-- `wake` takes the entry of the task out. -/
def wake (parking : Parking V) (task : TaskId) : Parking V :=
  let parking := { parking with wakes := parking.wakes.erase task }
  match parking.entries.find? fun entry => entry.task == task with
  -- A shutdown took the task.
  | none => parking
  | some entry =>
    { parking.remove task with
      waiting := parking.waiting - 1
      hand := update parking.hand entry.token .wake }

/-- `shutdown` empties a map. -/
def drain (parking : Parking V) (map : Nat) : Parking V :=
  let (taken, left) := parking.entries.partition fun entry => shard entry.task == map
  { parking with
    entries := left
    waiting := parking.waiting - (taken.countP Entry.committed : Nat)
    hand := fun wait => if taken.any fun entry => entry.token == wait then .shutdown
      else parking.hand wait }

/-- One step. -/
def step (parking : Parking V) : Op V → Parking V
  | .call task result => if parking.busy task then parking else parking.call task result
  | .insert wait => if parking.stage wait = .started then parking.insert wait else parking
  | .giveBack wait =>
    if parking.stage wait = .refused then
      (((parking.dropWait wait).emit wait (.returned .cancelled))).goTo wait .over
    else parking
  | .recheck wait stop =>
    if parking.stage wait = .inserted then
      (if stop then parking.cancelToken wait else parking).goTo wait .checked
    else parking
  | .commit wait => if parking.stage wait = .checked then parking.commit wait else parking
  | .goOn wait =>
    if parking.stage wait = .finishing then (parking.finish wait .returned).goTo wait .over
    else parking
  | .lookUp task =>
    match parking.entries.find? fun entry => entry.task == task with
    | some entry => { parking with found := entry.token :: parking.found }
    | none => parking
  | .cancel wait =>
    if wait ∈ parking.found then
      ({ parking with found := parking.found.erase wait }).cancelToken wait
    else parking
  | .fire wait fired =>
    if wait < parking.next ∧ (parking.token wait).state.isWaiting then
      parking.setToken wait ((parking.token wait).fire fired) (parking.token wait).wakes
    else parking
  | .expire wait =>
    if wait < parking.next ∧ (parking.token wait).state.isWaiting then
      parking.setToken wait (parking.token wait).expire (parking.token wait).wakes
    else parking
  | .wake task => if task ∈ parking.wakes then parking.wake task else parking
  | .ready wait =>
    if parking.hand wait = .wake then
      { parking.finish wait .ready with hand := update parking.hand wait .nobody }
    else parking
  | .shutDown => { parking with shutDown := true }
  | .drain map => if parking.shutDown then parking.drain map else parking
  | .drop wait =>
    if parking.hand wait = .shutdown then
      { (parking.dropWait wait).emit wait .shutdown with
        hand := update parking.hand wait .nobody }
    else parking

/-- A run: one step after another. -/
def run (parking : Parking V) (ops : List (Op V)) : Parking V :=
  ops.foldl step parking

/-- The empty registry. -/
def start : Parking V where
  token _ := .new 0 none
  next := 0
  entries := []
  waiting := 0
  shutDown := false
  stage _ := .notBegun
  hand _ := .nobody
  found := []
  wakes := []
  out _ := []
  ended _ := none
  gaveUp _ := false
  panicked := false

/-! ### Where the task of a call is -/

/-- What there is of a call, apart from its entry. -/
structure View (V : Type) where
  stage : Stage
  hand : Hand
  out : List (Out V)
  state : TokenState V
  ended : Option (Resumed V)
  gaveUp : Bool

/-- What there is of the call of the wait. -/
def view (parking : Parking V) (wait : TokenId) : View V where
  stage := parking.stage wait
  hand := parking.hand wait
  out := parking.out wait
  state := (parking.token wait).state
  ended := parking.ended wait
  gaveUp := parking.gaveUp wait

/-- The entry of the call: whether it is committed, or that there is none. -/
def EntryIs (entries : List Entry) (wait : TokenId) : Option Bool → Prop
  | some committed => ∃ entry ∈ entries, entry.token = wait ∧ entry.committed = committed
  | none => ∀ entry ∈ entries, entry.token ≠ wait

/-- The wait is open, or its result is there. -/
structure Recorded (state : TokenState V) (ended : Option (Resumed V)) : Prop where
  notTaken : state ≠ .taken
  ended : ended = state.resumed

/-- The places where the task of a call can be. In each, what there is of the call and its entry
says the same of where the task is. -/
inductive Located (shutDown : Bool) : View V → Option Bool → Prop
  | notBegun {state} : Located shutDown ⟨.notBegun, .nobody, [], state, none, false⟩ none
  /-- The call has it, and has not put its entry in. -/
  | begun {stage state ended}
      (hstage : stage = .started ∨ stage = .refused ∧ shutDown = true)
      (hrecorded : Recorded state ended) (hstate : state ≠ .parked) :
      Located shutDown ⟨stage, .nobody, [], state, ended, false⟩ none
  /-- It is in the map, and the call has not committed. -/
  | inMap {stage state ended} (hstage : stage = .inserted ∨ stage = .checked)
      (hrecorded : Recorded state ended) (hstate : state ≠ .parked) :
      Located shutDown ⟨stage, .nobody, [], state, ended, false⟩ (some false)
  /-- A shutdown took it before the call committed. -/
  | lost {stage state ended} (hstage : stage = .inserted ∨ stage = .checked)
      (hrecorded : Recorded state ended) (hstate : state ≠ .parked) (hshut : shutDown = true) :
      Located shutDown ⟨stage, .shutdown, [], state, ended, false⟩ none
  /-- A shutdown returned it before the call committed. -/
  | lostOut {stage state ended} (hstage : stage = .inserted ∨ stage = .checked)
      (hrecorded : Recorded state ended) (hstate : state.isWaiting = false)
      (hshut : shutDown = true) :
      Located shutDown ⟨stage, .nobody, [.shutdown], state, ended, false⟩ none
  /-- The call has it back. -/
  | finishing {state ended} (hrecorded : Recorded state ended) (hstate : state.isWaiting = false) :
      Located shutDown ⟨.finishing, .nobody, [], state, ended, false⟩ none
  /-- It waits. -/
  | waiting {state ended} (hrecorded : Recorded state ended) (hstate : state ≠ .armed) :
      Located shutDown ⟨.over, .nobody, [], state, ended, true⟩ (some true)
  /-- A wake has it. -/
  | waking {state ended} (hrecorded : Recorded state ended) (hstate : state.isWaiting = false) :
      Located shutDown ⟨.over, .wake, [], state, ended, true⟩ none
  /-- A shutdown has it. -/
  | taken {state ended gaveUp} (hrecorded : Recorded state ended) (hstate : state ≠ .armed)
      (hshut : shutDown = true) : Located shutDown ⟨.over, .shutdown, [], state, ended, gaveUp⟩ none
  /-- The call returned it. -/
  | returned {state ended result} (hstate : state.isWaiting = false)
      (hresult : ended = some result ∨ result = .cancelled ∧ shutDown = true) :
      Located shutDown ⟨.over, .nobody, [.returned result], state, ended, false⟩ none
  /-- It was handed to `ready`. -/
  | readied {state result} (hstate : state.isWaiting = false) :
      Located shutDown ⟨.over, .nobody, [.ready result], state, some result, true⟩ none
  /-- A shutdown returned it. -/
  | dropped {state ended gaveUp} (hstate : state.isWaiting = false) (hshut : shutDown = true) :
      Located shutDown ⟨.over, .nobody, [.shutdown], state, ended, gaveUp⟩ none

/-- A call for the task is in progress, or the registry or one of its parties has the task. -/
def Live (parking : Parking V) (wait : TokenId) : Prop :=
  (parking.stage wait ≠ .notBegun ∧ parking.stage wait ≠ .over) ∨ parking.hand wait ≠ .nobody ∨
    ∃ entry ∈ parking.entries, entry.token = wait

/-- The number of wakes that are on their way to the task of an entry. -/
def due (parking : Parking V) (entry : Entry) : Nat :=
  if entry.committed && !(parking.token entry.token).state.isWaiting then 1 else 0

/-- Where the tasks are, and what is on its way to them. -/
structure Inv (parking : Parking V) : Prop where
  place : ∀ wait, ∃ entry, EntryIs parking.entries wait entry ∧
    Located parking.shutDown (parking.view wait) entry
  begun : ∀ wait, parking.stage wait = .notBegun ↔ parking.next ≤ wait
  single : ∀ a b, parking.Live a → parking.Live b →
    (parking.token a).task = (parking.token b).task → a = b
  keys : (parking.entries.map Entry.token).Nodup
  task : ∀ entry ∈ parking.entries, (parking.token entry.token).task = entry.task
  found : ∀ wait ∈ parking.found, wait < parking.next
  woken : ∀ entry ∈ parking.entries, parking.wakes.count entry.task = parking.due entry
  heard : parking.shutDown = false → ∀ task ∈ parking.wakes,
    ∃ entry ∈ parking.entries, entry.task = task
  waiting : parking.waiting = (parking.entries.countP Entry.committed : Nat)
  safe : parking.panicked = false

/-! ### The steps keep the invariant -/

section Inv

variable {u : TokenId} {token : Token V} {e : Entry} {task : TaskId}

variable {p p' : Parking V} {wait : TokenId}

section Located

variable {shutDown : Bool} {view : View V} {e : Option Bool}

section

variable (h : Located shutDown view e)

include h

theorem Located.of_notBegun (hst : view.stage = .notBegun) :
    e = none ∧ view = ⟨.notBegun, .nobody, [], view.state, none, false⟩ := by
  cases h with
  | notBegun => exact ⟨rfl, rfl⟩
  | begun hs => rcases hs with rfl | ⟨rfl, -⟩ <;> cases hst
  | inMap hs | lost hs | lostOut hs => rcases hs with rfl | rfl <;> cases hst
  | _ => cases hst

theorem Located.of_started (hst : view.stage = .started ∨ view.stage = .refused) :
    e = none ∧ view = ⟨view.stage, .nobody, [], view.state, view.ended, false⟩ ∧
      Recorded view.state view.ended ∧ view.state ≠ .parked ∧
      (view.stage = .refused → shutDown = true) := by
  cases h with
  | begun hs hr hse =>
    refine ⟨rfl, rfl, hr, hse, ?_⟩
    rintro rfl
    simpa using hs
  | inMap hs | lost hs | lostOut hs => rcases hs with rfl | rfl <;> simp at hst
  | _ => simp at hst

theorem Located.of_finishing (hst : view.stage = .finishing) :
    e = none ∧ view = ⟨.finishing, .nobody, [], view.state, view.ended, false⟩ ∧
      Recorded view.state view.ended ∧ view.state.isWaiting = false := by
  cases h with
  | finishing hr hse => exact ⟨rfl, rfl, hr, hse⟩
  | begun hs => rcases hs with rfl | ⟨rfl, -⟩ <;> cases hst
  | inMap hs | lost hs | lostOut hs => rcases hs with rfl | rfl <;> cases hst
  | _ => cases hst

theorem Located.of_wake (hh : view.hand = .wake) :
    e = none ∧ view = ⟨.over, .wake, [], view.state, view.ended, true⟩ ∧
      Recorded view.state view.ended ∧ view.state.isWaiting = false := by
  cases h with
  | waking hr hs => exact ⟨rfl, rfl, hr, hs⟩
  | _ => cases hh

theorem Located.of_shutdown (hh : view.hand = .shutdown) :
    e = none ∧ Recorded view.state view.ended ∧ shutDown = true ∧
      ((view.stage = .inserted ∨ view.stage = .checked) ∧
          view = ⟨view.stage, .shutdown, [], view.state, view.ended, false⟩ ∨
        view = ⟨.over, .shutdown, [], view.state, view.ended, view.gaveUp⟩) := by
  cases h with
  | lost hst hr hse hs => exact ⟨rfl, hr, hs, .inl ⟨hst, rfl⟩⟩
  | taken hr hse hs => exact ⟨rfl, hr, hs, .inr rfl⟩
  | _ => cases hh

/-- A call that has put its entry in, and has not committed. -/
theorem Located.of_inserted (hsg : view.stage = .inserted ∨ view.stage = .checked) :
    Recorded view.state view.ended ∧
      (e = some false ∧ view.state ≠ .parked ∧
          view = ⟨view.stage, .nobody, [], view.state, view.ended, false⟩ ∨
        e = none ∧ view.state ≠ .parked ∧
          view = ⟨view.stage, .shutdown, [], view.state, view.ended, false⟩ ∧ shutDown = true ∨
        e = none ∧ view.state.isWaiting = false ∧
          view = ⟨view.stage, .nobody, [.shutdown], view.state, view.ended, false⟩ ∧
          shutDown = true) := by
  cases h with
  | inMap _ hr hst => exact ⟨hr, .inl ⟨rfl, hst, rfl⟩⟩
  | lost _ hr hst hsh => exact ⟨hr, .inr (.inl ⟨rfl, hst, rfl, hsh⟩)⟩
  | lostOut _ hr hst hsh => exact ⟨hr, .inr (.inr ⟨rfl, hst, rfl, hsh⟩)⟩
  | begun hs => rcases hs with rfl | ⟨rfl, -⟩ <;> simp at hsg
  | _ => simp at hsg

/-- A call whose wait is open: it is on its way, its task waits, or a shutdown has it. -/
theorem Located.of_isWaiting (hb : view.stage ≠ .notBegun)
    (ho : view.state.isWaiting) {state : TokenState V} {result : Resumed V}
    (hst : state.resumed = some result) :
    Located shutDown { view with state, ended := some result } e := by
  have hn : state ≠ .parked ∧ state ≠ .armed ∧ state ≠ .taken := by
    refine ⟨?_, ?_, ?_⟩ <;> rintro rfl <;> cases hst
  have hr : Recorded state (some result) := ⟨hn.2.2, hst.symm⟩
  cases h with
  | notBegun => exact absurd rfl hb
  | begun hs => exact .begun hs hr hn.1
  | inMap hs => exact .inMap hs hr hn.1
  | lost hs _ _ hsh => exact .lost hs hr hn.1 hsh
  | waiting => exact .waiting hr hn.2.1
  | taken _ _ hsh => exact .taken hr hn.2.1 hsh
  | lostOut _ _ he | finishing _ he | waking _ he | returned he | readied he
  | dropped he =>
    rw [he] at ho
    cases ho

/-- The task of a parked token waits, or a shutdown has it. -/
theorem Located.of_parked (hb : view.stage ≠ .notBegun) (hp : view.state = .parked) :
    e = some true ∨ view.hand = .shutdown ∧ shutDown = true := by
  cases h with
  | notBegun => exact absurd rfl hb
  | waiting => exact .inl rfl
  | taken _ _ hs => exact .inr ⟨rfl, hs⟩
  | begun _ _ hn | inMap _ _ hn | lost _ _ hn => exact absurd hp hn
  | lostOut _ _ he | finishing _ he | waking _ he | returned he | readied he
  | dropped he =>
    cases hp
    cases he

end

/-- An entry is committed when its call is over. -/
theorem Located.of_entry {committed : Bool} (h : Located shutDown view (some committed)) :
    Recorded view.state view.ended ∧
      (committed = false ∧ (view.stage = .inserted ∨ view.stage = .checked) ∧
          view.state ≠ .parked ∧
          view = ⟨view.stage, .nobody, [], view.state, view.ended, false⟩ ∨
        committed = true ∧ view.state ≠ .armed ∧
          view = ⟨.over, .nobody, [], view.state, view.ended, true⟩) := by
  cases h with
  | inMap hs hr hst => exact ⟨hr, .inl ⟨rfl, hs, hst, rfl⟩⟩
  | waiting hr hst => exact ⟨hr, .inr ⟨rfl, hst, rfl⟩⟩

end Located

/-- What a step does to the calls: those it changes are live before it, and it leaves the others
and their entries. -/
structure Keeps (parking parking' : Parking V) (changed : TokenId → Prop) : Prop where
  view : ∀ other, ¬ changed other → parking'.view other = parking.view other
  entry : ∀ other, ¬ changed other → ∀ found, EntryIs parking.entries other found →
    EntryIs parking'.entries other found
  task : ∀ other, (parking'.token other).task = (parking.token other).task
  next : parking'.next = parking.next
  shutDown : parking'.shutDown = parking.shutDown
  found : parking'.found = parking.found
  live : ∀ other, changed other → parking.Live other
  located : ∀ other, changed other → parking'.stage other ≠ .notBegun ∧
    ∃ entry, EntryIs parking'.entries other entry ∧
      Located parking.shutDown (parking'.view other) entry

theorem Inv.begun_of_live (h : Inv p) (hlv : p.Live wait) : p.stage wait ≠ .notBegun := by
  obtain ⟨e, he, hl⟩ := h.place wait
  intro hn
  obtain ⟨rfl, hv⟩ := hl.of_notBegun hn
  rcases hlv with hb | hh | ⟨found, hf, heq⟩
  · exact hb.1 hn
  · exact hh (congrArg View.hand hv)
  · exact he found hf heq

/-- A step that makes no call live: what is left to show is about the entries and the wakes. -/
theorem Inv.of_keeps (h : Inv p) {changed : TokenId → Prop}
    (hk : Keeps p p' changed) (hky : (p'.entries.map Entry.token).Nodup)
    (hts : ∀ e ∈ p'.entries, (p.token e.token).task = e.task)
    (hw : ∀ e ∈ p'.entries, p'.wakes.count e.task = p'.due e)
    (hh : p.shutDown = false → ∀ task ∈ p'.wakes, ∃ e ∈ p'.entries, e.task = task)
    (hwt : p'.waiting = (p'.entries.countP Entry.committed : Nat))
    (hs : p'.panicked = false) : Inv p' := by
  have hst (u : TokenId) (ho : ¬ changed u) :
      p'.stage u = p.stage u :=
    congrArg View.stage (hk.view u ho)
  have hlv (u : TokenId) (hl : p'.Live u) : p.Live u := by
    by_cases ho : changed u
    · exact hk.live u ho
    · have hhn : p'.hand u = p.hand u := congrArg View.hand (hk.view u ho)
      rw [Live, hst u ho, hhn] at hl
      refine hl.imp_right (Or.imp_right ?_)
      rintro ⟨e, he, ht⟩
      obtain ⟨found, hf, -⟩ := h.place u
      cases found with
      | none => exact absurd ht (hk.entry u ho none hf e he)
      | some committed =>
        obtain ⟨old, hol, heq, -⟩ := hf
        exact ⟨old, hol, heq⟩
  constructor
  case place =>
    intro u
    rw [hk.shutDown]
    by_cases ho : changed u
    · exact (hk.located u ho).2
    · obtain ⟨found, hf, hol⟩ := h.place u
      exact ⟨found, hk.entry u ho found hf, by rwa [hk.view u ho]⟩
  case begun =>
    intro u
    rw [hk.next]
    by_cases ho : changed u
    · exact iff_of_false (hk.located u ho).1
        fun hle => h.begun_of_live (hk.live u ho) ((h.begun u).mpr hle)
    · rw [hst u ho]
      exact h.begun u
  case single =>
    intro a b ha hb heq
    rw [hk.task, hk.task] at heq
    exact h.single a b (hlv a ha) (hlv b hb) heq
  case keys => exact hky
  case task => exact fun e he => (hk.task e.token).trans (hts e he)
  case found => rw [hk.found, hk.next]; exact h.found
  case woken => exact hw
  case heard => rw [hk.shutDown]; exact hh
  case waiting => exact hwt
  case safe => exact hs

/-- A step that changes nothing but what there is of the call of one wait, and leaves its entry, if
it has one, as it is. -/
theorem Inv.at_call (h : Inv p) (hen : p'.entries = p.entries)
    (hn : p'.next = p.next) (hf : p'.found = p.found)
    (hs : p'.shutDown = p.shutDown)
    (hp : p'.panicked = p.panicked)
    (hwa : p'.waiting = p.waiting) (hw : p'.wakes = p.wakes)
    (hv : ∀ u, u ≠ wait → p'.view u = p.view u)
    (ht : ∀ u, (p'.token u).task = (p.token u).task)
    (hb : p'.stage wait ≠ .notBegun) (hlv : p.Live wait)
    (hl : ∃ e, EntryIs p.entries wait e ∧
      Located p.shutDown (p'.view wait) e ∧ (e = none ∨
        (p'.token wait).state.isWaiting = (p.token wait).state.isWaiting)) :
    Inv p' := by
  obtain ⟨found, het, hl, hd⟩ := hl
  have hk : Keeps p p' (· = wait) :=
    ⟨hv, fun _ _ _ he => by rwa [hen], ht, hn, hs, hf, fun _ heq => heq ▸ hlv,
      fun _ heq => heq ▸ ⟨hb, found, hen ▸ het, hl⟩⟩
  refine h.of_keeps hk (hen ▸ h.keys) (hen ▸ h.task) ?_ ?_ ?_ (hp ▸ h.safe)
  · rw [hen, hw]
    intro e he
    have hwt : (p'.token e.token).state.isWaiting = (p.token e.token).state.isWaiting := by
      by_cases heq : e.token = wait
      · rw [heq]
        exact hd.resolve_left (by rintro rfl; exact het e he heq)
      · rw [show (p'.token e.token).state = (p.token e.token).state from
          congrArg View.state (hv _ heq)]
    rw [h.woken e he, due, due, hwt]
  · rw [hw, hen]
    exact h.heard
  · rw [hwa, hen]
    exact h.waiting

theorem view_setToken_of_ne (ho : u ≠ wait) (token : Token V) (wakes : List TaskId) :
    (p.setToken wait token wakes).view u = p.view u := by
  simp only [view, setToken, update_of_ne ho]
  split_ifs
  · rw [update_of_ne ho]
  · rfl

theorem view_goTo_of_ne (ho : u ≠ wait) (stage : Stage) :
    (p.goTo wait stage).view u = p.view u := by
  simp only [view, goTo, update_of_ne ho]

theorem view_emit_of_ne (ho : u ≠ wait) (out : Out V) : (p.emit wait out).view u = p.view u := by
  simp only [view, emit, update_of_ne ho]

theorem view_goTo_self (stage : Stage) :
    (p.goTo wait stage).view wait = { p.view wait with stage } := by
  simp only [view, goTo, update_self]

theorem view_emit_self (out : Out V) :
    (p.emit wait out).view wait = { p.view wait with out := (p.view wait).out ++ [out] } := by
  simp only [view, emit, update_self]

theorem view_dropWait_self :
    (p.dropWait wait).view wait =
      { p.view wait with
        state := (p.token wait).abandon.state, ended := (p.dropWait wait).ended wait } := by
  simp only [view, dropWait, setToken, update_self]

theorem task_update (ht : token.task = (p.token wait).task) (u : TokenId) :
    (update p.token wait token u).task = (p.token u).task := by
  grind

/-- The entry of a call: there is at most one. -/
theorem Inv.located_entry (h : Inv p) (he : e ∈ p.entries) :
    Located p.shutDown (p.view e.token) (some e.committed) := by
  obtain ⟨found, hf, hl⟩ := h.place e.token
  cases found with
  | none => exact absurd rfl (hf e he)
  | some committed =>
    obtain ⟨e', he', ht, rfl⟩ := hf
    obtain rfl : e' = e := inj_on_of_nodup_map h.keys he' he ht
    exact hl

/-- The entry of an open wait is committed if and only if its token is parked. -/
theorem Inv.committed_iff (h : Inv p) (he : e ∈ p.entries)
    (ho : (p.token e.token).state.isWaiting) :
    e.committed = true ↔ (p.token e.token).state = .parked := by
  obtain ⟨-, ⟨hc, -, hs, -⟩ | ⟨hc, hs, -⟩⟩ := (h.located_entry he).of_entry
  · exact iff_of_false (by simp [hc]) hs
  · refine iff_of_true hc ?_
    simp only [view] at hs
    revert ho hs
    cases (p.token e.token).state <;> simp [TokenState.isWaiting]

theorem wakes_of_parked (h : token.state = .parked) : token.wakes = [token.task] := by
  rw [Token.wakes, h]

theorem wakes_of_ne_parked (h : token.state ≠ .parked) : token.wakes = [] := by
  rw [Token.wakes]
  split
  next hp => exact absurd hp h
  next => rfl

/-- The registry has the task of a parked token, or a shutdown has. -/
theorem Inv.live_of_parked (h : Inv p) (hb : p.stage wait ≠ .notBegun)
    (hp : (p.token wait).state = .parked) :
    p.Live wait ∧ (p.shutDown = false → ∃ e ∈ p.entries, e.token = wait) := by
  obtain ⟨entryIs, hen, hl⟩ := h.place wait
  rcases hl.of_parked hb hp with rfl | ⟨hh, hs⟩
  · obtain ⟨e, he, ht, -⟩ := hen
    exact ⟨.inr (.inr ⟨e, he, ht⟩), fun _ => ⟨e, he, ht⟩⟩
  · have hh' : p.hand wait = .shutdown := hh
    exact ⟨.inr (.inl (by simp [hh'])), fun hn => absurd hs (by simp [hn])⟩

/-- Somebody ends a wait that is open; a wake is sent if its token is parked. -/
theorem Inv.endWait (h : Inv p) (hbg : wait < p.next)
    (hop : (p.token wait).state.isWaiting) (ht : token.task = (p.token wait).task)
    {result : Resumed V} (hr : token.state.resumed = some result) :
    Inv (p.setToken wait token (p.token wait).wakes) := by
  have hs : p.stage wait ≠ .notBegun := fun hnt =>
    absurd ((h.begun wait).mp hnt) (Nat.not_le_of_lt hbg)
  have ht' (u : TokenId) : ((p.setToken wait token (p.token wait).wakes).token u).task =
      (p.token u).task :=
    task_update ht u
  have hed := TokenState.isWaiting_of_resumed hr
  obtain ⟨entryIs, het, hl⟩ := h.place wait
  constructor
  case place =>
    intro u
    by_cases ho : u = wait
    · subst ho
      refine ⟨entryIs, het, ?_⟩
      have hn := hl.of_isWaiting hs hop hr
      simpa only [view, setToken, hop, if_true, update_self, hr] using hn
    · rw [view_setToken_of_ne ho]
      exact h.place u
  case begun => exact h.begun
  case single =>
    intro a b ha hb heq
    rw [ht', ht'] at heq
    exact h.single a b ha hb heq
  case keys => exact h.keys
  case task =>
    intro e he
    rw [ht']
    exact h.task e he
  case found => exact h.found
  case woken =>
    intro e he
    have hcn : (p.setToken wait token (p.token wait).wakes).wakes.count e.task =
        p.wakes.count e.task + (p.token wait).wakes.count e.task :=
      count_append ..
    rw [hcn, h.woken e he]
    by_cases hen : e.token = wait
    · have hd : p.due e = 0 := by simp [due, hen, hop]
      have hd' : (p.setToken wait token (p.token wait).wakes).due e =
          if e.committed then 1 else 0 := by
        simp [due, setToken, hen, hed]
      have hi := h.committed_iff he (by rwa [hen])
      rw [hen] at hi
      rw [hd, hd', Nat.zero_add]
      by_cases hp : (p.token wait).state = .parked
      · rw [wakes_of_parked hp, ← hen, h.task e he, count_singleton_self, if_pos (hi.mpr hp)]
      · rw [wakes_of_ne_parked hp, count_nil, if_neg (fun hc => hp (hi.mp hc))]
    · have hd : (p.setToken wait token (p.token wait).wakes).due e = p.due e := by
        simp only [due, setToken, update_of_ne hen]
      rw [hd]
      by_cases hp : (p.token wait).state = .parked
      · -- The two would be calls for one task.
        have hne : (p.token wait).task ≠ e.task := fun heq => hen <| h.single e.token wait
          (.inr (.inr ⟨e, he, rfl⟩)) (h.live_of_parked hs hp).1 ((h.task e he).trans heq.symm)
        rw [wakes_of_parked hp, count_singleton, beq_eq_false_iff_ne.mpr hne]
        rfl
      · rw [wakes_of_ne_parked hp, count_nil, Nat.add_zero]
  case heard =>
    intro hsh task hw
    rcases mem_append.mp hw with hw | hw
    · exact h.heard hsh task hw
    · by_cases hp : (p.token wait).state = .parked
      · obtain ⟨e, he, hen⟩ := (h.live_of_parked hs hp).2 hsh
        rw [wakes_of_parked hp, mem_singleton] at hw
        exact ⟨e, he, by rw [hw, ← hen, h.task e he]⟩
      · simp [wakes_of_ne_parked hp] at hw
  case waiting => exact h.waiting
  case safe => exact h.safe

theorem setToken_self (he : (p.token wait).state.isWaiting = false) :
    p.setToken wait (p.token wait) [] = p := by
  simp [setToken, he]

theorem Inv.cancelToken (h : Inv p) (hb : wait < p.next) : Inv (p.cancelToken wait) := by
  have hc : (p.token wait).state.isWaiting ∧ (p.token wait).cancel =
        ({ p.token wait with state := .cancelled }, true) ∨
      (p.token wait).state.isWaiting = false ∧ (p.token wait).cancel = (p.token wait, false) := by
    cases hs : (p.token wait).state <;> simp [Token.cancel, hs, TokenState.isWaiting]
  rcases hc with ⟨ho, hc⟩ | ⟨he, hc⟩
  · simp only [Parking.cancelToken, hc, if_true]
    exact h.endWait hb ho rfl rfl
  · simp only [Parking.cancelToken, hc, Bool.false_eq_true, if_false]
    rwa [setToken_self he]

theorem abandon_spec (token : Token V) :
    token.abandon.task = token.task ∧ token.abandon.state.isWaiting = false := by
  cases hs : token.state <;> simp [Token.abandon, hs, TokenState.isWaiting]

theorem recorded_dropWait (h : Recorded (p.token wait).state (p.ended wait)) :
    Recorded (p.token wait).abandon.state ((p.dropWait wait).ended wait) := by
  cases hs : (p.token wait).state <;>
    simp_all [dropWait, setToken, Token.abandon, TokenState.isWaiting, TokenState.resumed] <;>
    exact ⟨by simp, rfl⟩

theorem begun_of_stage (h : Inv p) (hs : p.stage wait ≠ .notBegun) : wait < p.next :=
  Nat.lt_of_not_le fun hle => hs ((h.begun wait).mpr hle)

theorem Inv.goTo (h : Inv p) {stage : Stage} (hb : stage ≠ .notBegun) (hlv : p.Live wait)
    (hl : ∀ e, EntryIs p.entries wait e →
      Located p.shutDown (p.view wait) e →
      Located p.shutDown { p.view wait with stage } e) :
    Inv (p.goTo wait stage) := by
  obtain ⟨e, he, hol⟩ := h.place wait
  refine h.at_call rfl rfl rfl rfl rfl rfl rfl (fun u ho => view_goTo_of_ne ho stage)
    (fun _ => rfl) ?_ hlv ⟨e, he, ?_, .inr rfl⟩
  · simpa only [Parking.goTo, update_self] using hb
  · rw [view_goTo_self]
    exact hl e he hol

theorem Inv.recheck (h : Inv p) (hst : p.stage wait = .inserted) : Inv (p.goTo wait .checked) := by
  refine h.goTo (by simp) (.inl (by simp [hst])) fun e hen hl => ?_
  obtain ⟨hr, hc⟩ := hl.of_inserted (.inl hst)
  rcases hc with ⟨rfl, hp, hv⟩ | ⟨rfl, hp, hv, hs⟩ | ⟨rfl, he, hv, hs⟩ <;> rw [hv]
  · exact .inMap (.inr rfl) hr hp
  · exact .lost (.inr rfl) hr hp hs
  · exact .lostOut (.inr rfl) hr he hs

theorem Inv.refuse (h : Inv p) (hs : p.stage wait = .started)
    (hsh : p.shutDown = true) : Inv (p.goTo wait .refused) := by
  refine h.goTo (by simp) (.inl (by simp [hs])) fun e he hl => ?_
  obtain ⟨rfl, hv, hr, hp, -⟩ := hl.of_started (.inl hs)
  rw [hv]
  exact .begun (.inr ⟨rfl, hsh⟩) hr hp

theorem Inv.giveBack (h : Inv p) (hs : p.stage wait = .refused) :
    Inv (((p.dropWait wait).emit wait (.returned .cancelled)).goTo wait .over) := by
  obtain ⟨e, he, hl⟩ := h.place wait
  obtain ⟨rfl, hv, -, -, hsh⟩ := hl.of_started (.inr hs)
  obtain ⟨ht, hen⟩ := abandon_spec (p.token wait)
  refine h.at_call rfl rfl rfl rfl rfl rfl (append_nil _) (fun u ho => ?_)
    (task_update ht) ?_ (.inl (by simp [hs])) ⟨none, he, ?_, .inl rfl⟩
  · rw [view_goTo_of_ne ho, view_emit_of_ne ho, dropWait, view_setToken_of_ne ho]
  · simp [Parking.goTo]
  · rw [view_goTo_self, view_emit_self, view_dropWait_self, hv]
    exact .returned hen (.inr ⟨rfl, hsh hs⟩)

theorem Inv.drop (h : Inv p) (hhn : p.hand wait = .shutdown) :
    Inv { (p.dropWait wait).emit wait .shutdown with
      hand := update p.hand wait .nobody } := by
  obtain ⟨e, hen, hl⟩ := h.place wait
  obtain ⟨rfl, hr, hs, hc⟩ := hl.of_shutdown hhn
  obtain ⟨ht, he⟩ := abandon_spec (p.token wait)
  have hlv : p.Live wait := .inr (.inl (by simp [hhn]))
  refine h.at_call rfl rfl rfl rfl rfl rfl (append_nil _) (fun u ho => ?_)
    (task_update ht) (h.begun_of_live hlv) hlv ⟨none, hen, ?_, .inl rfl⟩
  · refine Eq.trans ?_ (view_setToken_of_ne ho (p.token wait).abandon [])
    simp only [view, emit, update_of_ne ho]
    rfl
  · have hv : view { (p.dropWait wait).emit wait .shutdown with
        hand := update p.hand wait .nobody } wait =
        { ((p.dropWait wait).emit wait .shutdown).view wait with hand := .nobody } := by
      simp only [view, update_self]
    rw [hv, view_emit_self, view_dropWait_self]
    rcases hc with ⟨hst, hv⟩ | hv <;> rw [hv]
    · exact .lostOut hst (recorded_dropWait hr) he hs
    · exact .dropped he hs

theorem take_of_recorded {ended : Option (Resumed V)} (hr : Recorded token.state ended)
    (he : token.state.isWaiting = false) :
    ∃ result token', token.take = .ok (some result, token') ∧ ended = some result ∧
      token'.task = token.task ∧ token'.state.isWaiting = false := by
  obtain ⟨hn, rfl⟩ := hr
  cases hs : token.state <;> simp_all [Token.take, TokenState.isWaiting, TokenState.resumed]

theorem finish_eq (hr : Recorded (p.token wait).state (p.ended wait))
    (he : (p.token wait).state.isWaiting = false) (out : Resumed V → Out V) :
    ∃ result token, p.ended wait = some result ∧
      token.task = (p.token wait).task ∧ token.state.isWaiting = false ∧
      p.finish wait out = ({ p with
        token := update p.token wait token }).emit wait (out result) := by
  obtain ⟨result, token, ht, hrs, hts, he'⟩ := take_of_recorded hr he
  exact ⟨result, token, hrs, hts, he', by rw [finish, ht]⟩

theorem view_update_token_of_ne (ho : u ≠ wait) (token : Token V) :
    view { p with token := update p.token wait token } u = p.view u := by
  simp only [view, update_of_ne ho]

theorem view_update_token_self (token : Token V) :
    view { p with token := update p.token wait token } wait =
      { p.view wait with state := token.state } := by
  simp only [view, update_self]

section

variable (h : Inv p)

include h

theorem Inv.goOn (hs : p.stage wait = .finishing) :
    Inv ((p.finish wait .returned).goTo wait .over) := by
  obtain ⟨e, hen, hl⟩ := h.place wait
  obtain ⟨rfl, hv, hr, he⟩ := hl.of_finishing hs
  obtain ⟨result, token, hrs, ht, he', hf⟩ := finish_eq hr he .returned
  rw [hf]
  refine h.at_call rfl rfl rfl rfl rfl rfl rfl (fun u ho => ?_) (task_update ht)
    (by simp [Parking.goTo]) (.inl (by simp [hs])) ⟨none, hen, ?_, .inl rfl⟩
  · rw [view_goTo_of_ne ho, view_emit_of_ne ho, view_update_token_of_ne ho]
  · rw [view_goTo_self, view_emit_self, view_update_token_self, hv]
    exact .returned he' (.inl hrs)

theorem Inv.ready (hh : p.hand wait = .wake) :
    Inv { p.finish wait .ready with
      hand := update p.hand wait .nobody } := by
  obtain ⟨e, hen, hl⟩ := h.place wait
  obtain ⟨rfl, hv, hr, he⟩ := hl.of_wake hh
  obtain ⟨result, token, hrs, ht, he', hf⟩ := finish_eq hr he .ready
  have hlv : p.Live wait := .inr (.inl (by simp [hh]))
  rw [hf]
  refine h.at_call rfl rfl rfl rfl rfl rfl rfl (fun u ho => ?_) (task_update ht)
    (h.begun_of_live hlv) hlv ⟨none, hen, ?_, .inl rfl⟩
  · simp only [view, emit, update_of_ne ho]
  · simp only [view, View.mk.injEq] at hv
    simp only [view, emit, update_self, hv, hrs, nil_append]
    exact .readied he'

theorem Inv.begun_of_entry (he : e ∈ p.entries) : p.stage e.token ≠ .notBegun :=
  h.begun_of_live (.inr (.inr ⟨e, he, rfl⟩))

/-- The entries of one task are those of one call. -/
theorem Inv.token_eq (he : e ∈ p.entries) (hl : p.Live wait) (ht : e.task = (p.token wait).task) :
    e.token = wait :=
  h.single e.token wait (.inr (.inr ⟨e, he, rfl⟩)) hl ((h.task e he).trans ht)

theorem Inv.eq_of_task {u : Entry} (ho : u ∈ p.entries)
    (he : e ∈ p.entries) (ht : u.task = e.task) : u = e :=
  inj_on_of_nodup_map h.keys ho he
    (h.token_eq ho (.inr (.inr ⟨e, he, rfl⟩)) (ht.trans (h.task e he).symm))

/-- Somebody takes entries off the map. -/
theorem Inv.removed (k : Entry → Bool) (hen : p'.entries = p.entries.filter k)
    (hn : p'.next = p.next) (hf : p'.found = p.found) (hsh : p'.shutDown = p.shutDown)
    (hp : p'.panicked = p.panicked) (ht : p'.token = p.token)
    (hv : ∀ u, (∀ e ∈ p.entries, e.token = u → k e = true) → p'.view u = p.view u)
    (hs : ∀ e ∈ p.entries, k e = false → p'.stage e.token ≠ .notBegun)
    (hl : ∀ e ∈ p.entries, k e = false → Located p.shutDown (p'.view e.token) none)
    (hw : ∀ e ∈ p.entries, k e = true → p'.wakes.count e.task = p.wakes.count e.task)
    (hh : p.shutDown = false → ∀ task ∈ p'.wakes, ∃ e ∈ p.entries, k e = true ∧ e.task = task)
    (hwt : p'.waiting = ((p.entries.filter k).countP Entry.committed : Nat)) : Inv p' := by
  have hm (e : Entry) : e ∈ p'.entries ↔ e ∈ p.entries ∧ k e = true := by
    rw [hen, mem_filter]
  -- A call that does not lose its entry is as before.
  have ha (u : TokenId) (ho : ¬ ∃ e ∈ p.entries, e.token = u ∧ k e = false) :
      ∀ e ∈ p.entries, e.token = u → k e = true :=
    fun e he ht => Bool.not_eq_false _ ▸ fun hkp => ho ⟨e, he, ht, hkp⟩
  have hk : Keeps p p' fun u => ∃ e ∈ p.entries, e.token = u ∧ k e = false := by
    refine ⟨fun u ho => hv u (ha u ho), ?_, fun _ => by rw [ht], hn, hsh, hf, ?_, ?_⟩
    · rintro u ho (_ | committed) het
      · exact fun e he => het e ((hm e).mp he).1
      · obtain ⟨e, he, htk, hc⟩ := het
        exact ⟨e, (hm e).mpr ⟨he, ha u ho e he htk⟩, htk, hc⟩
    · rintro _ ⟨e, he, rfl, -⟩
      exact .inr (.inr ⟨e, he, rfl⟩)
    · rintro _ ⟨e, he, rfl, hkp⟩
      refine ⟨hs e he hkp, none, fun e' he' heq => ?_, hl e he hkp⟩
      obtain ⟨he', hkp'⟩ := (hm e').mp he'
      obtain rfl : e' = e := inj_on_of_nodup_map h.keys he' he heq
      exact absurd hkp' (by simp [hkp])
  refine h.of_keeps hk ?_ (fun e he => h.task e ((hm e).mp he).1) (fun e he => ?_)
    (fun hnt task hts => ?_) (by rw [hwt, hen]) (hp ▸ h.safe)
  · rw [hen]
    exact h.keys.sublist (filter_sublist.map _)
  · obtain ⟨he, hkp⟩ := (hm e).mp he
    rw [hw e he hkp, h.woken e he, due, due, ht]
  grind

/-- The count without the one entry that is taken off. -/
theorem Inv.countP_filter (he : e ∈ p.entries) (q k : Entry → Bool)
    (hk : ∀ u ∈ p.entries, k u = false ↔ u = e) :
    p.entries.countP q = (p.entries.filter k).countP q + if q e then 1 else 0 := by
  have hs : p.entries.filter (fun u => !k u) = [e] := by
    have hc : p.entries.filter (fun u => !k u) = p.entries.filter (· == e) :=
      filter_congr fun u ho => by
        rw [Bool.eq_iff_iff, beq_iff_eq, ← hk u ho, Bool.not_eq_true']
    rw [hc, filter_beq, count_eq_one_of_mem (h.keys.of_map _) he]
    rfl
  rw [countP_eq_countP_filter_add _ _ k, hs, countP_singleton]

/-- A call whose commit failed takes its entry back. -/
theorem Inv.takeBack (he : e ∈ p.entries) (hs : p.stage e.token = .checked)
    (hen : (p.token e.token).state.isWaiting = false) :
    Inv ((p.remove e.task).goTo e.token .finishing) := by
  have hl := h.located_entry he
  have hkp (u : Entry) (ho : u ∈ p.entries) (hk : (u.task != e.task) = false) : u = e :=
    h.eq_of_task ho he (by simpa using hk)
  obtain ⟨hr, ⟨hcm, -, -, hv⟩ | ⟨-, -, hv⟩⟩ := hl.of_entry
  · refine h.removed (fun u => u.task != e.task) rfl rfl rfl rfl rfl rfl (fun u ha => ?_)
      (fun u ho hk => ?_) (fun u ho hk => ?_) (fun _ _ _ => rfl) (fun hsh task ht => ?_) ?_
    · refine view_goTo_of_ne (fun hot => ?_) .finishing
      exact absurd (ha e he hot.symm) (by simp)
    · rw [hkp u ho hk]
      simp [Parking.goTo]
    · rw [hkp u ho hk, view_goTo_self,
        show (p.remove e.task).view e.token = p.view e.token from rfl, hv]
      exact .finishing hr hen
    · obtain ⟨u, ho, rfl⟩ := h.heard hsh task ht
      refine ⟨u, ho, ?_, rfl⟩
      -- No wake is on its way to an entry that is not committed.
      by_contra hk
      rw [hkp u ho (by simpa using hk)] at ht
      have hc := h.woken e he
      simp only [due, hcm, Bool.false_and, Bool.false_eq_true, if_false] at hc
      exact count_eq_zero.mp hc ht
    · have hc := h.countP_filter he Entry.committed (fun u => u.task != e.task)
        fun u ho => ⟨hkp u ho, by rintro rfl; simp⟩
      rw [if_neg (by simp [hcm]), Nat.add_zero] at hc
      rw [← hc]
      exact h.waiting
  · exact absurd (hs.symm.trans (congrArg View.stage hv)) (by simp)

theorem Inv.wake (ht : task ∈ p.wakes) : Inv (p.wake task) := by
  have her {u : Entry} (hne : u.task ≠ task) :
      (p.wakes.erase task).count u.task = p.wakes.count u.task :=
    count_erase_of_ne hne
  simp only [Parking.wake]
  split
  next hn =>
    -- Nobody is there to be woken, so a shutdown has begun.
    have hne (u : Entry) (ho : u ∈ p.entries) : u.task ≠ task := by
      simpa using find?_eq_none.mp hn u ho
    refine { h with woken := fun u ho => ?_, heard := fun hsh woken hw => ?_ }
    · exact (her (hne u ho)).trans (h.woken u ho)
    · exact h.heard hsh woken (mem_of_mem_erase hw)
  next e hf =>
    have he : e ∈ p.entries := mem_of_find?_eq_some hf
    obtain rfl : e.task = task := by simpa using find?_some hf
    have hkp (u : Entry) (ho : u ∈ p.entries) (hk : (u.task != e.task) = false) : u = e :=
      h.eq_of_task ho he (by simpa using hk)
    -- The wake is the one that is due.
    have hc := h.woken e he
    have hp := count_pos_iff.mpr ht
    obtain ⟨hcm, hen⟩ : e.committed = true ∧ (p.token e.token).state.isWaiting = false := by
      rw [hc, due] at hp
      grind
    obtain ⟨hr, ⟨hnt, -⟩ | ⟨-, -, hv⟩⟩ := (h.located_entry he).of_entry
    · exact absurd hcm (by simp [hnt])
    refine h.removed (fun u => u.task != e.task) rfl rfl rfl rfl rfl rfl (fun u ha => ?_)
      (fun u ho hk => ?_) (fun u ho hk => ?_) (fun u ho hk => ?_) (fun hsh task hw => ?_) ?_
    · have hot : u ≠ e.token := fun heq => absurd (ha e he heq.symm) (by simp)
      simp only [view, remove, update_of_ne hot]
    · rw [hkp u ho hk]
      exact h.begun_of_entry he
    · rw [hkp u ho hk]
      simp only [view, View.mk.injEq] at hv
      simp only [view, remove, update_self, hv]
      exact .waking hr hen
    · exact her (by simpa using hk)
    · obtain ⟨u, ho, rfl⟩ := h.heard hsh task (mem_of_mem_erase hw)
      refine ⟨u, ho, ?_, rfl⟩
      by_contra hk
      rw [hkp u ho (by simpa using hk)] at hw
      have hz : (p.wakes.erase e.task).count e.task = 0 := by
        rw [count_erase_self, hc, due]
        split_ifs <;> rfl
      exact count_eq_zero.mp hz hw
    · have hs := h.countP_filter he Entry.committed (fun u => u.task != e.task)
        fun u ho => ⟨hkp u ho, by rintro rfl; simp⟩
      rw [if_pos hcm] at hs
      have hwt := h.waiting
      simp only
      omega

theorem Inv.drain (hsh : p.shutDown = true) (map : Nat) : Inv (p.drain map) := by
  have hd : p.drain map = { p with
      entries := p.entries.filter fun e => !(shard e.task == map)
      waiting := p.waiting - ((p.entries.filter fun e =>
        shard e.task == map).countP Entry.committed : Nat)
      hand := fun wait => if (p.entries.filter fun e =>
        shard e.task == map).any fun e => e.token == wait then .shutdown
        else p.hand wait } := by
    simp only [Parking.drain, partition_eq_filter_filter]
    rfl
  rw [hd]
  refine h.removed (fun e => !(shard e.task == map)) rfl rfl rfl rfl rfl rfl
    (fun u ha => ?_) (fun e he _ => h.begun_of_entry he) (fun e he hk => ?_)
    (fun _ _ _ => rfl) (fun hnt => absurd hsh (by simp [hnt])) ?_
  · have hn : ((p.entries.filter fun e => shard e.task == map).any
        fun e => e.token == u) = false := by
      rw [any_eq_false]
      grind
    simp only [view, hn, Bool.false_eq_true, if_false]
  · have hsm : ((p.entries.filter fun e => shard e.task == map).any
        fun u => u.token == e.token) = true := by
      grind
    obtain ⟨hr, hc⟩ := (h.located_entry he).of_entry
    simp only [view, View.mk.injEq] at hc
    simp only [view, hsm, if_true]
    rcases hc with ⟨-, hsg, hst, hv⟩ | ⟨-, hst, hv⟩ <;> simp only [hv]
    · exact .lost hsg hr hst hsh
    · exact .taken hr hst hsh
  · have hs := countP_eq_countP_filter_add p.entries Entry.committed fun e => shard e.task == map
    have hw := h.waiting
    simp only
    omega

theorem not_live_of_not_busy (hb : p.busy task = false)
    (hl : p.Live wait) : (p.token wait).task ≠ task := by
  intro heq
  simp only [busy, Bool.or_eq_false_iff, any_eq_false, mem_range, Bool.and_eq_true,
    Bool.or_eq_true, Bool.not_eq_true', beq_iff_eq, beq_eq_false_iff_ne, not_and, not_or] at hb
  obtain ⟨hc, hen⟩ := hb
  have hcl := hc wait (begun_of_stage h (h.begun_of_live hl)) heq
  rcases hl with ⟨-, ho⟩ | hh | ⟨e, he, rfl⟩
  · exact hcl.1 ho
  · exact hcl.2 hh
  · exact hen e he ((h.task e he).symm.trans heq)

theorem Inv.call (hbs : p.busy task = false) (result : Option (Resumed V)) :
    Inv (p.call task result) := by
  have hn : p.stage p.next = .notBegun := (h.begun _).mpr (Nat.le_refl _)
  obtain ⟨e, het, hlc⟩ := h.place p.next
  obtain ⟨rfl, hv⟩ := hlc.of_notBegun hn
  simp only [view, View.mk.injEq] at hv
  -- What both ways to begin have in common.
  have hs (u : TokenId) (ho : u ≠ p.next) : (p.call task result).view u = p.view u := by
    cases result <;> simp only [Parking.call, view, update_of_ne ho]
  have ht (u : TokenId) (ho : u ≠ p.next) : (p.call task result).token u = p.token u := by
    cases result <;> simp only [Parking.call, update_of_ne ho]
  have hts : ((p.call task result).token p.next).task = task := by
    cases result <;> simp [Parking.call, Token.new]
  obtain ⟨hen, hsh, hn', hf, hwk⟩ : (p.call task result).entries = p.entries ∧
      (p.call task result).shutDown = p.shutDown ∧ (p.call task result).next = p.next + 1 ∧
      (p.call task result).found = p.found ∧ (p.call task result).wakes = p.wakes := by
    cases result <;> exact ⟨rfl, rfl, rfl, rfl, rfl⟩
  have hsg (u : TokenId) (ho : u ≠ p.next) : (p.call task result).stage u = p.stage u :=
    congrArg View.stage (hs u ho)
  have hlv (u : TokenId) (ho : u ≠ p.next) (hl : (p.call task result).Live u) : p.Live u := by
    rw [Live, hen, hsg u ho,
      show (p.call task result).hand u = p.hand u from congrArg View.hand (hs u ho)] at hl
    exact hl
  constructor
  case place =>
    intro u
    rw [hen, hsh]
    by_cases ho : u = p.next
    · subst ho
      refine ⟨none, het, ?_⟩
      cases result with
      | some result =>
        simp only [Parking.call, view, update_self, hv]
        exact .returned rfl (.inl rfl)
      | none =>
        simp only [Parking.call, view, update_self, hv]
        exact .begun (.inl rfl) ⟨by simp [Token.new], rfl⟩ (by simp [Token.new])
    · rw [hs u ho]
      exact h.place u
  case begun =>
    intro u
    rw [hn']
    by_cases ho : u = p.next
    · subst ho
      cases result <;> simp [Parking.call]
    · rw [hsg u ho, h.begun u]
      grind
  case single =>
    intro a b ha hb heq
    by_cases hna : a = p.next
    · by_cases hnb : b = p.next
      · rw [hna, hnb]
      · rw [hna, hts, ht b hnb] at heq
        exact absurd heq.symm (not_live_of_not_busy h hbs (hlv b hnb hb))
    · by_cases hnb : b = p.next
      · rw [hnb, hts, ht a hna] at heq
        exact absurd heq (not_live_of_not_busy h hbs (hlv a hna ha))
      · rw [ht a hna, ht b hnb] at heq
        exact h.single a b (hlv a hna ha) (hlv b hnb hb) heq
  case keys => rw [hen]; exact h.keys
  case task =>
    rw [hen]
    intro e he
    rw [ht _ (het e he)]
    exact h.task e he
  case found =>
    rw [hf, hn']
    exact fun wait hw => Nat.lt_succ_of_lt (h.found wait hw)
  case woken =>
    rw [hen, hwk]
    intro e he
    rw [h.woken e he, due, due, ht _ (het e he)]
  case heard => cases result <;> exact h.heard
  case waiting => cases result <;> exact h.waiting
  case safe => cases result <;> exact h.safe

end

theorem isIn_iff : p.isIn task = true ↔ ∃ e ∈ p.entries, e.task = task := by
  simp only [isIn, any_eq_true, beq_iff_eq]

theorem Inv.insert (h : Inv p) (hst : p.stage wait = .started)
    (hs : p.shutDown = false) : Inv (p.insert wait) := by
  obtain ⟨e, hen, hl⟩ := h.place wait
  obtain ⟨rfl, hv, hr, hp, -⟩ := hl.of_started (.inl hst)
  have hlv : p.Live wait := .inl (by simp [hst])
  -- No other call can have put the task in.
  have hn (u : Entry) (ho : u ∈ p.entries) :
      u.task ≠ (p.token wait).task :=
    fun heq => hen u ho (h.token_eq ho hlv heq)
  have hin : p.isIn (p.token wait).task = false := by
    refine Bool.eq_false_iff.mpr fun hin => ?_
    obtain ⟨u, ho, heq⟩ := isIn_iff.mp hin
    exact hn u ho heq
  simp only [Parking.insert, hs, hin, Bool.false_eq_true, if_false]
  generalize hnw : ({ task := (p.token wait).task, token := wait, committed := false } :
    Entry) = new
  have hm (u : Entry) :
      u ∈ ((p.addEntry new).goTo wait .inserted).entries ↔ u ∈ p.entries ∨ u = new := by
    simp [Parking.goTo, addEntry]
  have hk : Keeps p ((p.addEntry new).goTo wait .inserted) (· = wait) := by
    refine ⟨fun u hot => view_goTo_of_ne hot .inserted, ?_, fun _ => rfl, rfl, rfl, rfl, ?_, ?_⟩
    · rintro u hot (_ | committed) hf
      · intro e he
        rcases (hm e).mp he with he | rfl
        · exact hf e he
        · rw [← hnw]
          exact Ne.symm hot
      · obtain ⟨e, he, heq⟩ := hf
        exact ⟨e, (hm e).mpr (.inl he), heq⟩
    · rintro _ rfl
      exact hlv
    · rintro _ rfl
      refine ⟨by simp [Parking.goTo], some false, ⟨new, (hm new).mpr (.inr rfl), ?_, ?_⟩, ?_⟩
      · rw [← hnw]
      · rw [← hnw]
      · rw [view_goTo_self, show (p.addEntry new).view _ = p.view _ from rfl, hv]
        exact .inMap (.inl rfl) hr hp
  refine h.of_keeps hk ?_ (fun e he => ?_) (fun e he => ?_) (fun _ task hts => ?_) ?_ h.safe
  · simp only [Parking.goTo, addEntry, map_append, map_cons, map_nil]
    refine nodup_append.mpr ⟨h.keys, nodup_singleton _, ?_⟩
    intro token ht u hot heq
    obtain ⟨e, he, rfl⟩ := mem_map.mp ht
    rw [mem_singleton.mp hot, ← hnw] at heq
    exact hen e he heq
  · rcases (hm e).mp he with he | rfl
    · exact h.task e he
    · rw [← hnw]
  · rcases (hm e).mp he with he | rfl
    · exact h.woken e he
    · rw [← hnw]
      refine count_eq_zero.mpr fun hw => ?_
      obtain ⟨u, ho, heq⟩ := h.heard hs _ hw
      exact hn u ho heq
  · obtain ⟨e, he, heq⟩ := h.heard hs task hts
    exact ⟨e, (hm e).mpr (.inl he), heq⟩
  · have hc : ((p.addEntry new).goTo wait .inserted).entries.countP Entry.committed =
        p.entries.countP Entry.committed := by
      simp [Parking.goTo, addEntry, countP_append, ← hnw]
    rw [hc]
    exact h.waiting

theorem commitEntry_of_not_in (h : p.isIn task = false) : p.commitEntry task = p := by
  have hm : p.entries.map (fun e =>
      { e with committed := e.committed || e.task == task }) = p.entries := by
    conv_rhs => rw [← map_id p.entries]
    refine map_congr_left fun e he => ?_
    have hne : (e.task == task) = false :=
      beq_eq_false_iff_ne.mpr fun heq => Bool.eq_false_iff.mp h (isIn_iff.mpr ⟨e, he, heq⟩)
    simp [hne]
  simp [commitEntry, hm, h]

/-- The call gives its task up, after a shutdown has taken it. -/
theorem Inv.commit_lost (h : Inv p) (hs : p.stage wait = .checked)
    (hn : ∀ e ∈ p.entries, e.token ≠ wait)
    (hh : p.hand wait = .shutdown) (hot : p.out wait = [])
    (hsh : p.shutDown = true) (hop : (p.token wait).state.isWaiting) :
    Inv { (p.setToken wait { p.token wait with state := .parked } []).goTo wait .over with
      gaveUp := update p.gaveUp wait true } := by
  have ht : ({ p.token wait with state := .parked } : Token V).task = (p.token wait).task := rfl
  refine h.at_call rfl rfl rfl rfl rfl rfl (append_nil _) (fun u ho => ?_) (task_update ht)
    (by simp [Parking.goTo]) (.inl (by simp [hs])) ⟨none, hn, ?_, .inl rfl⟩
  · refine Eq.trans ?_ ((view_goTo_of_ne ho .over).trans
      (view_setToken_of_ne ho { p.token wait with state := .parked } []))
    simp only [view, update_of_ne ho]
    rfl
  · simp only [view, Parking.goTo, setToken, update_self, hh, hot, hop, if_true]
    exact .taken ⟨by simp, rfl⟩ (by simp) hsh

/-- The call gives its task up to the registry. -/
theorem Inv.commit_given (h : Inv p) (he : e ∈ p.entries) (hst : p.stage e.token = .checked)
    (hop : (p.token e.token).state.isWaiting) :
    Inv { ((p.commitEntry e.task).setToken e.token
        { p.token e.token with state := .parked } []).goTo e.token .over with
      gaveUp := update p.gaveUp e.token true } := by
  obtain ⟨-, ⟨hcm, -, -, hb⟩ | ⟨-, -, hov⟩⟩ := (h.located_entry he).of_entry
  case inr => exact absurd (hst.symm.trans (congrArg View.stage hov)) (by simp)
  generalize hp' : ({ ((p.commitEntry e.task).setToken e.token
      { p.token e.token with state := .parked } []).goTo e.token .over with
    gaveUp := update p.gaveUp e.token true } : Parking V) = p'
  have hen : p'.entries = p.entries.map fun u =>
      { u with committed := u.committed || u.task == e.task } := by
    rw [← hp']
    rfl
  have hs (u : Entry) (ho : u ∈ p.entries) (hne : u ≠ e) :
      { u with committed := u.committed || u.task == e.task } = u := by
    have hne' : (u.task == e.task) = false :=
      beq_eq_false_iff_ne.mpr fun heq => hne (h.eq_of_task ho he heq)
    simp [hne']
  have hv (u : TokenId) (hot : u ≠ e.token) : p'.view u = p.view u := by
    rw [← hp']
    simp only [view, Parking.goTo, setToken, commitEntry, update_of_ne hot, hop, if_true]
  have htk (u : TokenId) (hot : u ≠ e.token) : p'.token u = p.token u := by
    rw [← hp']
    simp only [Parking.goTo, setToken, commitEntry, update_of_ne hot]
  have hse : (p'.token e.token).state = .parked := by
    rw [← hp']
    simp [Parking.goTo, setToken]
  have hts (u : TokenId) : (p'.token u).task = (p.token u).task := by
    by_cases hot : u = e.token
    · rw [hot, ← hp']
      simp [Parking.goTo, setToken]
    · rw [htk u hot]
  have hw : p'.wakes = p.wakes := by
    rw [← hp']
    exact append_nil _
  have hk : Keeps p p' (· = e.token) := by
    refine ⟨hv, ?_, hts, by rw [← hp']; rfl, by rw [← hp']; rfl, by rw [← hp']; rfl, ?_, ?_⟩
    · rw [hen]
      rintro u hot (_ | committed) hfn
      · intro found hf
        obtain ⟨old, ho, rfl⟩ := mem_map.mp hf
        exact hfn old ho
      · obtain ⟨old, ho, hto, hc⟩ := hfn
        have hne : old ≠ e := fun heq => hot (by rw [← hto, heq])
        exact ⟨_, mem_map_of_mem ho, hto, by rw [hs old ho hne, hc]⟩
    · rintro _ rfl
      exact .inr (.inr ⟨e, he, rfl⟩)
    · rintro _ rfl
      rw [hen]
      refine ⟨?_, some true, ⟨_, mem_map_of_mem he, rfl, by simp⟩, ?_⟩
      · rw [← hp']
        simp [Parking.goTo]
      · rw [← hp']
        simp only [view, View.mk.injEq] at hb
        simp only [view, Parking.goTo, setToken, commitEntry, update_self, hb, hop, if_true]
        exact .waiting ⟨by simp, rfl⟩ (by simp)
  refine h.of_keeps hk ?_ ?_ ?_ (fun hnt task ht => ?_) ?_ (by rw [← hp']; exact h.safe)
  · rw [hen, map_map]
    exact h.keys
  · rw [hen]
    intro found hf
    obtain ⟨old, ho, rfl⟩ := mem_map.mp hf
    exact h.task old ho
  · rw [hen, hw]
    intro found hf
    obtain ⟨old, ho, rfl⟩ := mem_map.mp hf
    have hol := h.woken old ho
    by_cases heq : old = e
    · subst heq
      rw [due, hcm] at hol
      simpa [due, hse, TokenState.isWaiting] using hol
    · have hne : old.token ≠ e.token := fun hto =>
        heq (inj_on_of_nodup_map h.keys ho he hto)
      rw [hs old ho heq, hol, due, due, htk _ hne]
  · rw [hw] at ht
    rw [hen]
    obtain ⟨old, ho, heq⟩ := h.heard hnt task ht
    exact ⟨_, mem_map_of_mem ho, heq⟩
  · have hin : p.isIn e.task = true := isIn_iff.mpr ⟨e, he, rfl⟩
    have hwt : p'.waiting = p.waiting + 1 := by
      rw [← hp']
      simp [Parking.goTo, setToken, commitEntry, hin]
    have hkp (u : Entry) (ho : u ∈ p.entries) :
        (u != e) = false ↔ u = e := by simp
    have hol := h.countP_filter he Entry.committed (· != e) hkp
    have hn := h.countP_filter he (Entry.committed ∘ fun u =>
        { u with committed := u.committed || u.task == e.task })
      (· != e) hkp
    have hr : (p.entries.filter (· != e)).countP (Entry.committed ∘ fun u =>
        { u with committed := u.committed || u.task == e.task }) =
        (p.entries.filter (· != e)).countP Entry.committed := by
      refine countP_congr fun u ho => ?_
      grind
    rw [hwt, h.waiting, hen, countP_map, hn, hol, hr]
    simp [hcm]

theorem commit_eq (token : Token V) :
    token.state.isWaiting ∧ token.commit = ({ token with state := .parked }, true) ∨
      token.state.isWaiting = false ∧ token.commit = (token, false) := by
  obtain ⟨task, flag, endedBy, state⟩ := token
  cases state <;> simp [Token.commit, TokenState.isWaiting]

/-- The call of a wait whose entry is gone: a shutdown has the task, or has returned it. -/
theorem Inv.commit_over (h : Inv p) (hst : p.stage wait = .checked)
    (hn : ∀ e ∈ p.entries, e.token ≠ wait)
    (he : (p.token wait).state.isWaiting = false) : Inv (p.goTo wait .over) := by
  refine h.goTo (by simp) (.inl (by simp [hst])) fun e hen hl => ?_
  have ha : (p.token wait).state ≠ .armed := by
    intro hse
    rw [hse] at he
    cases he
  obtain ⟨hr, ⟨rfl, -⟩ | ⟨rfl, -, hv, hs⟩ | ⟨rfl, -, hv, hs⟩⟩ := hl.of_inserted (.inr hst)
  · obtain ⟨found, hf, ht, -⟩ := hen
    exact absurd ht (hn found hf)
  · rw [hv]
    exact .taken hr ha hs
  · rw [hv]
    exact .dropped he hs

theorem Inv.commit (h : Inv p) (hs : p.stage wait = .checked) : Inv (p.commit wait) := by
  have hlv : p.Live wait := .inl (by simp [hs])
  by_cases hin : p.isIn (p.token wait).task = true
  · obtain ⟨e, he, hts⟩ := isIn_iff.mp hin
    obtain rfl := h.token_eq he hlv hts
    rcases commit_eq (p.token e.token) with ⟨ho, hc⟩ | ⟨hen, hc⟩
    · have hg := h.commit_given he hs ho
      rw [hts] at hg
      simpa only [Parking.commit, hc, if_true] using hg
    · have hb := h.takeBack he hs hen
      rw [hts] at hb
      simpa only [Parking.commit, hc, hin, Bool.false_eq_true, if_false, if_true] using hb
  · have hn (e : Entry) (he : e ∈ p.entries) : e.token ≠ wait := by
      rintro rfl
      exact hin (isIn_iff.mpr ⟨e, he, (h.task e he).symm⟩)
    rw [Bool.not_eq_true] at hin
    rcases commit_eq (p.token wait) with ⟨ho, hc⟩ | ⟨hen, hc⟩
    · obtain ⟨e, het, hl⟩ := h.place wait
      obtain ⟨-, ⟨rfl, -⟩ | ⟨-, -, hv, hsh⟩ | ⟨-, hen, -⟩⟩ := hl.of_inserted (.inr hs)
      · obtain ⟨found, hf, ht, -⟩ := het
        exact absurd ht (hn found hf)
      · simp only [Parking.commit, hc, if_true, commitEntry_of_not_in hin]
        exact h.commit_lost hs hn (congrArg View.hand hv) (congrArg View.out hv) hsh ho
      · exact absurd ho (by rw [Bool.not_eq_true]; exact hen)
    · simp only [Parking.commit, hc, hin, Bool.false_eq_true, if_false]
      exact h.commit_over hs hn hen

/-- What holds of a call before a shutdown holds of it when one has begun. -/
theorem Located.shutDown {shutDown : Bool} {view : View V} {e : Option Bool}
    (h : Located shutDown view e) : Located true view e := by
  cases h with
  | notBegun => exact .notBegun
  | begun hs hr hst => exact .begun (hs.imp_right fun hs => ⟨hs.1, rfl⟩) hr hst
  | inMap hs hr hst => exact .inMap hs hr hst
  | lost hs hr hst => exact .lost hs hr hst rfl
  | lostOut hs hr hst => exact .lostOut hs hr hst rfl
  | finishing hr hst => exact .finishing hr hst
  | waiting hr hst => exact .waiting hr hst
  | waking hr hst => exact .waking hr hst
  | taken hr hst => exact .taken hr hst rfl
  | returned hst hrs => exact .returned hst (hrs.imp_right fun h => ⟨h.1, rfl⟩)
  | readied hst => exact .readied hst
  | dropped hst => exact .dropped hst rfl

theorem Inv.shutDown (h : Inv p) : Inv { p with shutDown := true } :=
  { h with
    place wait := (h.place wait).imp fun _ hp => ⟨hp.1, hp.2.shutDown⟩
    heard := nofun }

theorem Inv.setFound (h : Inv p) {found : List TokenId}
    (hf : ∀ wait ∈ found, wait < p.next) : Inv { p with found } :=
  { h with found := hf }

theorem Inv.ite (h : Inv p) {party : Prop} [Decidable party]
    (hs : party → Inv p') : Inv (if party then p' else p) := by
  split_ifs with hp
  · exact hs hp
  · exact h

theorem Inv.step (h : Inv p) (op : Op V) : Inv (p.step op) := by
  cases op with
  | call task result =>
    simp only [Parking.step]
    split_ifs with hb
    · exact h
    · exact h.call (Bool.eq_false_iff.mpr hb) result
  | insert wait =>
    refine h.ite fun hst => ?_
    cases hsh : p.shutDown with
    | true =>
      simp only [Parking.insert, hsh, if_true]
      exact h.refuse hst hsh
    | false => exact h.insert hst hsh
  | giveBack wait => exact h.ite fun hst => h.giveBack hst
  | recheck wait stop =>
    refine h.ite fun hst => ?_
    split_ifs with hs
    · exact (h.cancelToken (begun_of_stage h (by simp [hst]))).recheck hst
    · exact h.recheck hst
  | commit wait => exact h.ite fun hst => h.commit hst
  | goOn wait => exact h.ite fun hst => h.goOn hst
  | lookUp task =>
    simp only [Parking.step]
    split
    · next e hf =>
      refine h.setFound ?_
      rintro wait (_ | ⟨_, hw⟩)
      · exact begun_of_stage h (h.begun_of_entry (mem_of_find?_eq_some hf))
      · exact h.found wait hw
    · exact h
  | cancel wait =>
    refine h.ite fun hf => ?_
    exact (h.setFound fun u ho => h.found u (mem_of_mem_erase ho)).cancelToken (h.found wait hf)
  | fire wait fired | expire wait => exact h.ite fun hop => h.endWait hop.1 hop.2 rfl rfl
  | wake task => exact h.ite fun hwk => h.wake hwk
  | ready wait => exact h.ite fun hh => h.ready hh
  | shutDown => exact h.shutDown
  | drain map => exact h.ite fun hsh => h.drain hsh map
  | drop wait => exact h.ite fun hh => h.drop hh

theorem inv_start : Inv (start : Parking V) where
  place _ := ⟨none, by simp [EntryIs, start], .notBegun⟩
  begun _ := iff_of_true rfl (Nat.zero_le _)
  single a b ha := by simp [Live, start] at ha
  keys := nodup_nil
  task := by simp [start]
  found := by simp [start]
  woken := by simp [start]
  heard := by simp [start]
  waiting := rfl
  safe := rfl

theorem Inv.run (h : Inv p) (ops : List (Op V)) : Inv (p.run ops) := by
  induction ops generalizing p with
  | nil => exact h
  | cons op ops ih => exact ih (h.step op)

end Inv

/-! ### Every task comes out once -/

/-- How many hold the task of the wait: its call, the map, and who took it off the map. -/
def holders (parking : Parking V) (wait : TokenId) : Nat :=
  (if parking.stage wait = .started ∨ parking.stage wait = .refused ∨
      parking.stage wait = .finishing then 1 else 0) +
    parking.entries.countP (fun entry => entry.token == wait) +
    if parking.hand wait = .nobody then 0 else 1

/-- No party has a step left to do: each call is over, and no wake and no task is on its way. -/
def Quiet (parking : Parking V) : Prop :=
  (∀ wait < parking.next, parking.stage wait = .over ∧ parking.hand wait = .nobody) ∧
    parking.wakes = []

/-- What becomes of the tasks that were given to `park`. -/
structure Accounted (parking : Parking V) : Prop where
  /-- A task is held by one party, or it has come out, once. -/
  once : ∀ wait < parking.next, parking.holders wait + (parking.out wait).length = 1
  /-- When nobody has a step left, a task that has not come out waits for what has not happened. -/
  settled : parking.Quiet → ∀ wait < parking.next, (parking.out wait).length = 1 ∨
    ((parking.token wait).state.isWaiting ∧
      ∃ entry ∈ parking.entries, entry.token = wait ∧ entry.committed = true)
  /-- A task that was given up waits, a wake has it, or `ready` got it, unless a shutdown took it.
  -/
  ready : ∀ wait, parking.gaveUp wait = true →
    (∃ entry ∈ parking.entries, entry.token = wait ∧ entry.committed = true) ∨
      parking.hand wait = .wake ∨ (∃ result, parking.out wait = [.ready result]) ∨
      parking.hand wait = .shutdown ∨ parking.out wait = [.shutdown]
  /-- `ready` gets no other task. -/
  given : ∀ wait result, .ready result ∈ parking.out wait → parking.gaveUp wait = true
  /-- One wake is on its way to a task that waits and whose wait has ended, and none to another. -/
  woken : ∀ entry ∈ parking.entries, parking.wakes.count entry.task = parking.due entry
  /-- What comes out comes of a wait that has ended. -/
  ended : ∀ wait < parking.next, parking.out wait ≠ [] →
    (parking.token wait).state.isWaiting = false
  /-- `ready` gets the result of the wait. -/
  result : ∀ wait result, .ready result ∈ parking.out wait → parking.ended wait = some result
  /-- So does the caller of `park`; a shutdown makes it a cancel. -/
  returned : ∀ wait result, .returned result ∈ parking.out wait →
    parking.ended wait = some result ∨ result = .cancelled ∧ parking.shutDown = true
  /-- The count is the number of the entries that are committed. -/
  waiting : parking.waiting = (parking.entries.countP Entry.committed : Nat)
  /-- `finish` finds a result, and no task is parked twice. -/
  safe : parking.panicked = false

section Accounted

variable {e : Option Bool} {shutDown : Bool} {view : View V}

variable {p : Parking V} {wait : TokenId}

theorem Inv.countP_token (h : Inv p) (he : EntryIs p.entries wait e) :
    p.entries.countP (fun u => u.token == wait) = e.toList.length := by
  have hc : p.entries.countP (fun u => u.token == wait) =
      (p.entries.map Entry.token).count wait := by
    rw [List.count, countP_map]
    rfl
  rw [hc]
  cases e with
  | none =>
    refine count_eq_zero.mpr fun hm => ?_
    obtain ⟨u, ho, ht⟩ := mem_map.mp hm
    exact he u ho ht
  | some committed =>
    obtain ⟨u, ho, rfl, -⟩ := he
    exact count_eq_one_of_mem h.keys (mem_map_of_mem ho)

section

variable (h : Located shutDown view e)

include h

/-- In each place that a task can be, one party holds it or it has come out. -/
theorem Located.holders_eq (hb : view.stage ≠ .notBegun) :
    (if view.stage = .started ∨ view.stage = .refused ∨ view.stage = .finishing then 1 else 0) +
      e.toList.length + (if view.hand = .nobody then 0 else 1) + view.out.length = 1 := by
  cases h with
  | notBegun => exact absurd rfl hb
  | begun hs => rcases hs with rfl | ⟨rfl, -⟩ <;> simp
  | inMap hs | lost hs | lostOut hs => rcases hs with rfl | rfl <;> simp
  | _ => simp

theorem Located.out_spec :
    (view.out ≠ [] → view.state.isWaiting = false) ∧
      (∀ result, .ready result ∈ view.out → view.gaveUp = true ∧ view.ended = some result) ∧
      ∀ result, .returned result ∈ view.out →
        view.ended = some result ∨ result = .cancelled ∧ shutDown = true := by
  cases h with
  | lostOut _ _ hs | readied hs | dropped hs => simp [hs]
  | returned hs hr =>
    grind
  | _ => simp

theorem Located.gaveUp_spec (hg : view.gaveUp = true) :
    e = some true ∨ view.hand = .wake ∨ (∃ result, view.out = [.ready result]) ∨
      view.hand = .shutdown ∨ view.out = [.shutdown] := by
  cases h with
  | waiting => exact .inl rfl
  | waking => exact .inr (.inl rfl)
  | @readied _ result => exact .inr (.inr (.inl ⟨result, rfl⟩))
  | taken => exact .inr (.inr (.inr (.inl rfl)))
  | dropped => exact .inr (.inr (.inr (.inr rfl)))
  | _ => cases hg

/-- A call that is over has its task out, or has given it to the registry. -/
theorem Located.of_over (hst : view.stage = .over) (hh : view.hand = .nobody) :
    view.out.length = 1 ∨ e = some true := by
  cases h with
  | waiting => exact .inr rfl
  | returned | readied | dropped => exact .inl rfl
  | begun hs => rcases hs with rfl | ⟨rfl, -⟩ <;> cases hst
  | inMap hs | lostOut hs => rcases hs with rfl | rfl <;> cases hst
  | lost | taken | waking => cases hh
  | _ => cases hst

end

theorem Inv.accounted (h : Inv p) : p.Accounted where
  once wait hwt := by
    obtain ⟨e, he, hl⟩ := h.place wait
    have hb : p.stage wait ≠ .notBegun := fun hs =>
      Nat.not_le_of_lt hwt ((h.begun wait).mp hs)
    rw [holders, h.countP_token he]
    exact hl.holders_eq hb
  settled hq wait hwt := by
    obtain ⟨e, he, hl⟩ := h.place wait
    obtain ⟨hs, hh⟩ := hq.1 wait hwt
    rcases hl.of_over hs hh with ho | rfl
    · exact .inl ho
    · obtain ⟨found, hf, rfl, hc⟩ := he
      refine .inr ⟨?_, found, hf, rfl, hc⟩
      -- Of a wait that has ended, a wake would be on its way.
      by_contra hen
      have hw := h.woken found hf
      simp [hq.2, due, hc, hen] at hw
  ready wait hg := by
    obtain ⟨e, he, hl⟩ := h.place wait
    rcases hl.gaveUp_spec hg with rfl | hr
    · exact .inl he
    · exact .inr hr
  given wait result ho := by
    obtain ⟨_, -, hl⟩ := h.place wait
    exact (hl.out_spec.2.1 result ho).1
  woken := h.woken
  ended wait _ ho := by
    obtain ⟨_, -, hl⟩ := h.place wait
    exact hl.out_spec.1 ho
  result wait result ho := by
    obtain ⟨_, -, hl⟩ := h.place wait
    exact (hl.out_spec.2.1 result ho).2
  returned wait result ho := by
    obtain ⟨_, -, hl⟩ := h.place wait
    exact hl.out_spec.2.2 result ho
  waiting := h.waiting
  safe := h.safe

end Accounted

/-- Whatever the order of the steps of the calls of `park`, the wakes, the cancels and a shutdown,
every task given to `park` comes out once, of a wait that has ended. -/
theorem loses_no_task (ops : List (Op V)) : ((start : Parking V).run ops).Accounted :=
  (inv_start.run ops).accounted

/-- A cancel that comes when the task waits: its wake hands the task to `ready`. -/
example : (((start : Parking Nat).run [.call 3 none, .insert 0, .recheck 0 false, .commit 0,
    .lookUp 3, .cancel 0, .wake 3, .ready 0]).out 0) = [.ready .cancelled] := by
  decide

/-! ### Shutdown -/

/-- After a shutdown has begun, no task gets an entry. -/
theorem step_of_shutDown {p : Parking V} (h : p.shutDown = true) (op : Op V) :
    (p.step op).shutDown = true ∧
      (p.step op).entries.map Entry.task ⊆ p.entries.map Entry.task := by
  have hf (keep : Entry → Bool) :
      (p.entries.filter keep).map Entry.task ⊆ p.entries.map Entry.task :=
    map_subset _ (filter_subset_self _)
  cases op with
  | drain map =>
    rw [step, if_pos h, drain, partition_eq_filter_filter]
    exact ⟨h, hf _⟩
  | shutDown => exact ⟨rfl, Subset.refl _⟩
  | _ =>
    simp only [step, call, insert, commit, wake, finish, if_pos h]
    repeat' split
    all_goals first
      | exact ⟨h, Subset.refl _⟩
      | exact ⟨h, hf _⟩
      -- The mark of a commit leaves the task of an entry.
      | exact ⟨h, by simp [goTo, setToken, commitEntry, comp_def]⟩

theorem run_of_shutDown {p : Parking V} (h : p.shutDown = true) (ops : List (Op V)) :
    ∀ task ∈ (p.run ops).entries.map Entry.task,
      task ∈ p.entries.map Entry.task ∧ .drain (shard task) ∉ ops := by
  induction ops generalizing p with
  | nil => exact fun task ht => ⟨ht, not_mem_nil⟩
  | cons op ops ih =>
    intro task ht
    obtain ⟨hs, hsub⟩ := step_of_shutDown h op
    obtain ⟨hm, hn⟩ := ih hs task ht
    refine ⟨hsub hm, not_mem_cons_of_ne_of_not_mem ?_ hn⟩
    rintro rfl
    obtain ⟨entry, ⟨-, hne⟩, rfl⟩ : ∃ entry, (entry ∈ p.entries ∧ shard entry.task ≠ shard task) ∧
        entry.task = task := by simpa [step, drain, h] using hm
    exact hne rfl

/-- However its steps mix with those of others, a shutdown that has emptied a map leaves nobody in
it. When it has emptied them all and nobody has a step left, each task that was ever given to `park`
has come out once. -/
theorem shutdown_leaves_nobody (ops more : List (Op V)) :
    let parking := (start : Parking V).run (ops ++ .shutDown :: more)
    (∀ entry ∈ parking.entries, .drain (shard entry.task) ∉ more) ∧
      ((∀ map < shards, .drain map ∈ more) → parking.waiting = 0 ∧
        (parking.Quiet → ∀ wait < parking.next, (parking.out wait).length = 1)) := by
  intro parking
  have he : ∀ entry ∈ parking.entries, .drain (shard entry.task) ∉ more := by
    intro entry hm
    have hr : parking = (((start : Parking V).run ops).step .shutDown).run more := by
      simp [parking, run]
    exact (run_of_shutDown rfl more _ (mem_map_of_mem (hr ▸ hm))).2
  refine ⟨he, fun hd => ?_⟩
  have hn : parking.entries = [] :=
    eq_nil_iff_forall_not_mem.mpr fun entry hm => he entry hm (hd _ (Nat.mod_lt _ (by decide)))
  have ha := (inv_start.run (ops ++ .shutDown :: more)).accounted
  refine ⟨ha.waiting.trans (by rw [hn]; rfl), fun hq wait hw => ?_⟩
  refine (ha.settled hq wait hw).resolve_right ?_
  grind

end Parking

end Silt.Sync

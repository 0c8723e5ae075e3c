import Mathlib.Tactic.Common

/-!
# The token of one wait

A task that waits has one token. It stands on the queue of every arm of the wait and in the
timer, and the first party that claims it ends the wait: every later one finds it no longer
waiting and passes over it. This file models `runtime/sync/token.rs` and the waiters and wakes of
`runtime/sync/queue.rs`.

A token is shared by reference. The model gives every token a number, `TokenId`, and keeps the
tokens themselves in a store, `Peers`, together with the cancel flags, the tasks that are to be
woken once the locks are released, and a log of what happened, in order. The log is no data of the
source: it is the record over which the results on runs are stated.

## Main definitions

* `Silt.Sync.Token` and its operations `claim`, `fire`, `expire`, `cancel`, `abandon`, `commit`,
  `take`.
* `Silt.Sync.Waiter`, `Silt.Sync.Event`, `Silt.Sync.Peers`, `Silt.Sync.Peers.fire`.
-/

namespace Silt.Sync

/-- The scheduler's name for a task. -/
abbrev TaskId := Nat

/-- The identity of a cancel flag. -/
abbrev FlagId := Nat

/-- The identity of a token. -/
abbrev TokenId := Nat

/-- The identity of a channel. -/
abbrev ChanId := Nat

/-- The identity of a cell. -/
abbrev CellId := Nat

/-- How a channel was closed: why, when the producer failed, and the task of the stream stage
whose failure it is. -/
structure Close where
  failure : Option String
  stage : Option TaskId
  deriving DecidableEq, Repr

/-- How an arm of a wait was completed. -/
inductive Outcome (V : Type) where
  | received (value : V)
  | sent
  | closed (close : Close)
  | done
  | asked
  deriving DecidableEq, Repr

/-- How a wait ended. -/
inductive Fired (V : Type) where
  | arm (index : Nat) (outcome : Outcome V)
  | deadline
  deriving DecidableEq, Repr

/-- What a task finds when it comes back from a park. -/
inductive Resumed (V : Type) where
  | fired (fired : Fired V)
  | cancelled
  | expired
  deriving DecidableEq, Repr

/-- The states of a token. An `armed` token is on the queues while the worker of the task has not
given the task up; ending the wait then wakes nobody. -/
inductive TokenState (V : Type) where
  | armed
  | parked
  | fired (fired : Fired V)
  | cancelled
  | expired
  | taken
  deriving DecidableEq, Repr

/-- The places of this module at which the source says `unreachable!`. -/
inductive Unreachable where
  | resultTakenTwice
  | taskTakenBackWaiting
  deriving DecidableEq, Repr

/-- One wait of one task. -/
structure Token (V : Type) where
  task : TaskId
  cancelFlag : Option FlagId
  endedBy : Option Nat
  state : TokenState V
  deriving DecidableEq, Repr

variable {V : Type}

/-- Whether a task's cancel flag is set. -/
def isSet (flags : FlagId → Bool) : Option FlagId → Bool
  | none => false
  | some flag => flags flag

/-- Whether the wait of a token in this state is still open. -/
def TokenState.isWaiting : TokenState V → Bool
  | armed | parked => true
  | fired _ | cancelled | expired | taken => false

namespace Token

/-- A new token is on the queues and not given up yet. -/
def new (task : TaskId) (cancelFlag : Option FlagId) : Token V :=
  { task, cancelFlag, endedBy := none, state := .armed }

/-- Whether `claim` gives the token out: nobody completes an arm for a task whose cancel flag is
set, and a wait that has ended is not ended again. -/
def claim (flags : FlagId → Bool) (token : Token V) : Bool :=
  !isSet flags token.cancelFlag && token.state.isWaiting

/-- The tasks that are to be woken when the wait ends now. -/
def wakes (token : Token V) : List TaskId :=
  match token.state with
  | .parked => [token.task]
  | _ => []

/-- End the wait of a claimed token with `fired`. -/
def fire (token : Token V) (fired : Fired V) : Token V :=
  { token with
    endedBy := match fired with
      | .arm index _ => some index
      | .deadline => token.endedBy
    state := .fired fired }

/-- End the wait of a claimed token because the time of its task is over. -/
def expire (token : Token V) : Token V :=
  { token with state := .expired }

/-- End the wait because the task is cancelled; `false` when it had ended already. -/
def cancel (token : Token V) : Token V × Bool :=
  match token.state with
  | .armed | .parked => ({ token with state := .cancelled }, true)
  | .fired _ | .cancelled | .expired | .taken => (token, false)

/-- End the wait without a wake: its task is gone. -/
def abandon (token : Token V) : Token V :=
  match token.state with
  | .armed | .parked => { token with state := .cancelled }
  | .fired _ | .cancelled | .expired | .taken => token

/-- Give the task up; `false` when the wait has ended already. -/
def commit (token : Token V) : Token V × Bool :=
  match token.state with
  | .armed => ({ token with state := .parked }, true)
  | .parked => (token, true)
  | .fired _ | .cancelled | .expired | .taken => (token, false)

/-- How the wait ended, `none` while it is open. The result of an arm is taken once. -/
def take (token : Token V) : Except Unreachable (Option (Resumed V) × Token V) :=
  match token.state with
  | .armed | .parked => .ok (none, token)
  | .cancelled => .ok (some .cancelled, token)
  | .expired => .ok (some .expired, token)
  | .fired fired => .ok (some (.fired fired), { token with state := .taken })
  | .taken => .error .resultTakenTwice

end Token

/-- A token on one queue: which arm of its wait the queue is, and the value to send if the arm is
a send. -/
structure Waiter (V : Type) where
  token : TokenId
  arm : Nat
  payload : Option V
  deriving DecidableEq, Repr

/-- Where a waiter is queued. -/
inductive Place where
  | chan (id : ChanId)
  | cell (id : CellId)
  deriving DecidableEq, Repr

/-- What can happen to a wait, or at a channel. -/
inductive Event (V : Type) where
  /-- A peer completed the arm of the waiter at that place. -/
  | fired (place : Place) (waiter : Waiter V) (outcome : Outcome V)
  /-- A call on the channel was completed at once, for an arm of a wait or for none; a send has its
  value with it. -/
  | returned (chan : ChanId) (caller : Option (TokenId × Nat)) (outcome : Outcome V)
      (payload : Option V)
  /-- The wait ended otherwise than by a peer that completed an arm. -/
  | ended (wait : TokenId) (result : Resumed V)
  /-- The task took this result of its wait. -/
  | resumed (wait : TokenId) (result : Resumed V)
  deriving DecidableEq, Repr

/-- The tokens an operation meets, with the cancel flags, and what it leaves behind: the tasks to
wake and the log. -/
structure Peers (V : Type) where
  flags : FlagId → Bool
  token : TokenId → Token V
  wakes : List TaskId
  log : List (Event V)

namespace Peers

variable {waiter : Waiter V}

/-- Whether a waiter can be claimed: its wait is open and its task is not cancelled. -/
def claimable (peers : Peers V) (waiter : Waiter V) : Bool :=
  (peers.token waiter.token).claim peers.flags

/-- Add to the log. -/
def note (peers : Peers V) (event : Event V) : Peers V :=
  { peers with log := peers.log ++ [event] }

/-- Add to the log how a call on a channel was completed at once, if it was. -/
def noteReturn (peers : Peers V) (chan : ChanId) (caller : Option (TokenId × Nat))
    (payload : Option V) : Option (Outcome V) → Peers V
  | none => peers
  | some outcome => peers.note (.returned chan caller outcome payload)

/-- Complete the arm of a claimed waiter with `outcome`. -/
def fire (peers : Peers V) (place : Place) (waiter : Waiter V) (outcome : Outcome V) : Peers V :=
  { peers with
    token := Function.update peers.token waiter.token
      ((peers.token waiter.token).fire (.arm waiter.arm outcome))
    wakes := peers.wakes ++ (peers.token waiter.token).wakes
    log := peers.log ++ [.fired place waiter outcome] }

/-- Take waiters off the front of a queue up to the first that can be claimed: that one, if there
is one, and what is left of the queue. -/
def popClaimable (peers : Peers V) : List (Waiter V) → Option (Waiter V) × List (Waiter V)
  | [] => (none, [])
  | waiter :: queue =>
    if peers.claimable waiter then (some waiter, queue) else peers.popClaimable queue

/-- Complete the arm of every waiter of a queue that can be claimed when its turn comes. -/
def fireAll (peers : Peers V) (place : Place) (outcome : Outcome V) : List (Waiter V) → Peers V
  | [] => peers
  | waiter :: queue =>
    if peers.claimable waiter then (peers.fire place waiter outcome).fireAll place outcome queue
    else peers.fireAll place outcome queue

/-- End the open wait of `token` with `result`, waking its task if it is parked and `wake` holds. -/
def endWait (peers : Peers V) (token : TokenId) (ended : Token V) (result : Resumed V)
    (wake : Bool) : Peers V :=
  { peers with
    token := Function.update peers.token token ended
    wakes := if wake then peers.wakes ++ (peers.token token).wakes else peers.wakes
    log := peers.log ++ [.ended token result] }

/-- The timer ends a wait at its deadline, if it can be claimed. -/
def timeOut (peers : Peers V) (token : TokenId) : Peers V :=
  if (peers.token token).claim peers.flags then
    peers.endWait token ((peers.token token).fire .deadline) (.fired .deadline) true
  else peers

/-- The timer ends a wait at the deadline of its task, if it can be claimed. -/
def expire (peers : Peers V) (token : TokenId) : Peers V :=
  if (peers.token token).claim peers.flags then
    peers.endWait token (peers.token token).expire .expired true
  else peers

/-- The wait is ended by a cancel of its task. -/
def cancel (peers : Peers V) (token : TokenId) : Peers V :=
  if (peers.token token).cancel.2 then
    peers.endWait token (peers.token token).cancel.1 .cancelled true
  else peers

/-- The wait is ended because its task is gone. -/
def abandon (peers : Peers V) (token : TokenId) : Peers V :=
  if (peers.token token).state.isWaiting then
    peers.endWait token (peers.token token).abandon .cancelled false
  else peers

/-- The worker gives the task of the wait up. -/
def commit (peers : Peers V) (token : TokenId) : Peers V :=
  { peers with token := Function.update peers.token token (peers.token token).commit.1 }

/-- Set a cancel flag. -/
def setFlag (peers : Peers V) (flag : FlagId) : Peers V :=
  { peers with flags := Function.update peers.flags flag true }

theorem not_claimable_fire_self (peers : Peers V) (place : Place) {waiter' : Waiter V}
    (outcome : Outcome V) (h : waiter'.token = waiter.token) :
    (peers.fire place waiter outcome).claimable waiter' = false := by
  simp [claimable, fire, h, Token.claim, Token.fire, TokenState.isWaiting]

theorem claimable_fire_of_ne (peers : Peers V) (place : Place) {waiter' : Waiter V}
    (outcome : Outcome V) (h : waiter'.token ≠ waiter.token) :
    (peers.fire place waiter outcome).claimable waiter' = peers.claimable waiter' := by
  simp [claimable, fire, h]

/-- What an operation on the peers does to the claimable waiters: it makes none claimable. -/
def Fewer (peers' peers : Peers V) : Prop :=
  ∀ waiter, peers'.claimable waiter → peers.claimable waiter

theorem Fewer.refl (peers : Peers V) : Fewer peers peers := fun _ h => h

theorem Fewer.trans {p₁ p₂ p₃ : Peers V} (h : Fewer p₁ p₂) (h' : Fewer p₂ p₃) : Fewer p₁ p₃ :=
  fun waiter hw => h' waiter (h waiter hw)

theorem fewer_note (peers : Peers V) (event : Event V) : Fewer (peers.note event) peers :=
  fun _ h => h

theorem fewer_noteReturn (peers : Peers V) (chan : ChanId) (caller : Option (TokenId × Nat))
    (payload : Option V) (outcome : Option (Outcome V)) :
    Fewer (peers.noteReturn chan caller payload outcome) peers := by
  cases outcome with
  | none => exact Fewer.refl peers
  | some outcome => exact fewer_note peers _

theorem fewer_fire (peers : Peers V) (place : Place) (waiter : Waiter V) (outcome : Outcome V) :
    Fewer (peers.fire place waiter outcome) peers := by
  intro waiter' h
  by_cases ht : waiter'.token = waiter.token
  · rw [not_claimable_fire_self peers place outcome ht] at h
    exact absurd h Bool.false_ne_true
  · rwa [claimable_fire_of_ne peers place outcome ht] at h

/-- `peers'` is left by completing arms, one after another, of waiters that can be claimed when
their turn comes; `allowed` says where, of which waiters and with what outcomes. -/
inductive Fires (allowed : Place → Waiter V → Outcome V → Prop) (peers : Peers V) : Peers V → Prop
  | refl : Fires allowed peers peers
  | fire {peers' place waiter outcome} (hfires : Fires allowed peers peers')
      (hallowed : allowed place waiter outcome) (hclaim : peers'.claimable waiter) :
      Fires allowed peers (peers'.fire place waiter outcome)

section Fires

variable {peers peers' : Peers V}

variable {allowed allowed' : Place → Waiter V → Outcome V → Prop}

theorem Fires.trans {p₁ p₂ p₃ : Peers V} (h : Fires allowed p₁ p₂) (h' : Fires allowed p₂ p₃) :
    Fires allowed p₁ p₃ := by
  induction h' with
  | refl => exact h
  | fire _ ha hc ih => exact ih.fire ha hc

theorem Fires.mono (h : Fires allowed peers peers')
    (hm : ∀ place waiter outcome, allowed place waiter outcome → allowed' place waiter outcome) :
    Fires allowed' peers peers' := by
  induction h with
  | refl => exact .refl
  | fire _ ha hc ih => exact ih.fire (hm _ _ _ ha) hc

theorem Fires.fewer (h : Fires allowed peers peers') : Fewer peers' peers := by
  induction h with
  | refl => exact Fewer.refl peers
  | fire _ _ _ ih => exact (fewer_fire _ _ _ _).trans ih

theorem Fires.flags (h : Fires allowed peers peers') : peers'.flags = peers.flags := by
  induction h with
  | refl => rfl
  | fire _ _ _ ih => exact ih

theorem fires_fireAll (place : Place) (outcome : Outcome V) (queue : List (Waiter V))
    (peers : Peers V) (ha : ∀ waiter ∈ queue, allowed place waiter outcome) :
    Fires allowed peers (peers.fireAll place outcome queue) := by
  induction queue generalizing peers with
  | nil => exact .refl
  | cons waiter queue ih =>
    have hr := fun peers => ih peers fun w hw => ha w (List.mem_cons_of_mem _ hw)
    rw [fireAll]
    split_ifs with hc
    · exact (Fires.refl.fire (ha waiter List.mem_cons_self) hc).trans (hr _)
    · exact hr peers

end Fires

theorem fewer_endWait (peers : Peers V) (token : TokenId) {ended : Token V} (result : Resumed V)
    (wake : Bool) (h : ended.state.isWaiting = false) :
    Fewer (peers.endWait token ended result wake) peers := by
  intro waiter hc
  by_cases ht : waiter.token = token
  · simp [claimable, endWait, ht, Token.claim, h] at hc
  · simpa [claimable, endWait, ht] using hc

theorem claimable_commit (peers : Peers V) (token : TokenId) (waiter : Waiter V) :
    (peers.commit token).claimable waiter = peers.claimable waiter := by
  by_cases ht : waiter.token = token
  · simp only [claimable, commit, ht, Function.update_self, Token.claim, Token.commit]
    split <;> simp_all [TokenState.isWaiting]
  · simp [claimable, commit, ht]

theorem fewer_setFlag (peers : Peers V) (flag : FlagId) : Fewer (peers.setFlag flag) peers := by
  intro waiter hc
  simp only [claimable, Token.claim, setFlag, Bool.and_eq_true, Bool.not_eq_eq_eq_not,
    Bool.not_true] at hc ⊢
  refine ⟨?_, hc.2⟩
  cases hf : (peers.token waiter.token).cancelFlag with
  | none => rfl
  | some own =>
    have hs := hc.1
    simp only [hf, isSet, Function.update_apply] at hs ⊢
    split_ifs at hs
    exact hs

theorem popClaimable_some {peers : Peers V} {queue rest : List (Waiter V)}
    (h : peers.popClaimable queue = (some waiter, rest)) :
    peers.claimable waiter ∧ waiter ∈ queue ∧ rest ⊆ queue := by
  induction queue with
  | nil => simp [popClaimable] at h
  | cons first queue ih =>
    rw [popClaimable] at h
    grind

theorem popClaimable_none {peers : Peers V} {queue rest : List (Waiter V)}
    (h : peers.popClaimable queue = (none, rest)) :
    rest = [] ∧ ∀ waiter ∈ queue, peers.claimable waiter = false := by
  induction queue with
  | nil =>
    simp only [popClaimable, Prod.mk.injEq, true_and] at h
    exact ⟨h.symm, by simp⟩
  | cons first queue ih =>
    rw [popClaimable] at h
    grind

end Peers

end Silt.Sync

import Silt.Sync.Token

/-!
# A channel

A channel is a buffer, a queue of parked receivers, a queue of parked senders and a queue of the
feeders that wait to be asked for a value, behind one lock. The party that makes an operation
possible completes it under the lock. This file models `State` of `runtime/sync/channel.rs`: what
the operations do while the lock is held.

## Main definitions

* `Silt.Sync.State` and its operations `send`, `receive`, `demand`, `close`, `drain`, `forget`.
* `Silt.Sync.State.Rendezvous`: what links the buffer, the close and the queues.

## Main results

* `Silt.Sync.State.Rendezvous.send`, `Silt.Sync.State.Rendezvous.receive`, and their like for the
  other operations: each operation keeps `Rendezvous`.
-/

namespace Silt.Sync

open List

/-- The result of a send that does not wait. -/
inductive TrySend (V : Type) where
  | sent
  | full (value : V)
  | closed (close : Close)
  deriving DecidableEq, Repr

/-- The result of a receive that does not wait. -/
inductive TryReceive (V : Type) where
  | value (value : V)
  | empty
  | closed (close : Close)
  deriving DecidableEq, Repr

/-- How a send that does not wait was completed, if it was. -/
def TrySend.outcome {V : Type} : TrySend V → Option (Outcome V)
  | .sent => some .sent
  | .closed close => some (.closed close)
  | .full _ => none

/-- How a receive that does not wait was completed, if it was. -/
def TryReceive.outcome {V : Type} : TryReceive V → Option (Outcome V)
  | .value taken => some (.received taken)
  | .closed close => some (.closed close)
  | .empty => none

/-- What the lock of a channel guards, with the channel's id. -/
structure State (V : Type) where
  id : ChanId
  capacity : Nat
  buf : List V
  closed : Option Close
  recvq : List (Waiter V)
  sendq : List (Waiter V)
  demandq : List (Waiter V)
  asked : Bool
  draining : Bool
  ahead : Nat
  stale : Nat
  deriving DecidableEq, Repr

variable {V : Type}

namespace State

variable {state state' : State V} {peers peers' : Peers V} {waiter : Waiter V}

/-- A channel that buffers up to `capacity` values, of which its feeder may hold `ahead` without
being asked for them. -/
def fed (id : ChanId) (capacity ahead : Nat) : State V where
  id
  capacity
  buf := []
  closed := none
  recvq := []
  sendq := []
  demandq := []
  asked := false
  draining := false
  ahead
  stale := 0

/-- Send `value`: to the oldest receiver that can be claimed, else to the buffer. -/
def send (state : State V) (peers : Peers V) (value : V) : TrySend V × State V × Peers V :=
  match state.closed with
  | some close => (.closed close, state, peers)
  | none =>
    match peers.popClaimable state.recvq with
    | (some receiver, recvq) =>
      -- Another receiver that is parked still asks.
      (.sent, { state with recvq, asked := !recvq.isEmpty },
        peers.fire (.chan state.id) receiver (.received value))
    | (none, recvq) =>
      if state.buf.length < state.capacity then
        (.sent, { state with recvq, asked := false, buf := state.buf ++ [value] }, peers)
      else
        (.full value, { state with recvq, asked := false }, peers)

/-- How many values a feeder may hold in the buffer without being asked. -/
def room (state : State V) : Nat :=
  if state.draining then state.capacity else state.ahead

/-- What a feeder that waits to be asked for a value finds. -/
def demand (state : State V) : Option (Outcome V) :=
  match state.closed with
  | some close => some (.closed close)
  | none => if state.asked || state.buf.length < state.room then some .asked else none

theorem demand_eq_none :
    state.demand = none ↔
      state.closed = none ∧ state.asked = false ∧ ¬ state.buf.length < state.room := by
  rw [demand]
  cases state.closed with
  | some close | none => simp

/-- A reader asks, or room came free: every feeder that waits for that goes on. -/
def wakeFeeders (state : State V) (peers : Peers V) : State V × Peers V :=
  ({ state with demandq := [] }, peers.fireAll (.chan state.id) .asked state.demandq)

/-- Complete the send of the oldest parked sender whose wait is open, and give its value. -/
def takeFromSender (state : State V) (peers : Peers V) : Option V × State V × Peers V :=
  match peers.popClaimable state.sendq with
  | (some sender, sendq) =>
    (sender.payload, { state with sendq }, peers.fire (.chan state.id) sender .sent)
  | (none, sendq) => (none, { state with sendq }, peers)

/-- Take the oldest value: from the buffer, or from a parked sender. -/
def receive (state : State V) (peers : Peers V) : TryReceive V × State V × Peers V :=
  match state.buf with
  | value :: buf =>
    -- The place that came free goes to the oldest parked sender, else a feeder may use it.
    match ({ state with buf }).takeFromSender peers with
    | (some next, state, peers) => (.value value, { state with buf := buf ++ [next] }, peers)
    | (none, state, peers) =>
      if state.demand.isSome then (.value value, state.wakeFeeders peers)
      else (.value value, state, peers)
  | [] =>
    match state.takeFromSender peers with
    | (some value, state, peers) => (.value value, state, peers)
    | (none, state, peers) =>
      match state.closed with
      | some close => (.closed close, state, peers)
      -- A receive that finds nothing asks for a value, whether it waits for one or not.
      | none => (.empty, ({ state with asked := true }).wakeFeeders peers)

/-- Close the channel: every parked waiter learns it, the buffer stays. -/
def close (state : State V) (peers : Peers V) (close : Close) : Bool × State V × Peers V :=
  match state.closed with
  | some _ => (false, state, peers)
  | none =>
    (true, { state with sendq := [], recvq := [], demandq := [], closed := some close },
      peers.fireAll (.chan state.id) (.closed close) (state.sendq ++ state.recvq ++ state.demandq))

/-- The reader of the channel reads it to the end: its feeder may fill the buffer unasked. -/
def drain (state : State V) (peers : Peers V) : State V × Peers V :=
  if state.draining then (state, peers)
  else
    let state := { state with draining := true }
    if state.demand.isSome then state.wakeFeeders peers else (state, peers)

/-- Up to this many waiters, a queue is searched by `forget`. -/
def short : Nat := 32

/-- The number of waiters on the three queues. -/
def queued (state : State V) : Nat :=
  state.recvq.length + state.sendq.length + state.demandq.length

/-- Keep of the three queues the waiters that pass `keep`. -/
def retain (state : State V) (keep : Waiter V → Bool) : State V :=
  { state with
    recvq := state.recvq.filter keep
    sendq := state.sendq.filter keep
    demandq := state.demandq.filter keep }

/-- The wait of `token` has ended otherwise than by an operation on this channel: its waiters here
are of no use any more. On long queues they stay until they are half of what is queued. -/
def forget (state : State V) (peers : Peers V) (token : TokenId) : State V :=
  if state.queued ≤ short then state.retain fun waiter => waiter.token != token
  else
    let stale := state.stale + 1
    if stale * 2 ≥ state.queued then
      { state.retain fun waiter => (peers.token waiter.token).state.isWaiting with stale := 0 }
    else { state with stale }

/-! ### What each operation can do -/

/-- The four ways a send goes. -/
inductive SendSpec (state : State V) (peers : Peers V) (value : V) :
    TrySend V → State V → Peers V → Prop
  | closed {close} (hclosed : state.closed = some close) :
      SendSpec state peers value (.closed close) state peers
  | handed {receiver recvq} (hopen : state.closed = none) (hmem : receiver ∈ state.recvq)
      (hclaim : peers.claimable receiver) (hrest : recvq ⊆ state.recvq) :
      SendSpec state peers value .sent { state with recvq, asked := !recvq.isEmpty }
        (peers.fire (.chan state.id) receiver (.received value))
  | buffered (hopen : state.closed = none)
      (hnone : ∀ waiter ∈ state.recvq, peers.claimable waiter = false)
      (hroom : state.buf.length < state.capacity) :
      SendSpec state peers value .sent
        { state with recvq := [], asked := false, buf := state.buf ++ [value] } peers
  | full (hopen : state.closed = none)
      (hnone : ∀ waiter ∈ state.recvq, peers.claimable waiter = false)
      (hfull : ¬ state.buf.length < state.capacity) :
      SendSpec state peers value (.full value) { state with recvq := [], asked := false } peers

theorem send_spec {value : V} {result : TrySend V}
    (h : state.send peers value = (result, state', peers')) :
    SendSpec state peers value result state' peers' := by
  rw [send] at h
  split at h
  next close hcl =>
    cases h
    exact .closed hcl
  next ho =>
    split at h
    next receiver recvq hp =>
      cases h
      obtain ⟨hc, hmem, hrs⟩ := Peers.popClaimable_some hp
      exact .handed ho hmem hc hrs
    next recvq hp =>
      obtain ⟨rfl, hn⟩ := Peers.popClaimable_none hp
      split_ifs at h with hr
      · cases h
        exact .buffered ho hn hr
      · cases h
        exact .full ho hn hr

/-- The two ways `takeFromSender` goes. -/
inductive TakeSpec (state : State V) (peers : Peers V) : Option V → State V → Peers V → Prop
  | taken {sender sendq} (hmem : sender ∈ state.sendq) (hclaim : peers.claimable sender)
      (hrest : sendq ⊆ state.sendq) :
      TakeSpec state peers sender.payload { state with sendq }
        (peers.fire (.chan state.id) sender .sent)
  | nobody (hnone : ∀ waiter ∈ state.sendq, peers.claimable waiter = false) :
      TakeSpec state peers none { state with sendq := [] } peers

theorem takeFromSender_spec {value : Option V}
    (h : state.takeFromSender peers = (value, state', peers')) :
    TakeSpec state peers value state' peers' := by
  rw [takeFromSender] at h
  split at h
  next sender sendq hp =>
    cases h
    obtain ⟨hc, hmem, hr⟩ := Peers.popClaimable_some hp
    exact .taken hmem hc hr
  next sendq hp =>
    cases h
    obtain ⟨rfl, hn⟩ := Peers.popClaimable_none hp
    exact .nobody hn

/-- The six ways a receive goes, on a channel whose parked senders hold their values. -/
inductive ReceiveSpec (state : State V) (peers : Peers V) :
    TryReceive V → State V → Peers V → Prop
  | refilled {value buf sender sendq next} (hbuf : state.buf = value :: buf)
      (hmem : sender ∈ state.sendq) (hclaim : peers.claimable sender)
      (hpayload : sender.payload = some next) (hrest : sendq ⊆ state.sendq) :
      ReceiveSpec state peers (.value value) { state with sendq, buf := buf ++ [next] }
        (peers.fire (.chan state.id) sender .sent)
  | freed {value buf} (hbuf : state.buf = value :: buf)
      (hnone : ∀ waiter ∈ state.sendq, peers.claimable waiter = false)
      (hdemand : ({ state with buf, sendq := [] }).demand.isSome) :
      ReceiveSpec state peers (.value value) { state with buf, sendq := [], demandq := [] }
        (peers.fireAll (.chan state.id) .asked state.demandq)
  | left {value buf} (hbuf : state.buf = value :: buf)
      (hnone : ∀ waiter ∈ state.sendq, peers.claimable waiter = false)
      (hdemand : ({ state with buf, sendq := [] }).demand = none) :
      ReceiveSpec state peers (.value value) { state with buf, sendq := [] } peers
  | handed {sender sendq value} (hbuf : state.buf = []) (hmem : sender ∈ state.sendq)
      (hclaim : peers.claimable sender) (hpayload : sender.payload = some value)
      (hrest : sendq ⊆ state.sendq) :
      ReceiveSpec state peers (.value value) { state with sendq }
        (peers.fire (.chan state.id) sender .sent)
  | closed {close} (hbuf : state.buf = [])
      (hnone : ∀ waiter ∈ state.sendq, peers.claimable waiter = false)
      (hclosed : state.closed = some close) :
      ReceiveSpec state peers (.closed close) { state with sendq := [] } peers
  | empty (hbuf : state.buf = [])
      (hnone : ∀ waiter ∈ state.sendq, peers.claimable waiter = false)
      (hopen : state.closed = none) :
      ReceiveSpec state peers .empty { state with sendq := [], asked := true, demandq := [] }
        (peers.fireAll (.chan state.id) .asked state.demandq)

theorem receive_spec {result : TryReceive V} (hp : ∀ sender ∈ state.sendq, sender.payload.isSome)
    (h : state.receive peers = (result, state', peers')) :
    ReceiveSpec state peers result state' peers' := by
  rw [receive] at h
  split at h
  next value buf hbuf =>
    split at h
    next next' state₁ peers₁ ht =>
      cases h
      generalize hn : some next' = taken at ht
      cases takeFromSender_spec ht with
      | taken hmem hc hr => exact .refilled hbuf hmem hc hn.symm hr
      | nobody hnn => exact absurd hn (by simp)
    next state₁ peers₁ ht =>
      generalize hn : none = taken at ht
      cases takeFromSender_spec ht with
      | taken hmem hc hr => grind
      | nobody hnn =>
        split_ifs at h with hd
        · cases h
          exact .freed hbuf hnn hd
        · cases h
          exact .left hbuf hnn (by simpa using hd)
  next hbuf =>
    split at h
    next value state₁ peers₁ ht =>
      cases h
      generalize hv : some value = taken at ht
      cases takeFromSender_spec ht with
      | taken hmem hc hr => exact .handed hbuf hmem hc hv.symm hr
      | nobody hnn => exact absurd hv (by simp)
    next state₁ peers₁ ht =>
      generalize hv : none = taken at ht
      cases takeFromSender_spec ht with
      | taken hmem hc hr => grind
      | nobody hnn =>
        split at h
        next close hcl =>
          cases h
          exact .closed hbuf hnn hcl
        next ho =>
          cases h
          exact .empty hbuf hnn ho

/-- What an operation on a channel leaves as it was, and the queues, which lose waiters only. -/
structure Shrinks (state' state : State V) : Prop where
  id : state'.id = state.id
  capacity : state'.capacity = state.capacity
  ahead : state'.ahead = state.ahead
  recvq : state'.recvq ⊆ state.recvq
  sendq : state'.sendq ⊆ state.sendq
  demandq : state'.demandq ⊆ state.demandq

theorem Shrinks.refl (state : State V) : Shrinks state state :=
  ⟨rfl, rfl, rfl, List.Subset.refl _, List.Subset.refl _, List.Subset.refl _⟩

theorem Shrinks.trans {s₁ s₂ s₃ : State V} (h : Shrinks s₁ s₂) (h' : Shrinks s₂ s₃) :
    Shrinks s₁ s₃ :=
  ⟨h.id.trans h'.id, h.capacity.trans h'.capacity, h.ahead.trans h'.ahead,
    List.Subset.trans h.recvq h'.recvq, List.Subset.trans h.sendq h'.sendq,
    List.Subset.trans h.demandq h'.demandq⟩

/-- The waiters of the channel. -/
def queues (state : State V) : List (Waiter V) :=
  state.recvq ++ state.sendq ++ state.demandq

theorem mem_queues_of_recvq (h : waiter ∈ state.recvq) : waiter ∈ state.queues :=
  mem_append_left _ (mem_append_left _ h)

theorem mem_queues_of_sendq (h : waiter ∈ state.sendq) : waiter ∈ state.queues :=
  mem_append_left _ (mem_append_right _ h)

theorem mem_queues_of_demandq (h : waiter ∈ state.demandq) : waiter ∈ state.queues :=
  mem_append_right _ h

/-- The arms an operation on the channel may complete: those queued there. -/
def Fireable (state : State V) (place : Place) (waiter : Waiter V) (_ : Outcome V) : Prop :=
  place = .chan state.id ∧ waiter ∈ state.queues

theorem SendSpec.shrinks {value : V} {result : TrySend V}
    (h : SendSpec state peers value result state' peers') :
    Shrinks state' state ∧ peers.Fires state.Fireable peers' := by
  cases h with
  | closed => exact ⟨.refl _, .refl⟩
  | handed _ hmem hc hr =>
    exact ⟨⟨rfl, rfl, rfl, hr, List.Subset.refl _, List.Subset.refl _⟩,
      .fire .refl ⟨rfl, mem_queues_of_recvq hmem⟩ hc⟩
  | buffered | full =>
    exact ⟨⟨rfl, rfl, rfl, nil_subset _, List.Subset.refl _, List.Subset.refl _⟩, .refl⟩

theorem ReceiveSpec.shrinks {result : TryReceive V}
    (h : ReceiveSpec state peers result state' peers') :
    Shrinks state' state ∧ peers.Fires state.Fireable peers' := by
  cases h with
  | refilled _ hmem hc _ hr | handed _ hmem hc _ hr =>
    exact ⟨⟨rfl, rfl, rfl, List.Subset.refl _, hr, List.Subset.refl _⟩,
      .fire .refl ⟨rfl, mem_queues_of_sendq hmem⟩ hc⟩
  | freed | empty =>
    exact ⟨⟨rfl, rfl, rfl, List.Subset.refl _, nil_subset _, nil_subset _⟩,
      Peers.fires_fireAll _ _ _ _ fun _ hw => ⟨rfl, mem_queues_of_demandq hw⟩⟩
  | left | closed =>
    exact ⟨⟨rfl, rfl, rfl, List.Subset.refl _, nil_subset _, List.Subset.refl _⟩, .refl⟩

theorem shrinks_close (state : State V) (peers : Peers V) (how : Close) :
    Shrinks (state.close peers how).2.1 state ∧
      peers.Fires state.Fireable (state.close peers how).2.2 := by
  rw [close]
  split
  · exact ⟨.refl _, .refl⟩
  · refine ⟨⟨rfl, rfl, rfl, nil_subset _, nil_subset _, nil_subset _⟩,
      Peers.fires_fireAll _ _ _ _ fun waiter hw => ⟨rfl, ?_⟩⟩
    simp only [mem_append, queues] at hw ⊢
    tauto

theorem shrinks_drain (state : State V) (peers : Peers V) :
    Shrinks (state.drain peers).1 state ∧ peers.Fires state.Fireable (state.drain peers).2 := by
  simp only [drain]
  split_ifs
  · exact ⟨.refl _, .refl⟩
  · exact ⟨⟨rfl, rfl, rfl, List.Subset.refl _, List.Subset.refl _, nil_subset _⟩,
      Peers.fires_fireAll _ _ _ _ fun _ hw => ⟨rfl, mem_queues_of_demandq hw⟩⟩
  · exact ⟨⟨rfl, rfl, rfl, List.Subset.refl _, List.Subset.refl _, List.Subset.refl _⟩, .refl⟩

theorem shrinks_retain (state : State V) (keep : Waiter V → Bool) :
    Shrinks (state.retain keep) state :=
  ⟨rfl, rfl, rfl, filter_sublist.subset, filter_sublist.subset, filter_sublist.subset⟩

/-- `forget` touches the queues and the count of stale waiters only. -/
theorem forget_eq (state : State V) (peers : Peers V) (token : TokenId) :
    ∃ keep stale, state.forget peers token = { state.retain keep with stale } := by
  simp only [forget]
  split_ifs
  · exact ⟨fun waiter => waiter.token != token, state.stale, rfl⟩
  · grind
  · have ha (queue : List (Waiter V)) : queue.filter (fun _ => true) = queue :=
      filter_eq_self.mpr fun _ _ => rfl
    exact ⟨fun _ => true, state.stale + 1, by simp only [retain, ha]⟩

theorem shrinks_forget (state : State V) (peers : Peers V) (token : TokenId) :
    Shrinks (state.forget peers token) state := by
  obtain ⟨keep, stale, h⟩ := state.forget_eq peers token
  have hr := shrinks_retain state keep
  rw [h]
  exact ⟨hr.id, hr.capacity, hr.ahead, hr.recvq, hr.sendq, hr.demandq⟩

/-! ### The rendezvous invariant -/

/-- What links the buffer, the close and the queues of a channel: a receiver that can be claimed
waits beside an open channel with an empty buffer and no sender of another wait, a sender that can
be claimed beside an open channel with a full buffer, and nobody that can be claimed waits on a
closed channel. -/
structure Rendezvous (state : State V) (peers : Peers V) : Prop where
  receiver : ∀ waiter ∈ state.recvq, peers.claimable waiter →
    state.closed = none ∧ state.buf = [] ∧
      ∀ sender ∈ state.sendq, peers.claimable sender → sender.token = waiter.token
  sender : ∀ waiter ∈ state.sendq, peers.claimable waiter →
    state.closed = none ∧ state.buf.length = state.capacity
  feeder : ∀ waiter ∈ state.demandq, peers.claimable waiter → state.closed = none
  buf_le : state.buf.length ≤ state.capacity

theorem rendezvous_fed (id : ChanId) (capacity ahead : Nat) (peers : Peers V) :
    Rendezvous (fed id capacity ahead) peers where
  receiver := by simp [fed]
  sender := by simp [fed]
  feeder := by simp [fed]
  buf_le := by simp [fed]

namespace Rendezvous

variable {state state' : State V} {peers peers' : Peers V}

/-- The invariant is kept when waiters leave the queues and claimable ones get fewer. -/
theorem mono (h : Rendezvous state peers) (hf : Peers.Fewer peers' peers)
    (hsh : Shrinks state' state) (hcl : state'.closed = state.closed)
    (hbuf : state'.buf = state.buf) : Rendezvous state' peers' where
  receiver waiter hw hc := by
    obtain ⟨ho, he, ha⟩ := h.receiver waiter (hsh.recvq hw) (hf _ hc)
    exact ⟨hcl.trans ho, hbuf.trans he, fun sender hs hc' => ha sender (hsh.sendq hs) (hf _ hc')⟩
  sender waiter hw hc := by
    rw [hcl, hbuf, hsh.capacity]
    exact h.sender waiter (hsh.sendq hw) (hf _ hc)
  feeder waiter hw hc := by
    rw [hcl]
    exact h.feeder waiter (hsh.demandq hw) (hf _ hc)
  buf_le := by rw [hbuf, hsh.capacity]; exact h.buf_le

/-- A channel with a value in its buffer has no receiver that can be claimed. -/
theorem not_claimable_of_buf {value : V} {buf : List V} (h : Rendezvous state peers)
    (hbuf : state.buf = value :: buf) : ∀ waiter ∈ state.recvq, ¬ peers.claimable waiter := by
  intro waiter hw hc
  obtain ⟨-, he, -⟩ := h.receiver waiter hw hc
  exact absurd (hbuf.symm.trans he) (by simp)

theorem send {value : V} {result : TrySend V} (h : Rendezvous state peers)
    (hs : SendSpec state peers value result state' peers') : Rendezvous state' peers' := by
  obtain ⟨hsh, hf⟩ := hs.shrinks
  have hfw := hf.fewer
  cases hs with
  | closed | handed | full => exact h.mono hfw hsh rfl rfl
  | buffered ho hn hr =>
    refine ⟨by simp, fun waiter hw hc => ?_, h.feeder, ?_⟩
    · have hfl := (h.sender waiter hw hc).2
      omega
    · simp only [length_append, length_cons, length_nil]
      omega

theorem receive {result : TryReceive V} (h : Rendezvous state peers)
    (hr : ReceiveSpec state peers result state' peers') : Rendezvous state' peers' := by
  obtain ⟨hs, hfr⟩ := hr.shrinks
  have hf := hfr.fewer
  cases hr with
  | handed | closed | empty => exact h.mono hf hs rfl rfl
  | @refilled value buf sender sendq next hbuf hmem hcl hp hrs =>
    have hl : (buf ++ [next]).length = state.buf.length := by simp [hbuf]
    refine ⟨fun waiter hw hc => ?_, fun waiter hw hc => ?_,
      fun waiter hw hc => h.feeder waiter hw (hf _ hc), ?_⟩
    · exact absurd (hf _ hc) (h.not_claimable_of_buf hbuf waiter hw)
    · obtain ⟨ho, hfl⟩ := h.sender waiter (hrs hw) (hf _ hc)
      exact ⟨ho, hl.trans hfl⟩
    · exact Nat.le_trans (Nat.le_of_eq hl) h.buf_le
  | @freed value buf hbuf hn hd =>
    refine ⟨fun waiter hw hc => ?_, by simp, by simp, ?_⟩
    · exact absurd (hf _ hc) (h.not_claimable_of_buf hbuf waiter hw)
    · have hle := h.buf_le
      grind
  | @left value buf hbuf hn hd =>
    refine ⟨fun waiter hw hc => ?_, by simp, h.feeder, ?_⟩
    · exact absurd hc (h.not_claimable_of_buf hbuf waiter hw)
    · have hle := h.buf_le
      grind

theorem close (h : Rendezvous state peers) (how : Close) :
    Rendezvous (state.close peers how).2.1 (state.close peers how).2.2 := by
  rw [State.close]
  split
  · exact h
  · exact ⟨by simp, by simp, by simp, h.buf_le⟩

theorem drain (h : Rendezvous state peers) :
    Rendezvous (state.drain peers).1 (state.drain peers).2 := by
  obtain ⟨hs, hf⟩ := shrinks_drain state peers
  refine h.mono hf.fewer hs ?_ ?_
  · simp only [State.drain]
    split_ifs <;> rfl
  · simp only [State.drain]
    split_ifs <;> rfl

theorem forget (h : Rendezvous state peers) (token : TokenId) :
    Rendezvous (state.forget peers token) peers := by
  refine h.mono (Peers.Fewer.refl _) (shrinks_forget state peers token) ?_ ?_
  · obtain ⟨keep, stale, heq⟩ := state.forget_eq peers token
    rw [heq]
    rfl
  · obtain ⟨keep, stale, heq⟩ := state.forget_eq peers token
    rw [heq]
    rfl

end Rendezvous

end State

end Silt.Sync

import Silt.Sync.Wait

/-!
# What a park can do

A park tries its arms one after another under the locks of all its channels. An arm that cannot be
completed leaves the buffers as they are and takes waiters off queues that nobody can claim; a
receive that finds nothing asks, and completes the arms of feeders. So a park is a stretch of
trials that come to nothing, and then a trial that completes an arm, or the end of the wait without
one, or the new waiters on the queues.

## Main definitions

* `Silt.Sync.Locked.Quiet`: what trials that come to nothing leave.
* `Silt.Sync.Locked.Blocked`: why an arm could not be completed.
* `Silt.Sync.Locked.ParkSpec`: the ways a park goes.

## Main results

* `Silt.Sync.Locked.park_spec`: a park goes in one of these ways.
-/

namespace Silt.Sync

open List Function

variable {V : Type}

/-- An operation that hands nothing over: what it leaves of a channel. -/
structure State.Still (state' state : State V) : Prop extends State.Shrinks state' state where
  buf : state'.buf = state.buf
  closed : state'.closed = state.closed
  draining : state'.draining = state.draining

namespace State

theorem Still.refl (state : State V) : Still state state :=
  { Shrinks.refl state with buf := rfl, closed := rfl, draining := rfl }

theorem Still.trans {s₁ s₂ s₃ : State V} (h : Still s₁ s₂) (h' : Still s₂ s₃) : Still s₁ s₃ :=
  { h.toShrinks.trans h'.toShrinks with
    buf := h.buf.trans h'.buf
    closed := h.closed.trans h'.closed
    draining := h.draining.trans h'.draining }

variable {state' state : State V}

theorem Shrinks.queues (h : Shrinks state' state) :
    state'.queues ⊆ state.queues := by
  intro w hw
  simp only [State.queues, mem_append] at hw ⊢
  exact hw.imp (Or.imp (fun hw => h.recvq hw) fun hw => h.sendq hw) fun hw => h.demandq hw

theorem Still.room (h : Still state' state) :
    state'.room = state.room := by
  rw [State.room, State.room, h.draining, h.capacity, h.ahead]

end State

/-- What trying the arm does to the flag by which the channel `id` asks, when the arm cannot be
completed. -/
def Arm.asks (id : ChanId) (asked : Bool) : Arm V → Bool
  | .recv chan => if chan = id then true else asked
  | .send chan _ => if chan = id then false else asked
  | .cell _ | .demand _ => asked

/-- What trying the arms in that order does to the flag by which the channel `id` asks, when none
can be completed. -/
def asksAfter (id : ChanId) (arms : List (Arm V)) : Bool → List Nat → Bool
  | asked, [] => asked
  | asked, index :: order =>
    match arms[index]? with
    | none => asksAfter id arms asked order
    | some arm => asksAfter id arms (arm.asks id asked) order

variable {arms : List (Arm V)}

/-- Without a receive from the channel it does not begin to ask. -/
theorem asksAfter_eq_false {id : ChanId} (hr : .recv id ∉ arms)
    (order : List Nat) : asksAfter id arms false order = false := by
  induction order with
  | nil => rfl
  | cons index order ih =>
    rw [asksAfter]
    split
    · exact ih
    next arm harm =>
      have hne : arm ≠ .recv id := fun heq => hr (heq ▸ mem_of_getElem? harm)
      have ha : arm.asks id false = false := by
        cases arm with
        | recv chan => exact if_neg fun heq => hne (by rw [heq])
        | send chan value => exact ite_self _
        | cell | demand => rfl
      rw [ha, ih]

/-- Without a send to the channel it does not cease to ask. -/
theorem asksAfter_eq_true {id : ChanId} (hs : ∀ value, .send id value ∉ arms)
    (order : List Nat) : asksAfter id arms true order = true := by
  induction order with
  | nil => rfl
  | cons index order ih =>
    rw [asksAfter]
    split
    · exact ih
    next arm harm =>
      have hne (value : V) : arm ≠ .send id value :=
        fun heq => hs value (heq ▸ mem_of_getElem? harm)
      have ha : arm.asks id true = true := by
        cases arm with
        | recv chan => exact ite_self _
        | send chan value => exact if_neg fun heq => hne value (by rw [heq])
        | cell | demand => rfl
      rw [ha, ih]

/-- A channel that a receive was tried on and no send asks. -/
theorem asksAfter_of_recv {id : ChanId} (hs : ∀ value, .send id value ∉ arms)
    {index : Nat} (harm : arms[index]? = some (.recv id)) {order : List Nat} (hi : index ∈ order)
    (asked : Bool) : asksAfter id arms asked order = true := by
  induction order generalizing asked with
  | nil => simp at hi
  | cons other order ih =>
    rw [asksAfter]
    rcases mem_cons.mp hi with rfl | hi
    · simp only [harm, Arm.asks, if_true]
      exact asksAfter_eq_true hs order
    · split
      · exact ih hi asked
      · exact ih hi _

theorem mem_tryOrder {first count index : Nat} (h : index < count) :
    index ∈ tryOrder first count := by
  have hc : 0 < count := by omega
  have hf : first % count < count := Nat.mod_lt _ hc
  rw [tryOrder, mem_map]
  by_cases hle : first % count ≤ index
  · refine ⟨index - first % count, mem_range.mpr (by omega), ?_⟩
    rw [Nat.add_mod, Nat.mod_eq_of_lt (by omega : index - first % count < count),
      Nat.add_sub_cancel' hle, Nat.mod_eq_of_lt h]
  · refine ⟨index + count - first % count, mem_range.mpr (by omega), ?_⟩
    rw [Nat.add_mod, Nat.mod_eq_of_lt (by omega : index + count - first % count < count),
      Nat.add_sub_cancel' (by omega), Nat.add_mod_right, Nat.mod_eq_of_lt h]

namespace Locked

/-- The arms of feeders, which are completed when a reader asks. -/
def Asked (locked : Locked V) (place : Place) (waiter : Waiter V) (outcome : Outcome V) : Prop :=
  outcome = .asked ∧ ∃ id, (locked.chan id).Fireable place waiter outcome

/-- What trials that come to nothing leave. A channel that asks now and did not before has no feeder
that can be claimed, and one that asks no more has no receiver that can. -/
structure Quiet (locked locked' : Locked V) : Prop where
  still : ∀ id, (locked'.chan id).Still (locked.chan id)
  fires : locked.peers.Fires locked.Asked locked'.peers
  asked : ∀ id, (locked'.chan id).asked = (locked.chan id).asked ∨
    ((locked'.chan id).asked = true ∧
      ∀ feeder ∈ (locked'.chan id).demandq, locked'.peers.claimable feeder = false) ∨
    ((locked'.chan id).asked = false ∧
      ∀ receiver ∈ (locked'.chan id).recvq, locked'.peers.claimable receiver = false)

/-- Every parked sender holds its value. -/
def Paid (locked : Locked V) : Prop :=
  ∀ id, ∀ sender ∈ (locked.chan id).sendq, sender.payload.isSome

/-- Why an arm on that source could not be completed. -/
def Blocked (locked : Locked V) : Source → Prop
  | .recv id =>
    (locked.chan id).closed = none ∧ (locked.chan id).buf = [] ∧
      ∀ sender ∈ (locked.chan id).sendq, locked.peers.claimable sender = false
  | .send id =>
    (locked.chan id).closed = none ∧ ¬ (locked.chan id).buf.length < (locked.chan id).capacity ∧
      ∀ receiver ∈ (locked.chan id).recvq, locked.peers.claimable receiver = false
  | .demand id =>
    (locked.chan id).closed = none ∧ ¬ (locked.chan id).buf.length < (locked.chan id).room
  | .cell _ => True

theorem Quiet.refl (locked : Locked V) : Quiet locked locked :=
  ⟨fun _ => State.Still.refl _, .refl, fun _ => .inl rfl⟩

variable {locked locked' : Locked V}

theorem Quiet.fewer (h : Quiet locked locked') :
    locked'.peers.Fewer locked.peers :=
  h.fires.fewer

theorem Quiet.paid (h : Quiet locked locked') (hp : locked.Paid) :
    locked'.Paid :=
  fun id sender hs => hp id sender ((h.still id).sendq hs)

theorem Quiet.not_claimable (h : Quiet locked locked')
    {w : Waiter V} (hw : locked.peers.claimable w = false) :
    locked'.peers.claimable w = false :=
  Bool.eq_false_iff.mpr fun hc => Bool.eq_false_iff.mp hw (h.fewer w hc)

theorem Quiet.trans {l₁ l₂ l₃ : Locked V} (h : Quiet l₁ l₂) (h' : Quiet l₂ l₃) : Quiet l₁ l₃ := by
  refine ⟨fun id => (h'.still id).trans (h.still id), h.fires.trans (h'.fires.mono ?_),
    fun id => ?_⟩
  · rintro place w outcome ⟨ha, id, hp, hm⟩
    exact ⟨ha, id, hp.trans (by rw [(h.still id).id]), (h.still id).queues hm⟩
  · rcases h'.asked id with ha' | ha'
    · rcases h.asked id with ha | ⟨ha, hn⟩ | ⟨ha, hn⟩
      · exact .inl (ha'.trans ha)
      · exact .inr (.inl ⟨ha'.trans ha,
          fun feeder hf => h'.not_claimable (hn feeder ((h'.still id).demandq hf))⟩)
      · exact .inr (.inr ⟨ha'.trans ha,
          fun receiver hr => h'.not_claimable (hn receiver ((h'.still id).recvq hr))⟩)
    · exact .inr ha'

theorem Quiet.blocked (h : Quiet locked locked') {source : Source}
    (hb : locked.Blocked source) : locked'.Blocked source := by
  cases source with
  | recv id =>
    obtain ⟨ho, hbf, hn⟩ := hb
    exact ⟨(h.still id).closed.trans ho, (h.still id).buf.trans hbf,
      fun sender hs => h.not_claimable (hn sender ((h.still id).sendq hs))⟩
  | send id =>
    obtain ⟨ho, hf, hn⟩ := hb
    refine ⟨(h.still id).closed.trans ho, ?_,
      fun receiver hr => h.not_claimable (hn receiver ((h.still id).recvq hr))⟩
    rwa [(h.still id).buf, (h.still id).capacity]
  | demand id =>
    obtain ⟨ho, hf⟩ := hb
    refine ⟨(h.still id).closed.trans ho, ?_⟩
    rwa [(h.still id).buf, (h.still id).room]
  | cell id => trivial

theorem quiet_set {locked : Locked V} {id : ChanId} {state : State V} {peers : Peers V}
    (hs : state.Still (locked.chan id)) (hf : locked.peers.Fires locked.Asked peers)
    (ha : state.asked = true ∧ state.demandq = [] ∨ state.asked = false ∧ state.recvq = []) :
    Quiet locked (locked.set id state peers) := by
  refine ⟨fun other => ?_, hf, fun other => ?_⟩
  · by_cases h : other = id
    · subst h
      simpa only [set, update_self] using hs
    · simpa only [set, update_of_ne h] using State.Still.refl _
  · by_cases h : other = id
    · subst h
      refine .inr (ha.imp (fun ha => ?_) fun ha => ?_)
      · simp [set, ha]
      · simp [set, ha]
    · simp only [set, update_of_ne h, true_or]

@[simp]
theorem chan_set_self (locked : Locked V) (id : ChanId) (state : State V) (peers : Peers V) :
    (locked.set id state peers).chan id = state :=
  update_self ..

@[simp]
theorem peers_set (locked : Locked V) (id : ChanId) (state : State V) (peers : Peers V) :
    (locked.set id state peers).peers = peers :=
  rfl

theorem chan_set_of_ne (locked : Locked V) {id other : ChanId} (state : State V) (peers : Peers V)
    (h : other ≠ id) : (locked.set id state peers).chan other = locked.chan other :=
  update_of_ne h ..

variable {caller : Option (TokenId × Nat)}

theorem trySend_spec {id : ChanId}
    {value : V} {result : TrySend V} (h : locked.trySend caller id value = (result, locked')) :
    ∃ state peers, State.SendSpec (locked.chan id) locked.peers value result state peers ∧
      locked' = locked.set id state (peers.noteReturn id caller (some value) result.outcome) := by
  rw [trySend] at h
  split at h
  next result state peers hs =>
    cases h
    exact ⟨state, peers, State.send_spec hs, rfl⟩

theorem tryReceive_spec
    {id : ChanId} {result : TryReceive V} (hp : locked.Paid)
    (h : locked.tryReceive caller id = (result, locked')) :
    ∃ state peers, State.ReceiveSpec (locked.chan id) locked.peers result state peers ∧
      locked' = locked.set id state (peers.noteReturn id caller none result.outcome) := by
  rw [tryReceive] at h
  split at h
  next result state peers hr =>
    cases h
    exact ⟨state, peers, State.receive_spec (hp id) hr, rfl⟩

/-- How the trial of an arm completes it. -/
inductive Completes (locked : Locked V) (wait : TokenId) (index : Nat) :
    Arm V → Outcome V → Locked V → Prop
  | recv {id result state peers outcome}
      (hreceive : State.ReceiveSpec (locked.chan id) locked.peers result state peers)
      (houtcome : result.outcome = some outcome) :
      Completes locked wait index (.recv id) outcome
        (locked.set id state (peers.note (.returned id (some (wait, index)) outcome none)))
  | send {id value result state peers outcome}
      (hsend : State.SendSpec (locked.chan id) locked.peers value result state peers)
      (houtcome : result.outcome = some outcome) :
      Completes locked wait index (.send id value) outcome
        (locked.set id state (peers.note (.returned id (some (wait, index)) outcome (some value))))
  | demand {id outcome} (hdemand : (locked.chan id).demand = some outcome) :
      Completes locked wait index (.demand id) outcome locked
  | cell {id} : Completes locked wait index (.cell id) .done locked

theorem shrinks_set {locked : Locked V} {id : ChanId} {state : State V}
    (h : state.Shrinks (locked.chan id)) (peers : Peers V) (other : ChanId) :
    ((locked.set id state peers).chan other).Shrinks (locked.chan other) := by
  by_cases ho : other = id
  · subst ho
    rwa [chan_set_self]
  · rw [chan_set_of_ne _ _ _ ho]
    exact State.Shrinks.refl _

variable {wait : TokenId}

theorem Completes.shrinks {index : Nat} {arm : Arm V}
    {outcome : Outcome V} (h : Completes locked wait index arm outcome locked') (id : ChanId) :
    (locked'.chan id).Shrinks (locked.chan id) := by
  cases h with
  | recv hr => exact shrinks_set hr.shrinks.1 _ id
  | send hs => exact shrinks_set hs.shrinks.1 _ id
  | demand | cell => exact State.Shrinks.refl _

section tryArm

variable {locked locked' : Locked V} {wait : TokenId} {noTakes : Bool} {seen : CellId → Bool}

theorem tryArm_some {index : Nat} {arm : Arm V} {outcome : Outcome V} (hp : locked.Paid)
    (h : locked.tryArm wait noTakes seen index arm = (some outcome, locked')) :
    Completes locked wait index arm outcome locked' := by
  cases arm with
  | recv id =>
    cases ht : locked.tryReceive (some (wait, index)) id with
    | mk result left =>
      simp only [tryArm, ht] at h
      split_ifs at h
      · cases h
      · obtain ⟨ho, rfl⟩ := Prod.mk.inj h
        obtain ⟨state, peers, hr, rfl⟩ := tryReceive_spec hp ht
        rw [ho]
        exact .recv hr ho
  | send id value =>
    cases ht : locked.trySend (some (wait, index)) id value with
    | mk result left =>
      simp only [tryArm, ht] at h
      obtain ⟨ho, rfl⟩ := Prod.mk.inj h
      obtain ⟨state, peers, hs, rfl⟩ := trySend_spec ht
      rw [ho]
      exact .send hs ho
  | demand id =>
    rw [tryArm] at h
    split_ifs at h
    · cases h
    · obtain ⟨ho, rfl⟩ := Prod.mk.inj h
      exact .demand ho
  | cell id =>
    rw [tryArm] at h
    split_ifs at h
    · cases h
      exact .cell
    · cases h

variable {state : State V} {peers : Peers V}

/-- A receive that finds nothing leaves the buffers alone, asks, and is blocked. -/
theorem quiet_of_empty {id : ChanId}
    (h : State.ReceiveSpec (locked.chan id) locked.peers .empty state peers) :
    Quiet locked (locked.set id state peers) ∧ (locked.set id state peers).Blocked (.recv id) ∧
      state.asked = true := by
  cases h with
  | empty hb hn ho =>
    refine ⟨quiet_set ⟨⟨rfl, rfl, rfl, List.Subset.refl _, nil_subset _, nil_subset _⟩,
      rfl, rfl, rfl⟩ ?_ (.inl ⟨rfl, rfl⟩), ?_, rfl⟩
    · exact Peers.fires_fireAll _ _ _ _ fun _ hw => ⟨rfl, id, rfl, State.mem_queues_of_demandq hw⟩
    · simp [Blocked, hb, ho]

/-- A send that finds the channel full leaves the buffers alone, takes back what was asked, and is
blocked. -/
theorem quiet_of_full {id : ChanId} {value value' : V}
    (h : State.SendSpec (locked.chan id) locked.peers value (.full value') state peers) :
    Quiet locked (locked.set id state peers) ∧
      (locked.set id state peers).Blocked (.send id) ∧ state.asked = false := by
  cases h with
  | full ho hn hf =>
    refine ⟨quiet_set ⟨⟨rfl, rfl, rfl, nil_subset _, List.Subset.refl _,
      List.Subset.refl _⟩, rfl, rfl, rfl⟩ .refl (.inr ⟨rfl, rfl⟩), ?_, rfl⟩
    simpa [Blocked, ho] using hf

/-- The flag by which each channel asks, after a change to the channel `id`. -/
theorem asked_set (id : ChanId) {asked : Bool} (h : state.asked = asked) (other : ChanId) :
    ((locked.set id state peers).chan other).asked =
      if id = other then asked else (locked.chan other).asked := by
  by_cases ho : other = id
  · subst ho
    rw [chan_set_self, if_pos rfl, h]
  · rw [chan_set_of_ne _ _ _ ho, if_neg (Ne.symm ho)]

theorem tryArm_none {index : Nat} {arm : Arm V} (hp : locked.Paid)
    (h : locked.tryArm wait noTakes seen index arm = (none, locked')) :
    Quiet locked locked' ∧ (noTakes = false → locked'.Blocked arm.source ∧
      (∀ id, (locked'.chan id).asked = arm.asks id (locked.chan id).asked) ∧
      ∀ id, arm = .demand id → (locked'.chan id).asked = false) := by
  cases arm with
  | recv id =>
    cases ht : locked.tryReceive (some (wait, index)) id with
    | mk result left =>
      simp only [tryArm, ht] at h
      split_ifs at h with hno
      · cases h
        exact ⟨.refl _, fun hno' => absurd hno (by simp [hno'])⟩
      · obtain ⟨hot, rfl⟩ := Prod.mk.inj h
        obtain ⟨state, peers, hrc, rfl⟩ := tryReceive_spec hp ht
        cases result with
        | value | closed => cases hot
        | empty =>
          obtain ⟨hq, hb, ha⟩ := quiet_of_empty hrc
          exact ⟨hq, fun _ => ⟨hb, asked_set id ha, by simp⟩⟩
  | send id value =>
    cases ht : locked.trySend (some (wait, index)) id value with
    | mk result left =>
      simp only [tryArm, ht] at h
      obtain ⟨hot, rfl⟩ := Prod.mk.inj h
      obtain ⟨state, peers, hs, rfl⟩ := trySend_spec ht
      cases result with
      | sent | closed => cases hot
      | full value' =>
        obtain ⟨hq, hb, ha⟩ := quiet_of_full hs
        exact ⟨hq, fun _ => ⟨hb, asked_set id ha, by simp⟩⟩
  | demand id =>
    rw [tryArm] at h
    split_ifs at h with hno
    · cases h
      exact ⟨.refl _, fun hno' => absurd hno (by simp [hno'])⟩
    · obtain ⟨hot, rfl⟩ := Prod.mk.inj h
      obtain ⟨ho, ha, hr⟩ := State.demand_eq_none.mp hot
      refine ⟨.refl _, fun _ => ⟨⟨ho, hr⟩, fun _ => rfl, ?_⟩⟩
      rintro other ⟨⟩
      exact ha
  | cell id =>
    obtain ⟨-, rfl⟩ := Prod.mk.inj h
    exact ⟨.refl _, fun _ => ⟨trivial, fun _ => rfl, by simp⟩⟩

theorem tryArms_none {arms : List (Arm V)} {order : List Nat} (hp : locked.Paid)
    (h : locked.tryArms wait noTakes seen arms order = (none, locked')) :
    Quiet locked locked' ∧ (noTakes = false →
      (∀ index ∈ order, ∀ arm, arms[index]? = some arm → locked'.Blocked arm.source) ∧
      (∀ id, (locked'.chan id).asked = asksAfter id arms (locked.chan id).asked order) ∧
      ∀ index ∈ order, ∀ id, arms[index]? = some (.demand id) → .recv id ∉ arms →
        (locked'.chan id).asked = false) := by
  induction order generalizing locked with
  | nil =>
    cases h
    exact ⟨.refl _, fun _ => ⟨by simp, fun _ => rfl, by simp⟩⟩
  | cons index order ih =>
    cases harm : arms[index]? with
    | none =>
      simp only [tryArms, harm] at h
      obtain ⟨hq, hr⟩ := ih hp h
      refine ⟨hq, fun hno => ⟨?_, ?_, ?_⟩⟩
      · grind
      · intro id
        simp only [asksAfter, harm, (hr hno).2.1 id]
      grind
    | some arm =>
      cases htr : locked.tryArm wait noTakes seen index arm with
      | mk result left =>
        cases result with
        | some outcome => simp [tryArms, harm, htr] at h
        | none =>
          simp only [tryArms, harm, htr] at h
          obtain ⟨hq, ht⟩ := tryArm_none hp htr
          obtain ⟨hq', hr⟩ := ih (hq.paid hp) h
          refine ⟨hq.trans hq', fun hno => ⟨?_, ?_, ?_⟩⟩
          · rintro other ho arm' harm'
            rcases mem_cons.mp ho with rfl | ho
            · obtain rfl : arm = arm' := by simpa [harm] using harm'
              exact hq'.blocked (ht hno).1
            · exact (hr hno).1 other ho arm' harm'
          · intro id
            simp only [asksAfter, harm, (hr hno).2.1 id, (ht hno).2.1 id]
          · rintro other ho id harm' hrc
            rcases mem_cons.mp ho with rfl | ho
            · obtain rfl : arm = .demand id := by simpa [harm] using harm'
              rw [(hr hno).2.1 id, (ht hno).2.2 id rfl]
              exact asksAfter_eq_false hrc order
            · exact (hr hno).2.2 other ho id harm' hrc

theorem tryArms_some {arms : List (Arm V)} {order : List Nat} {fired : Fired V} (hp : locked.Paid)
    (h : locked.tryArms wait noTakes seen arms order = (some fired, locked')) :
    ∃ left index arm outcome, Quiet locked left ∧ arms[index]? = some arm ∧
      fired = .arm index outcome ∧ Completes left wait index arm outcome locked' := by
  induction order generalizing locked with
  | nil => simp [tryArms] at h
  | cons index order ih =>
    cases harm : arms[index]? with
    | none =>
      simp only [tryArms, harm] at h
      exact ih hp h
    | some arm =>
      cases ht : locked.tryArm wait noTakes seen index arm with
      | mk result left =>
        cases result with
        | some outcome =>
          simp only [tryArms, harm, ht, Prod.mk.injEq, Option.some.injEq] at h
          obtain ⟨rfl, rfl⟩ := h
          exact ⟨locked, index, arm, outcome, .refl _, harm, rfl, tryArm_some hp ht⟩
        | none =>
          simp only [tryArms, harm, ht] at h
          have hq := (tryArm_none hp ht).1
          obtain ⟨left', index', arm', outcome, hq', hr⟩ := ih (hq.paid hp) h
          exact ⟨left', index', arm', outcome, hq.trans hq', hr⟩

end tryArm

/-- The waiters of the arms on `source`, the first arm having the index `index`. -/
def added (wait : TokenId) (source : Source) : Nat → List (Arm V) → List (Waiter V)
  | _, [] => []
  | index, arm :: arms =>
    if arm.source = source then
      { token := wait, arm := index, payload := arm.payload } :: added wait source (index + 1) arms
    else added wait source (index + 1) arms

theorem mem_added {source : Source} {index : Nat} {arms : List (Arm V)} {w : Waiter V}
    (h : w ∈ added wait source index arms) :
    ∃ k arm, arms[k]? = some arm ∧ arm.source = source ∧
      w = { token := wait, arm := index + k, payload := arm.payload } := by
  induction arms generalizing index with
  | nil => simp [added] at h
  | cons arm arms ih =>
    have hr (h : w ∈ added wait source (index + 1) arms) :
        ∃ k arm', (arm :: arms)[k]? = some arm' ∧ arm'.source = source ∧
          w = { token := wait, arm := index + k, payload := arm'.payload } := by
      obtain ⟨k, arm', harm, hs, rfl⟩ := ih h
      exact ⟨k + 1, arm', harm, hs, by simp only [Nat.add_assoc, Nat.add_comm 1 k]⟩
    rw [added] at h
    split_ifs at h with hs
    · rcases mem_cons.mp h with rfl | h
      · exact ⟨0, arm, rfl, hs, rfl⟩
      · exact hr h
    · exact hr h

/-- What the waiters of a wait that parks leave of each channel. -/
theorem chan_enqueueAll (locked : Locked V) (wait : TokenId) (index : Nat) (arms : List (Arm V))
    (id : ChanId) :
    (locked.enqueueAll wait index arms).chan id =
      { locked.chan id with
        recvq := (locked.chan id).recvq ++ added wait (.recv id) index arms
        sendq := (locked.chan id).sendq ++ added wait (.send id) index arms
        demandq := (locked.chan id).demandq ++ added wait (.demand id) index arms } := by
  induction arms generalizing locked index with
  | nil => simp [enqueueAll, added]
  | cons arm arms ih =>
    rw [enqueueAll, ih]
    cases arm with
    | recv chan | send chan value | demand chan =>
      by_cases h : chan = id
      · subst h
        simp [enqueue, added, Arm.source]
      · simp [enqueue, added, Arm.source, h, chan_set_of_ne _ _ _ (Ne.symm h)]
    | cell cell => simp [enqueue, added, Arm.source]

theorem peers_enqueueAll (locked : Locked V) (wait : TokenId) (index : Nat)
    (arms : List (Arm V)) : (locked.enqueueAll wait index arms).peers = locked.peers := by
  induction arms generalizing locked index with
  | nil => rfl
  | cons arm arms ih =>
    rw [enqueueAll, ih]
    cases arm <;> rfl

/-- The ways a park goes, up to where it releases the locks: trials that come to nothing, up to
`left`, and then the end of the wait or the new waiters. -/
inductive ParkSpec (locked : Locked V) (wait : TokenId) (task : TaskId) (what : Wait V)
    (now : Time) : Park V → Locked V → Prop
  | arm {left locked' index arm outcome} (hquiet : Quiet locked left)
      (harm : what.arms[index]? = some arm)
      (hcompletes : Completes left wait index arm outcome locked') :
      ParkSpec locked wait task what now (.ready (.arm index outcome)) locked'
  | deadline {left} (hquiet : Quiet locked left) (hexpired : (what.times now).expired) :
      ParkSpec locked wait task what now (.ready .deadline) left
  | cancelled {left} (hquiet : Quiet locked left) (hset : isSet locked.peers.flags what.cancel) :
      ParkSpec locked wait task what now .cancelled left
  | expired {left} (hquiet : Quiet locked left) (hexpired : (what.times now).taskExpired) :
      ParkSpec locked wait task what now .expired left
  | parked {left} (hquiet : Quiet locked left)
      (hset : isSet locked.peers.flags what.cancel = false)
      (hblocked : ∀ arm ∈ what.arms, left.Blocked arm.source)
      (hasked : ∀ id, (left.chan id).asked = asksAfter id what.arms (locked.chan id).asked
        (tryOrder what.first what.arms.length))
      (hdemand : ∀ id, .demand id ∈ what.arms → .recv id ∉ what.arms →
        (left.chan id).asked = false) :
      ParkSpec locked wait task what now .parked
        ((left.newToken wait task what.cancel).enqueueAll wait 0 what.arms)

/-- A park that ends the wait takes waiters off the queues only. -/
theorem ParkSpec.shrinks {task : TaskId}
    {what : Wait V} {now : Time} {result : Park V} {resumed : Resumed V}
    (h : ParkSpec locked wait task what now result locked') (hr : result.resumed = some resumed)
    (id : ChanId) : (locked'.chan id).Shrinks (locked.chan id) := by
  cases h with
  | arm hq _ hc => exact (hc.shrinks id).trans (hq.still id).toShrinks
  | deadline hq | cancelled hq | expired hq => exact (hq.still id).toShrinks
  | parked => cases hr

theorem park_spec {task : TaskId} {what : Wait V}
    {now : Time} {seen : CellId → Bool} {result : Park V} (hp : locked.Paid)
    (h : locked.park wait task what now seen = (result, locked')) :
    ParkSpec locked wait task what now result locked' := by
  rw [park] at h
  split at h
  next fired left ht =>
    obtain ⟨left', index, arm, outcome, hq, harm, rfl, hc⟩ := tryArms_some hp ht
    cases h
    exact .arm hq harm hc
  next left ht =>
    obtain ⟨hq, hrs⟩ := tryArms_none hp ht
    split_ifs at h with hset he hd
    · cases h
      exact .cancelled hq hset
    · cases h
      exact .expired hq he
    · cases h
      exact .deadline hq hd
    · cases h
      have hno : takesNothingNew (isSet locked.peers.flags what.cancel)
          (what.times now).taskExpired = false := by
        simp [takesNothingNew, hset, he]
      obtain ⟨hb, ha, hdm⟩ := hrs hno
      have hi {arm : Arm V} (harm : arm ∈ what.arms) :
          ∃ index ∈ tryOrder what.first what.arms.length, what.arms[index]? = some arm := by
        obtain ⟨index, hi, rfl⟩ := getElem_of_mem harm
        exact ⟨index, mem_tryOrder hi, getElem?_eq_getElem hi⟩
      refine .parked hq (by simpa using hset) (fun arm harm => ?_) ha fun id harm hr => ?_
      · grind
      grind

end Locked

end Silt.Sync

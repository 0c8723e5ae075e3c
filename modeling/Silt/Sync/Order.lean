import Silt.Sync.Rendezvous

/-!
# The order of the values

The values that a channel hands out are those it accepted, in their order, and what it has not
handed out is its buffer. A value is accepted when its send ends as sent, at once or as a parked
sender's; it is handed out when a receive returns it, or when it is put into the token of a parked
receiver. Both are read off the log.

## Main definitions

* `Silt.Sync.accepted`, `Silt.Sync.handedOut`: the values a channel accepted and handed out.
* `Silt.Sync.Locked.Conserves`: what was handed out, and then the buffer, is what was accepted.

## Main results

* `Silt.Sync.World.channel_conserves_values`: it holds in every run.
-/

namespace Silt.Sync

variable {id : ChanId}

variable {V : Type}

/-- The value that the channel `id` accepts by this event. -/
def Event.accepted (id : ChanId) : Event V → Option V
  | .fired (.chan chan) waiter .sent => if chan = id then waiter.payload else none
  | .returned chan _ .sent payload => if chan = id then payload else none
  | _ => none

/-- The value that the channel `id` hands out by this event. -/
def Event.handedOut (id : ChanId) : Event V → Option V
  | .fired (.chan chan) _ (.received value) => if chan = id then some value else none
  | .returned chan _ (.received value) _ => if chan = id then some value else none
  | _ => none

/-- The values that the channel `id` accepted, oldest first. -/
def accepted (id : ChanId) (log : List (Event V)) : List V :=
  log.filterMap (Event.accepted id)

/-- The values that the channel `id` handed out, oldest first. -/
def handedOut (id : ChanId) (log : List (Event V)) : List V :=
  log.filterMap (Event.handedOut id)

theorem accepted_concat (id : ChanId) (log : List (Event V)) (ev : Event V) :
    accepted id (log ++ [ev]) = accepted id log ++ (ev.accepted id).toList := by
  rw [accepted, List.filterMap_append]
  rfl

theorem handedOut_concat (id : ChanId) (log : List (Event V)) (ev : Event V) :
    handedOut id (log ++ [ev]) = handedOut id log ++ (ev.handedOut id).toList := by
  rw [handedOut, List.filterMap_append]
  rfl

section Log

variable (id : ChanId) (peers : Peers V)

@[simp]
theorem accepted_note (ev : Event V) :
    accepted id (peers.note ev).log = accepted id peers.log ++ (ev.accepted id).toList :=
  accepted_concat id _ ev

@[simp]
theorem handedOut_note (ev : Event V) :
    handedOut id (peers.note ev).log = handedOut id peers.log ++ (ev.handedOut id).toList :=
  handedOut_concat id _ ev

@[simp]
theorem accepted_fire (place : Place) (w : Waiter V) (outcome : Outcome V) :
    accepted id (peers.fire place w outcome).log =
      accepted id peers.log ++ ((Event.fired place w outcome).accepted id).toList :=
  accepted_concat id _ _

@[simp]
theorem handedOut_fire (place : Place) (w : Waiter V) (outcome : Outcome V) :
    handedOut id (peers.fire place w outcome).log =
      handedOut id peers.log ++ ((Event.fired place w outcome).handedOut id).toList :=
  handedOut_concat id _ _

end Log

/-- Neither accepting nor handing out happens at the channel `id` between the two logs. -/
def Unmoved (id : ChanId) (log log' : List (Event V)) : Prop :=
  accepted id log' = accepted id log ∧ handedOut id log' = handedOut id log

theorem Unmoved.refl (id : ChanId) (log : List (Event V)) : Unmoved id log log := ⟨rfl, rfl⟩

theorem Unmoved.trans {l₁ l₂ l₃ : List (Event V)} (h : Unmoved id l₁ l₂) (h' : Unmoved id l₂ l₃) :
    Unmoved id l₁ l₃ :=
  ⟨h'.1.trans h.1, h'.2.trans h.2⟩

theorem unmoved_concat (log : List (Event V)) {ev : Event V} (ha : ev.accepted id = none)
    (hh : ev.handedOut id = none) : Unmoved id log (log ++ [ev]) := by
  constructor
  · rw [accepted_concat, ha, Option.toList_none, List.append_nil]
  · rw [handedOut_concat, hh, Option.toList_none, List.append_nil]

/-- The outcomes that move a value. -/
def Outcome.moves : Outcome V → Bool
  | .received _ | .sent => true
  | .closed _ | .done | .asked => false

/-- Completing an arm elsewhere, or without a value, moves nothing at the channel `id`. -/
theorem unmoved_fire (id : ChanId) (peers : Peers V) {place : Place} (w : Waiter V)
    {outcome : Outcome V} (h : outcome.moves = false ∨ place ≠ .chan id) :
    Unmoved id peers.log (peers.fire place w outcome).log := by
  have hn : (Event.fired place w outcome).accepted id = none ∧
      (Event.fired place w outcome).handedOut id = none := by
    cases place with
    | cell => exact ⟨rfl, rfl⟩
    | chan chan =>
      cases outcome with
      | received | sent =>
        have hne : chan ≠ id := by simpa [Outcome.moves] using h
        simp [Event.accepted, Event.handedOut, hne]
      | closed | done | asked => exact ⟨rfl, rfl⟩
  exact unmoved_concat _ hn.1 hn.2

theorem unmoved_fires {allowed : Place → Waiter V → Outcome V → Prop} {peers peers' : Peers V}
    (h : peers.Fires allowed peers')
    (hm : ∀ place w outcome, allowed place w outcome → outcome.moves = false ∨ place ≠ .chan id) :
    Unmoved id peers.log peers'.log := by
  induction h with
  | refl => exact Unmoved.refl id _
  | fire _ ha _ ih => exact ih.trans (unmoved_fire id _ _ (hm _ _ _ ha))

theorem unmoved_fireAll (id : ChanId) (peers : Peers V) (place : Place) {outcome : Outcome V}
    (queue : List (Waiter V)) (h : outcome.moves = false) :
    Unmoved id peers.log (peers.fireAll place outcome queue).log := by
  have hf : peers.Fires (fun _ _ fired => fired = outcome) (peers.fireAll place outcome queue) :=
    Peers.fires_fireAll place outcome queue peers fun _ _ => rfl
  exact unmoved_fires hf fun _ _ _ hfr => .inl (hfr ▸ h)

namespace Locked

variable {locked locked' : Locked V} {id : ChanId} {state : State V} {peers : Peers V}

/-- What a channel handed out, and then its buffer, is what it accepted. -/
def Conserves (locked : Locked V) : Prop :=
  ∀ id, handedOut id locked.peers.log ++ (locked.chan id).buf = accepted id locked.peers.log

theorem Conserves.unmoved (h : locked.Conserves)
    (hb : ∀ id, (locked'.chan id).buf = (locked.chan id).buf)
    (hl : ∀ id, Unmoved id locked.peers.log locked'.peers.log) : locked'.Conserves := by
  intro id
  rw [(hl id).1, (hl id).2, hb, h id]

/-- An operation on one channel that the log of the others does not show. -/
theorem Conserves.set (h : locked.Conserves)
    (ho : ∀ other, other ≠ id → Unmoved other locked.peers.log peers.log)
    (ht : handedOut id peers.log ++ state.buf = accepted id peers.log) :
    (locked.set id state peers).Conserves := by
  intro other
  by_cases heq : other = id
  · subst heq
    rwa [chan_set_self]
  · rw [chan_set_of_ne _ _ _ heq, peers_set, (ho other heq).1, (ho other heq).2, h other]

/-- A call on the channel `id` that returns moves nothing at the others. -/
theorem unmoved_noteReturn {other : ChanId} (hne : other ≠ id) (peers : Peers V)
    (caller : Option (TokenId × Nat)) (payload : Option V) (outcome : Option (Outcome V)) :
    Unmoved other peers.log (peers.noteReturn id caller payload outcome).log := by
  cases outcome with
  | none => exact Unmoved.refl _ _
  | some outcome =>
    refine unmoved_concat _ ?_ ?_ <;> cases outcome <;>
      simp [Event.accepted, Event.handedOut, hne.symm]

theorem Conserves.send (h : locked.Conserves) {value : V} {result : TrySend V}
    (hid : (locked.chan id).id = id) (hm : (locked.chan id).Rendezvous locked.peers)
    (hs : State.SendSpec (locked.chan id) locked.peers value result state peers)
    (caller : Option (TokenId × Nat)) :
    (locked.set id state (peers.noteReturn id caller (some value) result.outcome)).Conserves := by
  refine h.set (fun other hne => Unmoved.trans ?_ (unmoved_noteReturn hne _ _ _ _)) ?_
  · refine unmoved_fires hs.shrinks.2 fun place w outcome hf => .inr ?_
    rw [hf.1, hid]
    simpa using hne.symm
  · have ht := h id
    cases hs with
    | closed =>
      simpa [Peers.noteReturn, TrySend.outcome, Event.accepted, Event.handedOut] using ht
    | handed ho hmm hc =>
      have hb := (hm.receiver _ hmm hc).2.1
      rw [hb, List.append_nil] at ht
      simp [Peers.noteReturn, TrySend.outcome, Event.accepted, Event.handedOut, hid, hb, ht]
    | buffered =>
      simp [Peers.noteReturn, TrySend.outcome, Event.accepted, Event.handedOut, ← ht]
    | full => exact ht

theorem Conserves.receive (h : locked.Conserves) {result : TryReceive V}
    (hid : (locked.chan id).id = id)
    (hr : State.ReceiveSpec (locked.chan id) locked.peers result state peers)
    (caller : Option (TokenId × Nat)) :
    (locked.set id state (peers.noteReturn id caller none result.outcome)).Conserves := by
  refine h.set (fun other hne => Unmoved.trans ?_ (unmoved_noteReturn hne _ _ _ _)) ?_
  · refine unmoved_fires hr.shrinks.2 fun place w outcome hf => .inr ?_
    rw [hf.1, hid]
    simpa using hne.symm
  · have ht := h id
    cases hr with
    | refilled hb hm hc hp =>
      rw [hb] at ht
      simp [Peers.noteReturn, TryReceive.outcome, Event.accepted, Event.handedOut, hid, hp, ← ht]
    | freed hb =>
      rw [hb] at ht
      obtain ⟨ha, hh⟩ : Unmoved id locked.peers.log _ :=
        unmoved_fireAll id locked.peers (.chan (locked.chan id).id) (locked.chan id).demandq
          (rfl : (Outcome.asked : Outcome V).moves = false)
      simp [Peers.noteReturn, TryReceive.outcome, Event.accepted, Event.handedOut, ha, hh, ← ht]
    | left hb =>
      rw [hb] at ht
      simp [Peers.noteReturn, TryReceive.outcome, Event.accepted, Event.handedOut, ← ht]
    | handed hb hm hc hp =>
      rw [hb, List.append_nil] at ht
      simp [Peers.noteReturn, TryReceive.outcome, Event.accepted, Event.handedOut, hid, hp, hb, ht]
    | closed =>
      simpa [Peers.noteReturn, TryReceive.outcome, Event.accepted, Event.handedOut] using ht
    | empty =>
      obtain ⟨ha, hh⟩ : Unmoved id locked.peers.log _ :=
        unmoved_fireAll id locked.peers (.chan (locked.chan id).id) (locked.chan id).demandq
          (rfl : (Outcome.asked : Outcome V).moves = false)
      simp [Peers.noteReturn, TryReceive.outcome, ha, hh, ht]

theorem Quiet.conserves (hq : Quiet locked locked') (h : locked.Conserves) : locked'.Conserves := by
  refine h.unmoved (fun id => (hq.still id).buf) fun id => unmoved_fires hq.fires ?_
  rintro place w outcome ⟨rfl, -⟩
  exact .inl rfl

theorem Completes.conserves {wait : TokenId} {index : Nat} {arm : Arm V} {outcome : Outcome V}
    (hc : Completes locked wait index arm outcome locked')
    (hid : ∀ id, (locked.chan id).id = id) (hm : locked.Meets) (h : locked.Conserves) :
    locked'.Conserves := by
  cases hc with
  | recv hr ho =>
    have hst := h.receive (hid _) hr (some (wait, index))
    rwa [ho] at hst
  | send hs ho =>
    have hst := h.send (hid _) (hm _) hs (some (wait, index))
    rwa [ho] at hst
  | demand | cell => exact h

end Locked

namespace Waits

theorem Effect.conserves {w w' : Waits V} (he : w.Effect w') (hid : ∀ id, (w.chan id).id = id)
    (hm : w.toLocked.Meets) (h : w.toLocked.Conserves) : w'.toLocked.Conserves := by
  cases he with
  | none _ heq => rwa [heq]
  | send _ hs heq =>
    rw [heq]
    exact h.send (hid _) (hm _) hs _
  | receive _ hr heq =>
    rw [heq]
    exact h.receive (hid _) hr _
  | @close id how _ heq =>
    rw [heq]
    refine h.unmoved (fun other => ?_) fun other => ?_
    · by_cases ho : other = id
      · subst ho
        rw [Locked.chan_set_self, State.close]
        split <;> rfl
      · rw [Locked.chan_set_of_ne _ _ _ ho]
    · rw [Locked.peers_set, State.close]
      split
      · exact Unmoved.refl _ _
      · exact unmoved_fireAll other _ _ _ rfl
  | @drain id _ heq =>
    rw [heq]
    refine h.unmoved (fun other => ?_) fun other => ?_
    · by_cases ho : other = id
      · subst ho
        simp only [Locked.chan_set_self, State.drain]
        split_ifs <;> rfl
      · rw [Locked.chan_set_of_ne _ _ _ ho]
    · simp only [Locked.peers_set, State.drain]
      split_ifs
      · exact Unmoved.refl _ _
      · exact unmoved_fireAll other _ _ _ rfl
      · exact Unmoved.refl _ _
  | @forget id wait _ _ heq =>
    rw [heq]
    refine h.unmoved (fun other => ?_) fun other => Unmoved.refl _ _
    by_cases ho : other = id
    · subst ho
      obtain ⟨keep, stale, hf⟩ := (w.chan other).forget_eq w.peers wait
      rw [Locked.chan_set_self, hf]
      rfl
    · rw [Locked.chan_set_of_ne _ _ _ ho]
  | fireCell _ _ _ heq =>
    rw [heq]
    exact h.unmoved (fun _ => rfl) fun id => unmoved_fire id _ _ (.inr (by simp))
  | ended _ _ _ _ _ heq | take _ _ _ _ _ heq =>
    rw [heq]
    exact h.unmoved (fun _ => rfl) fun id => unmoved_concat _ rfl rfl
  | commit _ _ heq | setFlag _ _ heq =>
    rw [heq]
    exact h.unmoved (fun _ => rfl) fun id => Unmoved.refl _ _

theorem ParkEffect.conserves {w w' : Waits V} {task : TaskId} {wait : Wait V} {now : Time}
    (he : w.ParkEffect task wait now w') (hid : ∀ id, (w.chan id).id = id) (hm : w.toLocked.Meets)
    (h : w.toLocked.Conserves) : w'.toLocked.Conserves := by
  cases he with
  | @ended result resumed locked hs hr _ _ heq =>
    rw [heq]
    suffices hl : locked.Conserves from
      hl.unmoved (fun _ => rfl) fun id => unmoved_concat _ rfl rfl
    cases hs with
    | arm hq _ hc =>
      exact hc.conserves (fun id => (hq.still id).id.trans (hid id)) (hq.meets hm) (hq.conserves h)
    | deadline hq | cancelled hq | expired hq => exact hq.conserves h
    | parked => cases hr
  | parked hs _ _ _ _ heq =>
    rw [heq]
    cases hs with
    | parked hq =>
      refine (hq.conserves h).unmoved (fun id => ?_) fun id => ?_
      · rw [Locked.chan_enqueueAll]
        rfl
      · rw [Locked.peers_enqueueAll]
        exact Unmoved.refl _ _

end Waits

namespace World

/-- In every run, what a channel handed out is, in order, the first part of what it accepted, what
is left of that is its buffer, and the buffer holds no more than its capacity. -/
theorem channel_conserves_values (capacity ahead : ChanId → Nat) (ops : List (Op V)) (id : ChanId) :
    let world := (start capacity ahead).run ops
    handedOut id world.peers.log ++ (world.chan id).buf = accepted id world.peers.log ∧
      (world.chan id).buf.length ≤ capacity id := by
  have hc : ((start capacity ahead).run ops).toLocked.Meets ∧
      ((start capacity ahead).run ops).toLocked.Conserves := by
    refine run_induction
      (P := fun world => world.toLocked.Meets ∧ world.toLocked.Conserves) ?_ ?_ ops
    · exact ⟨meets_run capacity ahead [], fun _ => rfl⟩
    · rintro world op world' hk ⟨hm, h⟩ ht
      cases op with
      | park task wait now seen =>
        exact ⟨Waits.ParkEffect.meets hk ht hm, Waits.ParkEffect.conserves ht hk.id hm h⟩
      | _ =>
        exact ⟨Waits.Effect.meets ht hm, Waits.Effect.conserves ht hk.id hm h⟩
  refine ⟨hc.2 id, ?_⟩
  rw [← (sized_run capacity ahead ops id).1]
  exact (hc.1 id).buf_le

end World

end Silt.Sync

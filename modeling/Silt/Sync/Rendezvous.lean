import Silt.Sync.Effect

/-!
# Nobody misses a rendezvous

A receiver and a sender that could meet on a channel never both wait there, and nobody waits beside
a buffer that has what they need or on a channel that is closed. A wait that parks keeps this
because it has found every one of its arms blocked while it holds all its locks.

## Main definitions

* `Silt.Sync.Locked.Meets`: `State.Rendezvous` on every channel.

## Main results

* `Silt.Sync.World.no_missed_rendezvous`: it holds in every state that can be reached.
-/

namespace Silt.Sync

variable {V : Type}

theorem State.invariant_rendezvous : State.Invariant (State.Rendezvous (V := V)) where
  fewer h hf := h.mono hf (State.Shrinks.refl _) rfl rfl
  send h hs := h.send hs
  receive h hr := h.receive hr
  close h how := h.close how
  drain h := h.drain
  forget h token := h.forget token

namespace Locked

variable {locked : Locked V} {wait : TokenId}

/-- On every channel, whoever waits has to. -/
def Meets (locked : Locked V) : Prop :=
  locked.All State.Rendezvous

theorem Quiet.meets {locked' : Locked V} (hq : Quiet locked locked') (h : locked.Meets) :
    locked'.Meets :=
  fun id => (h id).mono hq.fewer (hq.still id).toShrinks (hq.still id).closed (hq.still id).buf

/-- A new token changes nothing for the waiters of other waits. -/
theorem claimable_newToken (task : TaskId) (cancel : Option FlagId) {wt : Waiter V}
    (h : wt.token ≠ wait) :
    (locked.newToken wait task cancel).peers.claimable wt = locked.peers.claimable wt := by
  simp [Peers.claimable, newToken, h]

/-- The waiters that a blocked wait adds are of that wait, and their source is blocked. -/
theorem blocked_of_mem_added {source : Source} {index : Nat} {arms : List (Arm V)}
    (hb : ∀ arm ∈ arms, locked.Blocked arm.source) {wt : Waiter V}
    (h : wt ∈ added wait source index arms) : wt.token = wait ∧ locked.Blocked source := by
  obtain ⟨k, arm, ha, rfl, rfl⟩ := mem_added h
  exact ⟨rfl, hb arm (List.mem_of_getElem? ha)⟩

/-- A wait whose arms are all blocked can be put on its queues. -/
theorem Meets.enqueueAll (h : locked.Meets)
    (hfr : ∀ id, ∀ wt ∈ (locked.chan id).queues, wt.token ≠ wait) (task : TaskId)
    (cancel : Option FlagId) {arms : List (Arm V)} (hb : ∀ arm ∈ arms, locked.Blocked arm.source) :
    ((locked.newToken wait task cancel).enqueueAll wait 0 arms).Meets := by
  intro id
  have hol (wt) (hw : wt ∈ (locked.chan id).queues)
      (hc : (locked.newToken wait task cancel).peers.claimable wt) : locked.peers.claimable wt := by
    rwa [claimable_newToken task cancel (hfr id wt hw)] at hc
  have hrc := fun wt hw => hol wt (State.mem_queues_of_recvq hw)
  have hsn := fun wt hw => hol wt (State.mem_queues_of_sendq hw)
  have hd := fun wt hw => hol wt (State.mem_queues_of_demandq hw)
  rw [chan_enqueueAll, peers_enqueueAll]
  refine ⟨?_, ?_, ?_, (h id).buf_le⟩
  · intro receiver hr hc
    rcases List.mem_append.mp hr with hr | hr
    · -- The receiver was here before: a sender of the new wait would have found it.
      obtain ⟨ho, hbf, ha⟩ := (h id).receiver receiver hr (hrc receiver hr hc)
      refine ⟨ho, hbf, fun sender hs hcs => ?_⟩
      rcases List.mem_append.mp hs with hs | hs
      · exact ha sender hs (hsn sender hs hcs)
      · obtain ⟨-, -, -, hn⟩ := blocked_of_mem_added hb hs
        exact absurd (hrc receiver hr hc) (by simp [hn receiver hr])
    · obtain ⟨hwt, ho, hbf, hn⟩ := blocked_of_mem_added hb hr
      refine ⟨ho, hbf, fun sender hs hcs => ?_⟩
      rcases List.mem_append.mp hs with hs | hs
      · exact absurd (hsn sender hs hcs) (by simp [hn sender hs])
      · exact (blocked_of_mem_added hb hs).1.trans hwt.symm
  · intro sender hs hc
    rcases List.mem_append.mp hs with hs | hs
    · exact (h id).sender sender hs (hsn sender hs hc)
    · obtain ⟨-, ho, hfl, -⟩ := blocked_of_mem_added hb hs
      have hle := (h id).buf_le
      exact ⟨ho, by simp only [newToken] at hfl ⊢; omega⟩
  · intro feeder hf hc
    rcases List.mem_append.mp hf with hf | hf
    · exact (h id).feeder feeder hf (hd feeder hf hc)
    · exact (blocked_of_mem_added hb hf).2.1

end Locked

namespace Waits

theorem Effect.meets {w w' : Waits V} (he : w.Effect w')
    (h : w.toLocked.Meets) : w'.toLocked.Meets :=
  he.all State.invariant_rendezvous h

theorem token_ne_next {w : World V} (hk : w.Known) {id : ChanId} {wt : Waiter V}
    (hw : wt ∈ (w.chan id).queues) : wt.token ≠ w.next := by
  intro heq
  have hn : w.sourceOf wt = none := by
    rw [sourceOf, heq, hk.fresh _ (Nat.le_refl _)]
    rfl
  rcases List.mem_append.mp hw with hw | hw
  · rcases List.mem_append.mp hw with hw | hw
    · exact absurd (hn.symm.trans (hk.recvq id wt hw)) (by simp)
    · exact absurd (hn.symm.trans (hk.sendq id wt hw)) (by simp)
  · exact absurd (hn.symm.trans (hk.demandq id wt hw)) (by simp)

theorem ParkEffect.meets {w : World V} {w' : Waits V} {task : TaskId} {wait : Wait V}
    {now : Time} (hk : w.Known) (he : w.toWaits.ParkEffect task wait now w')
    (h : w.toLocked.Meets) : w'.toLocked.Meets := by
  cases he with
  | ended hs hr _ _ heq =>
    rw [heq]
    refine Locked.All.fewer State.invariant_rendezvous ?_ (Peers.fewer_note _ _)
    cases hs with
    | arm hq _ hc =>
      exact hc.all State.invariant_rendezvous (hq.meets h)
    | deadline hq | cancelled hq | expired hq => exact hq.meets h
    | parked => cases hr
  | parked hs _ _ _ _ heq =>
    rw [heq]
    cases hs with
    | parked hq _ hb =>
      refine (hq.meets h).enqueueAll (fun id wt hw => ?_) task wait.cancel hb
      exact token_ne_next hk ((hq.still id).queues hw)

end Waits

namespace World

theorem meets_run (capacity ahead : ChanId → Nat) (ops : List (Op V)) :
    ((start capacity ahead).run ops).toLocked.Meets := by
  refine run_induction (P := fun w => w.toLocked.Meets) ?_ ?_ ops
  · exact fun id => State.rendezvous_fed id (capacity id) (ahead id) _
  · intro w op w' hk h ht
    cases op with
    | park task wait now seen => exact Waits.ParkEffect.meets hk ht h
    | _ => exact Waits.Effect.meets ht h

/-- In every state that can be reached: a receiver that can be claimed waits beside an open channel
with an empty buffer and no sender of another wait that can be claimed, a sender that can be claimed
waits beside an open channel with a full buffer, and nobody who can be claimed waits on a closed
channel. -/
theorem no_missed_rendezvous (capacity ahead : ChanId → Nat) (ops : List (Op V)) (id : ChanId) :
    let world := (start capacity ahead).run ops
    let state := world.chan id
    (∀ receiver ∈ state.recvq, world.peers.claimable receiver →
      state.closed = none ∧ state.buf = [] ∧
        ∀ sender ∈ state.sendq, world.peers.claimable sender → sender.token = receiver.token) ∧
    (∀ sender ∈ state.sendq, world.peers.claimable sender →
      state.closed = none ∧ state.buf.length = capacity id) ∧
    (state.closed ≠ none → ∀ waiter ∈ state.recvq ++ state.sendq ++ state.demandq,
      world.peers.claimable waiter = false) := by
  intro world state
  have hm : state.Rendezvous world.peers := meets_run capacity ahead ops id
  refine ⟨hm.receiver, fun sender hs hc => ?_, fun hcl waiter hw => ?_⟩
  · obtain ⟨ho, hf⟩ := hm.sender sender hs hc
    exact ⟨ho, hf.trans (sized_run capacity ahead ops id).1⟩
  · refine Bool.eq_false_iff.mpr fun hc => hcl ?_
    rcases List.mem_append.mp hw with hw | hw
    · rcases List.mem_append.mp hw with hw | hw
      · exact (hm.receiver waiter hw hc).1
      · exact (hm.sender waiter hw hc).1
    · exact hm.feeder waiter hw hc

end World

end Silt.Sync

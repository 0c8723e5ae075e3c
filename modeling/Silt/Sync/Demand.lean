import Silt.Sync.Rendezvous

/-!
# Whether a reader that waits is heard

A receive that finds nothing asks for a value, and a feeder that waits to be asked goes on. So a
reader that waits on a channel should keep the channel asking, and no feeder should wait while it
asks. A select can break both: it tries its arms one after another, and a send arm that finds the
channel full takes back what a receive arm of the same select has asked.

## Main definitions

* `Silt.Sync.State.Heard`: a reader that waits is heard, and no feeder waits while the channel asks.
* `Silt.Sync.World.KeepsAsking`: the waits that leave every reader heard.

## Main results

* `Silt.Sync.World.select_silences_reader`: a select that leaves its reader unheard.
* `Silt.Sync.World.heard_iff_keepsAsking`: readers are heard throughout a run if and only if its
  parks are of that kind.
-/

namespace Silt.Sync

open List Function Bool

variable {V : Type}

namespace State

/-- While the channel is open, a receiver that can be claimed keeps it asking, and no feeder that
can be claimed waits while it asks. -/
def Heard (state : State V) (peers : Peers V) : Prop :=
  state.closed = none →
    (∀ receiver ∈ state.recvq, peers.claimable receiver → state.demand.isSome) ∧
    (state.demand.isSome → ∀ feeder ∈ state.demandq, peers.claimable feeder = false)

/-- The invariant behind `Heard`: a receiver that can be claimed has asked, and a feeder that can be
claimed has found nobody who asks, and no room. -/
structure Asking (state : State V) (peers : Peers V) : Prop where
  reader : ∀ receiver ∈ state.recvq, peers.claimable receiver → state.asked = true
  feeder : ∀ feeder ∈ state.demandq, peers.claimable feeder → state.demand = none

theorem Asking.heard {state : State V} {peers : Peers V} (h : state.Asking peers) :
    state.Heard peers := by
  intro ho
  refine ⟨fun receiver hr hc => ?_, fun hs feeder hf => eq_false_iff.mpr fun hc => ?_⟩
  · simp [demand, ho, h.reader receiver hr hc]
  · simp [h.feeder feeder hf hc] at hs

theorem asking_fed (id : ChanId) (capacity ahead : Nat) (peers : Peers V) :
    Asking (fed id capacity ahead) peers where
  reader := by simp [fed]
  feeder := by simp [fed]

namespace Asking

variable {state state' : State V} {peers peers' : Peers V}

/-- The invariant is kept when waiters leave the queues and claimable ones get fewer. -/
theorem mono (h : Asking state peers) (hfw : peers'.Fewer peers)
    (hs : Shrinks state' state) (ha : state'.asked = state.asked)
    (hd : state'.demand = state.demand) : Asking state' peers' where
  reader receiver hr hc := ha.trans (h.reader receiver (hs.recvq hr) (hfw receiver hc))
  feeder feeder hf hc := hd.trans (h.feeder feeder (hs.demandq hf) (hfw feeder hc))

/-- A channel that nobody asks, with no more room than before, has still no demand. -/
theorem demand_eq_none_of_le (h : state.demand = none) (hc : state'.closed = state.closed)
    (ha : state'.asked = false) (hr : state'.room = state.room)
    (hb : state.buf.length ≤ state'.buf.length) : state'.demand = none := by
  obtain ⟨ho, -, hf⟩ := demand_eq_none.mp h
  exact demand_eq_none.mpr ⟨hc.trans ho, ha, by omega⟩

theorem send {value : V} {result : TrySend V} (h : Asking state peers)
    (hs : SendSpec state peers value result state' peers') : Asking state' peers' := by
  obtain ⟨hsh, hfr⟩ := hs.shrinks
  have hfw := hfr.fewer
  cases hs with
  | closed => exact h
  | handed _ hm hcl =>
    refine ⟨fun receiver hr _ => ?_, fun feeder hf hc => ?_⟩
    · simpa using ne_nil_of_mem hr
    · -- The receiver had asked, so no feeder that can be claimed was waiting.
      have hn := (demand_eq_none.mp (h.feeder feeder hf (hfw feeder hc))).2.1
      exact absurd (h.reader _ hm hcl) (by simp [hn])
  | buffered =>
    refine ⟨by simp, fun feeder hf hc => ?_⟩
    exact demand_eq_none_of_le (h.feeder feeder hf hc) rfl rfl rfl (by simp)
  | full =>
    refine ⟨by simp, fun feeder hf hc => ?_⟩
    exact demand_eq_none_of_le (h.feeder feeder hf hc) rfl rfl rfl (Nat.le_refl _)

theorem receive {result : TryReceive V} (h : Asking state peers) (hm : Rendezvous state peers)
    (hr : ReceiveSpec state peers result state' peers') : Asking state' peers' := by
  obtain ⟨hs, hfr⟩ := hr.shrinks
  have hf := hfr.fewer
  cases hr with
  | refilled hb =>
    refine h.mono hf hs rfl ?_
    simp [demand, room, hb]
  | freed hb =>
    refine ⟨fun receiver hr hc => ?_, by simp⟩
    exact absurd (hf receiver hc) (hm.not_claimable_of_buf hb receiver hr)
  | left hb _ hd =>
    refine ⟨fun receiver hr hc => ?_, fun _ _ _ => hd⟩
    exact absurd (hf receiver hc) (hm.not_claimable_of_buf hb receiver hr)
  | handed | closed => exact h.mono hf hs rfl rfl
  | empty => exact ⟨fun _ _ _ => rfl, by simp⟩

theorem close (h : Asking state peers) (how : Close) :
    Asking (state.close peers how).2.1 (state.close peers how).2.2 := by
  rw [State.close]
  split
  · exact h
  · exact ⟨by simp, by simp⟩

theorem drain (h : Asking state peers) : Asking (state.drain peers).1 (state.drain peers).2 := by
  obtain ⟨-, hfr⟩ := shrinks_drain state peers
  have hf := hfr.fewer
  simp only [State.drain] at hf ⊢
  split_ifs at hf ⊢ with hdr hd
  · exact h
  · exact ⟨fun receiver hr hc => h.reader receiver hr (hf receiver hc), by simp [wakeFeeders]⟩
  · exact ⟨h.reader, fun _ _ _ => by simpa using hd⟩

theorem forget (h : Asking state peers) (token : TokenId) :
    Asking (state.forget peers token) peers := by
  have hs := shrinks_forget state peers token
  obtain ⟨keep, stale, heq⟩ := state.forget_eq peers token
  rw [heq] at hs ⊢
  exact h.mono (.refl _) hs rfl rfl

end Asking

theorem invariant_asking :
    Invariant fun (state : State V) peers => Rendezvous state peers ∧ Asking state peers where
  fewer h hf := ⟨h.1.mono hf (Shrinks.refl _) rfl rfl, h.2.mono hf (Shrinks.refl _) rfl rfl⟩
  send h hs := ⟨h.1.send hs, h.2.send hs⟩
  receive h hr := ⟨h.1.receive hr, h.2.receive h.1 hr⟩
  close h how := ⟨h.1.close how, h.2.close how⟩
  drain h := ⟨h.1.drain, h.2.drain⟩
  forget h token := ⟨h.1.forget token, h.2.forget token⟩

end State

namespace Locked

/-- `State.Asking` on every channel. -/
def AllAsking (locked : Locked V) : Prop :=
  locked.All State.Asking

/-- Trials that come to nothing keep the readers heard that waited before. -/
theorem Quiet.allAsking {locked locked' : Locked V} (hq : Quiet locked locked')
    (h : locked.AllAsking) : locked'.AllAsking := by
  intro id
  have hs := hq.still id
  rcases hq.asked id with ha | ⟨ha, hn⟩ | ⟨ha, hn⟩
  · refine (h id).mono hq.fewer hs.toShrinks ha ?_
    rw [State.demand, State.demand, hs.closed, ha, hs.buf, hs.room]
  · refine ⟨fun _ _ _ => ha, fun feeder hf hc => ?_⟩
    exact absurd hc (by simp [hn feeder hf])
  · refine ⟨fun receiver hr hc => absurd hc (by simp [hn receiver hr]), fun feeder hf hc => ?_⟩
    have hd := (h id).feeder feeder (hs.demandq hf) (hq.fewer feeder hc)
    exact State.Asking.demand_eq_none_of_le hd hs.closed ha hs.room
      (Nat.le_of_eq (congrArg List.length hs.buf.symm))

end Locked

/-- The waits that leave every reader heard, on the channels `chan`: where the wait receives from a
channel, it does not wait to be asked there too, or there is room that its feeder may fill unasked;
and of its receives from and sends to the channel the one tried last is a receive, or the channel
has a buffer. -/
def Wait.KeepsAsking (wait : Wait V) (chan : ChanId → State V) : Prop :=
  ∀ id, .recv id ∈ wait.arms →
    (.demand id ∉ wait.arms ∨ 0 < (chan id).room) ∧
    (asksAfter id wait.arms (chan id).asked (tryOrder wait.first wait.arms.length) = true ∨
      0 < (chan id).capacity)

namespace Locked

variable {arms : List (Arm V)}

theorem recv_mem_of_added {wait : TokenId} {id : ChanId} {index : Nat} {wt : Waiter V}
    (h : wt ∈ added wait (.recv id) index arms) : .recv id ∈ arms := by
  obtain ⟨k, arm, ha, hs, -⟩ := mem_added h
  cases arm <;> cases hs
  exact mem_of_getElem? ha

theorem demand_mem_of_added {wait : TokenId} {id : ChanId} {index : Nat} {wt : Waiter V}
    (h : wt ∈ added wait (.demand id) index arms) : .demand id ∈ arms := by
  obtain ⟨k, arm, ha, hs, -⟩ := mem_added h
  cases arm <;> cases hs
  exact mem_of_getElem? ha

theorem exists_mem_added (wait : TokenId) {arm : Arm V} (index : Nat) (h : arm ∈ arms) :
    ∃ wt ∈ added wait arm.source index arms, wt.token = wait := by
  induction arms generalizing index with
  | nil => simp at h
  | cons first arms ih =>
    rw [added]
    rcases mem_cons.mp h with rfl | h
    · rw [if_pos rfl]
      exact ⟨_, mem_cons_self, rfl⟩
    · obtain ⟨wt, hw, hwt⟩ := ih (index + 1) h
      grind

section parked

variable {locked left : Locked V} {wait : TokenId} {task : TaskId} {what : Wait V}

/-- A wait that parks and keeps asking leaves every reader heard. -/
theorem AllAsking.enqueueAll (h : left.AllAsking) (hq : Quiet locked left)
    (hfr : ∀ id, ∀ wt ∈ (left.chan id).queues, wt.token ≠ wait)
    (hb : ∀ arm ∈ what.arms, left.Blocked arm.source)
    (ha : ∀ id, (left.chan id).asked = asksAfter id what.arms (locked.chan id).asked
      (tryOrder what.first what.arms.length))
    (hd : ∀ id, .demand id ∈ what.arms → .recv id ∉ what.arms →
      (left.chan id).asked = false)
    (hk : what.KeepsAsking locked.chan) :
    ((left.newToken wait task what.cancel).enqueueAll wait 0 what.arms).AllAsking := by
  intro id
  have hol (wt) (hw : wt ∈ (left.chan id).queues)
      (hc : (left.newToken wait task what.cancel).peers.claimable wt) :
      left.peers.claimable wt := by
    rwa [claimable_newToken task what.cancel (hfr id wt hw)] at hc
  rw [chan_enqueueAll, peers_enqueueAll]
  constructor
  · intro receiver hr hc
    rcases mem_append.mp hr with hr | hr
    · exact (h id).reader receiver hr (hol receiver (State.mem_queues_of_recvq hr) hc)
    · have hrc := recv_mem_of_added hr
      rw [newToken, ha id]
      rcases (hk id hrc).2 with has | hcp
      · exact has
      · obtain ⟨index, hi, har⟩ := getElem_of_mem hrc
        refine asksAfter_of_recv (fun value hs => ?_)
          ((getElem?_eq_getElem hi).trans (congrArg some har)) (mem_tryOrder hi) _
        -- A send would have found room in the empty buffer.
        obtain ⟨-, hbf, -⟩ := hb _ hrc
        obtain ⟨-, hfl, -⟩ := hb _ hs
        rw [hbf, (hq.still id).capacity] at hfl
        exact hfl hcp
  · intro feeder hf hc
    rcases mem_append.mp hf with hf | hf
    · exact (h id).feeder feeder hf (hol feeder (State.mem_queues_of_demandq hf) hc)
    · have hak := demand_mem_of_added hf
      obtain ⟨ho, hfl⟩ := hb _ hak
      refine State.demand_eq_none.mpr ⟨ho, hd id hak fun hrc => ?_, hfl⟩
      rcases (hk id hrc).1 with hn | hrm
      · exact hn hak
      · obtain ⟨-, hbf, -⟩ := hb _ hrc
        rw [hbf, (hq.still id).room] at hfl
        exact hfl hrm

/-- A wait that parks and leaves every reader heard keeps asking. -/
theorem keepsAsking_of_heard (hq : Quiet locked left)
    (hst : isSet left.peers.flags what.cancel = false)
    (hb : ∀ arm ∈ what.arms, left.Blocked arm.source)
    (has : ∀ id, (left.chan id).asked = asksAfter id what.arms (locked.chan id).asked
      (tryOrder what.first what.arms.length))
    (ha : ∀ id, (locked.chan id).ahead ≤ (locked.chan id).capacity)
    (hh : ∀ id, State.Heard
      (((left.newToken wait task what.cancel).enqueueAll wait 0 what.arms).chan id)
      ((left.newToken wait task what.cancel).enqueueAll wait 0 what.arms).peers) :
    what.KeepsAsking locked.chan := by
  intro id hrc
  have hc (wt : Waiter V) (hw : wt.token = wait) :
      (left.newToken wait task what.cancel).peers.claimable wt := by
    simp [newToken, Peers.claimable, hw, Token.claim, Token.new, TokenState.isWaiting, hst]
  obtain ⟨ho, hbf, -⟩ := hb _ hrc
  have hh := hh id
  rw [chan_enqueueAll, peers_enqueueAll] at hh
  obtain ⟨hrd, hfd⟩ := hh ho
  obtain ⟨receiver, hr, hwt⟩ := exists_mem_added wait 0 hrc
  have hs : (left.chan id).demand.isSome := hrd receiver (mem_append_right _ hr) (hc receiver hwt)
  constructor
  · refine or_iff_not_imp_left.mpr fun hnt => ?_
    have hak : .demand id ∈ what.arms := not_not.mp hnt
    obtain ⟨feeder, hf, hwt'⟩ := exists_mem_added wait 0 hak
    have hn := hfd hs feeder (mem_append_right _ hf)
    exact absurd (hc feeder hwt') (by simp [hn])
  · refine or_iff_not_imp_left.mpr fun hnt => ?_
    have hqt : (left.chan id).asked = false := by
      rw [has id]
      exact eq_false_iff.mpr hnt
    have hrm : 0 < (left.chan id).room := by
      by_contra hz
      have hn : (left.chan id).demand = none :=
        State.demand_eq_none.mpr ⟨ho, hqt, by rw [hbf]; exact hz⟩
      simp [hn] at hs
    rw [(hq.still id).room, State.room] at hrm
    have := ha id
    split_ifs at hrm <;> omega

end parked

end Locked

namespace Waits

/-- A park keeps the readers heard when its wait keeps asking, or does not park. -/
theorem ParkEffect.allAsking {w : World V} {w' : Waits V} {task : TaskId} {wait : Wait V}
    {now : Time} (hk : w.Known) (he : w.toWaits.ParkEffect task wait now w')
    (hm : w.toLocked.Meets) (h : w.toLocked.AllAsking)
    (hkp : (w'.parked w.next).isSome → wait.KeepsAsking w.chan) :
    w'.toLocked.AllAsking := by
  cases he with
  | @ended result resumed locked hs hr _ _ heq =>
    rw [heq]
    suffices hl : locked.All fun state peers => state.Rendezvous peers ∧ state.Asking peers from
      fun id => (State.invariant_asking.fewer (hl id) (Peers.fewer_note _ _)).2
    cases hs with
    | arm hq _ hc =>
      exact hc.all State.invariant_asking fun id =>
        ⟨hq.meets hm id, hq.allAsking h id⟩
    | deadline hq | cancelled hq | expired hq =>
      exact fun id => ⟨hq.meets hm id, hq.allAsking h id⟩
    | parked => cases hr
  | parked hs _ _ _ hp heq =>
    rw [heq]
    cases hs with
    | parked hq hst hb ha hd =>
      refine (hq.allAsking h).enqueueAll hq (fun id wt hw => ?_) hb ha hd
        (hkp (by rw [hp, update_self]; rfl))
      exact token_ne_next hk ((hq.still id).queues hw)

/-- A wait that parks and leaves the readers heard keeps asking. -/
theorem ParkEffect.keepsAsking {w : World V} {w' : Waits V} {task : TaskId} {wait : Wait V}
    {now : Time} (hk : w.Known) (he : w.toWaits.ParkEffect task wait now w')
    (ha : ∀ id, (w.chan id).ahead ≤ (w.chan id).capacity) (hh : ∀ id, (w'.chan id).Heard w'.peers)
    (hp : (w'.parked w.next).isSome) : wait.KeepsAsking w.chan := by
  cases he with
  | ended _ _ _ hpr =>
    rw [hpr, hk.fresh _ (Nat.le_refl _)] at hp
    cases hp
  | parked hs _ _ _ _ heq =>
    rw [heq] at hh
    cases hs with
    | parked hq hst hb has =>
      refine Locked.keepsAsking_of_heard hq ?_ hb has ha hh
      rwa [hq.fires.flags]

end Waits

namespace World

/-- A wait that parks by the operation, if one does, leaves every reader heard. -/
def KeepsAsking (world : World V) : Op V → Prop
  | .park task wait now seen =>
    ((world.park task wait now seen).parked world.next).isSome → wait.KeepsAsking world.chan
  | _ => True

/-- Every reader of every channel is heard. -/
def AllHeard (world : World V) : Prop :=
  ∀ id, (world.chan id).Heard world.peers

theorem allAsking_step {w : World V} (hk : w.Known) (hm : w.toLocked.Meets)
    (h : w.toLocked.AllAsking) {op : Op V} (hkp : w.KeepsAsking op) :
    (w.step op).toLocked.AllAsking := by
  have ht := (step_takes hk op).1
  cases op with
  | park task wait now seen => exact Waits.ParkEffect.allAsking hk ht hm h hkp
  | _ =>
    have ha := Waits.Effect.all ht State.invariant_asking fun id => ⟨hm id, h id⟩
    exact fun id => (ha id).2

theorem keepsAsking_of_allHeard {w : World V} (hk : w.Known)
    (ha : ∀ id, (w.chan id).ahead ≤ (w.chan id).capacity) {op : Op V}
    (hh : (w.step op).AllHeard) : w.KeepsAsking op := by
  have ht := (step_takes hk op).1
  cases op with
  | park task wait now seen => exact Waits.ParkEffect.keepsAsking hk ht ha hh
  | _ => trivial

section run

variable {capacity ahead : ChanId → Nat}

theorem keepsAsking_concat {ops : List (Op V)} {op : Op V}
    (h : ∀ ops' op', ops' ++ [op'] <+: ops ++ [op] →
      ((start capacity ahead).run ops').KeepsAsking op') :
    (∀ ops' op', ops' ++ [op'] <+: ops → ((start capacity ahead).run ops').KeepsAsking op') ∧
      ((start capacity ahead).run ops).KeepsAsking op :=
  ⟨fun ops' op' hp => h ops' op' (hp.trans (prefix_append _ _)), h ops op (prefix_refl _)⟩

/-- The step lemma along a run: as long as every park keeps asking, every reader is heard. -/
theorem allAsking_run (ops : List (Op V)) (hk : ∀ ops' op, ops' ++ [op] <+: ops →
      ((start capacity ahead).run ops').KeepsAsking op) :
    ((start capacity ahead).run ops).toLocked.AllAsking := by
  induction ops using List.reverseRecOn with
  | nil => exact fun id => State.asking_fed id (capacity id) (ahead id) _
  | append_singleton ops op ih =>
    obtain ⟨hb, ht⟩ := keepsAsking_concat hk
    rw [run_concat]
    exact allAsking_step (known_run capacity ahead ops) (meets_run capacity ahead ops) (ih hb) ht

/-- Readers are heard in every state of a run, and no feeder waits while they ask, if and only if
every wait that parks keeps asking: where it receives from a channel, it does not wait to be asked
there too unless the channel has room that its feeder may fill unasked, and of its receives from and
sends to the channel the one tried last is a receive, unless the channel has a buffer. -/
theorem heard_iff_keepsAsking (hahead : ∀ id, ahead id ≤ capacity id) (ops : List (Op V)) :
    (∀ ops', ops' <+: ops → ((start capacity ahead).run ops').AllHeard) ↔
      ∀ ops' op, ops' ++ [op] <+: ops → ((start capacity ahead).run ops').KeepsAsking op := by
  constructor
  · intro hh ops' op hp
    have hs := sized_run capacity ahead ops'
    have hsz (id : ChanId) : (((start capacity ahead).run ops').chan id).ahead ≤
        (((start capacity ahead).run ops').chan id).capacity := by
      rw [(hs id).1, (hs id).2]
      exact hahead id
    have hst := hh _ hp
    rw [run_concat] at hst
    exact keepsAsking_of_allHeard (known_run capacity ahead ops') hsz hst
  · intro hk ops' hp id
    have ha := allAsking_run ops' fun ops'' op hp' => hk ops'' op (hp'.trans hp)
    exact (ha id).heard

end run

/-- A wait with these arms, no deadline and no cancel flag. -/
def selectOf (arms : List (Arm V)) : Wait V :=
  { arms, deadline := none, first := 0, cancel := none, taskDeadline := none }

/-- A select that sends to a channel without a buffer, and then receives from it, leaves its reader
heard. -/
theorem heard_of_select_recv_last :
    ((start (fun _ => 0) fun _ => 0 : World Nat).run
      [.park 0 (selectOf [.send 0 7, .recv 0]) 0 fun _ => false]).AllHeard := by
  refine (heard_iff_keepsAsking (fun _ => Nat.le_refl 0) _).mpr (fun ops' op hp => ?_) _
    List.prefix_rfl
  obtain ⟨rest, hr⟩ := hp
  cases ops' with
  | cons => simp at hr
  | nil =>
    obtain ⟨rfl, -⟩ := List.cons.inj hr
    intro _ id hrc
    obtain rfl : id = 0 := by simpa [selectOf] using hrc
    decide

/-- A select that receives from a channel without a buffer and sends to it parks, and the channel
does not ask. A feeder of the channel that comes now parks as well: it waits to be asked while the
reader waits for a value. -/
theorem select_silences_reader :
    let world := (start (fun _ => 0) fun _ => 0 : World Nat).run
      [.park 0 (selectOf [.recv 0, .send 0 7]) 0 fun _ => false,
        .park 1 (selectOf [.demand 0]) 0 fun _ => false]
    (world.chan 0).closed = none ∧
      (∃ receiver ∈ (world.chan 0).recvq, world.peers.claimable receiver = true) ∧
      (∃ feeder ∈ (world.chan 0).demandq, world.peers.claimable feeder = true) ∧
      (world.chan 0).demand = none := by
  decide

end World

end Silt.Sync

import Mathlib.Data.List.Induction
import Silt.Sync.Park
import Silt.Sync.World

/-!
# What a step can do

Every step of the world is a park, or has one of a few effects on the channels and the tokens. The
invariants of the following files are proved effect by effect.

## Main definitions

* `Silt.Sync.World.Known`: everything on a queue or in the timer belongs to a wait that parked.
* `Silt.Sync.Waits.Effect`: the effects of the steps other than a park.
* `Silt.Sync.Waits.ParkEffect`: the effect of a park.

## Main results

* `Silt.Sync.World.step_takes`: a step has an effect or is a park's, and it keeps `Known`.
* `Silt.Sync.World.run_induction`: a property that every effect keeps holds in every run.
* `Silt.Sync.Waits.Effect.all`: the effects keep what the operations on each channel keep.
-/

namespace Silt.Sync

open List Function

variable {V : Type}

/-- How a wait in this state ended, if its result is there to be taken. -/
def TokenState.resumed : TokenState V → Option (Resumed V)
  | .fired ended => some (.fired ended)
  | .cancelled => some .cancelled
  | .expired => some .expired
  | .armed | .parked | .taken => none

theorem TokenState.isWaiting_of_resumed {state : TokenState V} {result : Resumed V}
    (h : state.resumed = some result) : state.isWaiting = false := by
  cases state <;> first | rfl | cases h

/-- Whether the result is that of an arm. -/
def Resumed.isArm : Resumed V → Bool
  | .fired (.arm _ _) => true
  | .fired .deadline | .cancelled | .expired => false

/-- The wait has ended already, or ends here otherwise than by an arm. -/
def Peers.Ends (peers : Peers V) (wait : TokenId) (peers' : Peers V) : Prop :=
  peers' = peers ∨ ((peers.token wait).state.isWaiting ∧
    ∃ state result wake, TokenState.resumed state = some result ∧ result.isArm = false ∧
      peers' = peers.endWait wait { peers.token wait with state } result wake)

namespace Peers

theorem ends_timeOut (peers : Peers V) (wait : TokenId) : peers.Ends wait (peers.timeOut wait) := by
  rw [timeOut]
  split_ifs with hc
  · simp only [Token.claim, Bool.and_eq_true] at hc
    exact .inr ⟨hc.2, .fired .deadline, _, true, rfl, rfl, rfl⟩
  · exact .inl rfl

theorem ends_expire (peers : Peers V) (wait : TokenId) : peers.Ends wait (peers.expire wait) := by
  rw [expire]
  split_ifs with hc
  · simp only [Token.claim, Bool.and_eq_true] at hc
    exact .inr ⟨hc.2, .expired, _, true, rfl, rfl, rfl⟩
  · exact .inl rfl

theorem ends_cancel (peers : Peers V) (wait : TokenId) : peers.Ends wait (peers.cancel wait) := by
  rw [cancel]
  cases hs : (peers.token wait).state with
  | armed | parked =>
    simp only [Token.cancel, hs, if_true]
    exact .inr ⟨by rw [hs]; rfl, .cancelled, _, true, rfl, rfl, rfl⟩
  | fired | cancelled | expired | taken =>
    simp only [Token.cancel, hs]
    exact .inl rfl

theorem ends_abandon (peers : Peers V) (wait : TokenId) : peers.Ends wait (peers.abandon wait) := by
  rw [abandon]
  cases hs : (peers.token wait).state with
  | armed | parked =>
    simp only [Token.abandon, hs, TokenState.isWaiting, if_true]
    exact .inr ⟨by rw [hs]; rfl, .cancelled, _, false, rfl, rfl, rfl⟩
  | fired | cancelled | expired | taken =>
    exact .inl rfl

end Peers

theorem Timer.mem_insert {id : TimerId} {a : Action} {entry : TimerId × Action}
    {entries : List (TimerId × Action)} (h : entry ∈ Timer.insert id a entries) :
    entry = (id, a) ∨ entry ∈ entries := by
  induction entries with
  | nil => exact .inl (mem_singleton.mp h)
  | cons first entries ih =>
    rw [Timer.insert] at h
    grind

/-- A wait that joins the timer adds one entry, which ends that wait. -/
theorem Times.entries_arm (times : Times) (timer : Timer) (wait : TokenId) :
    (∀ entry ∈ (times.arm timer wait).2.entries,
      entry ∈ timer.entries ∨ entry.2 = .fire wait ∨ entry.2 = .expire wait) ∧
    (times.arm timer wait).2.firing = timer.firing := by
  have hf (deadline : Time) (entry) (h : entry ∈ (timer.arm deadline (.fire wait)).2.entries) :
      entry ∈ timer.entries ∨ entry.2 = .fire wait ∨ entry.2 = .expire wait := by
    rcases Timer.mem_insert h with rfl | h
    · exact .inr (.inl rfl)
    · exact .inl h
  have hex (deadline : Time) (entry) (h : entry ∈ (timer.arm deadline (.expire wait)).2.entries) :
      entry ∈ timer.entries ∨ entry.2 = .fire wait ∨ entry.2 = .expire wait := by
    rcases Timer.mem_insert h with rfl | h
    · exact .inr (.inr rfl)
    · exact .inl h
  rw [Times.arm]
  split
  · split_ifs
    · exact ⟨hf _, rfl⟩
    · exact ⟨hex _, rfl⟩
  · exact ⟨hex _, rfl⟩
  · exact ⟨hf _, rfl⟩
  · exact ⟨fun _ he => .inl he, rfl⟩

namespace Waits

variable {w w' : Waits V}

/-- What the waiter is queued on, by the wait that it belongs to. -/
def sourceOf (world : Waits V) (waiter : Waiter V) : Option Source :=
  (world.parked waiter.token).bind fun parked => parked.sources[waiter.arm]?

/-- The wait that the timer is to end has parked. -/
def Armed (world : Waits V) : Action → Prop
  | .fire token | .expire token => (world.parked token).isSome
  | .close _ => True

/-- The waits that have parked are the same ones. -/
structure Keeps (world world' : Waits V) : Prop where
  next : world'.next = world.next
  sources : ∀ wait,
    (world'.parked wait).map Parked.sources = (world.parked wait).map Parked.sources

/-- The waits that have parked are the same ones, and the same of their tasks went on. -/
structure Stays (world world' : Waits V) : Prop extends Keeps world world' where
  finished : ∀ wait,
    (world'.parked wait).map Parked.finished = (world.parked wait).map Parked.finished

/-- The effects on the channels and the tokens of the steps other than a park. -/
inductive Effect (world world' : Waits V) : Prop
  | none (hstays : world.Stays world') (h : world'.toLocked = world.toLocked)
  | send {id value result state peers} (hstays : world.Stays world')
      (hsend : State.SendSpec (world.chan id) world.peers value result state peers)
      (h : world'.toLocked = world.toLocked.set id state
        (peers.noteReturn id none (some value) result.outcome))
  | receive {id result state peers} (hstays : world.Stays world')
      (hreceive : State.ReceiveSpec (world.chan id) world.peers result state peers)
      (h : world'.toLocked = world.toLocked.set id state
        (peers.noteReturn id none none result.outcome))
  | close {id} (how : Close) (hstays : world.Stays world')
      (h : world'.toLocked = world.toLocked.set id ((world.chan id).close world.peers how).2.1
        ((world.chan id).close world.peers how).2.2)
  | drain {id} (hstays : world.Stays world')
      (h : world'.toLocked = world.toLocked.set id ((world.chan id).drain world.peers).1
        ((world.chan id).drain world.peers).2)
  | forget {id wait} (hstays : world.Stays world')
      (hended : (world.peers.token wait).state.isWaiting = false)
      (h : world'.toLocked = world.toLocked.set id ((world.chan id).forget world.peers wait)
        world.peers)
  | fireCell {id waiter} (hstays : world.Stays world')
      (hsource : world.sourceOf waiter = some (.cell id)) (hclaim : world.peers.claimable waiter)
      (h : world'.toLocked =
        { world.toLocked with peers := world.peers.fire (.cell id) waiter .done })
  | ended {wait state result wake} (hstays : world.Stays world')
      (hparked : (world.parked wait).isSome)
      (hopen : (world.peers.token wait).state.isWaiting)
      (hresumed : TokenState.resumed state = some result) (harm : result.isArm = false)
      (h : world'.toLocked = { world.toLocked with
        peers := world.peers.endWait wait { world.peers.token wait with state } result wake })
  | commit {wait} (hstays : world.Stays world') (hparked : (world.parked wait).isSome)
      (h : world'.toLocked = { world.toLocked with peers := world.peers.commit wait })
  | setFlag (flag : FlagId) (hstays : world.Stays world')
      (h : world'.toLocked = { world.toLocked with peers := world.peers.setFlag flag })
  | take {wait parked result token} (hkeeps : world.Keeps world')
      (hparked : world.parked wait = some parked) (hfinished : parked.finished = false)
      (htake : (world.peers.token wait).take = .ok (some result, token))
      (hparked' : world'.parked = update world.parked wait
        (some { parked with finished := true }))
      (h : world'.toLocked = { world.toLocked with
        peers := ({ world.peers with
          token := update world.peers.token wait token }).note (.resumed wait result) })

/-- The effect of a park: the channels and the tokens as its locks leave them, and the result in the
log or the wait among the parked ones. -/
inductive ParkEffect (world : Waits V) (task : TaskId) (wait : Wait V) (now : Time)
    (world' : Waits V) : Prop
  | ended {result resumed locked}
      (hspec : Locked.ParkSpec world.toLocked world.next task wait now result locked)
      (hresumed : result.resumed = some resumed)
      (hnext : world'.next = world.next + 1) (hparked : world'.parked = world.parked)
      (h : world'.toLocked =
        { locked with peers := locked.peers.note (.ended world.next resumed) })
  | parked {locked parked}
      (hspec : Locked.ParkSpec world.toLocked world.next task wait now .parked locked)
      (hsources : parked.sources = wait.arms.map Arm.source) (hfinished : parked.finished = false)
      (hnext : world'.next = world.next + 1)
      (hparked : world'.parked = update world.parked world.next (some parked))
      (h : world'.toLocked = locked)

theorem Stays.of_eq (hn : w'.next = w.next) (hp : w'.parked = w.parked) : Stays w w' :=
  ⟨⟨hn, fun _ => by rw [hp]⟩, fun _ => by rw [hp]⟩

theorem Keeps.isSome_parked (h : Keeps w w') (wait : TokenId) :
    (w'.parked wait).isSome = (w.parked wait).isSome := by
  have hs := congrArg Option.isSome (h.sources wait)
  rwa [Option.isSome_map, Option.isSome_map] at hs

theorem sourceOf_eq (w : Waits V) (waiter : Waiter V) :
    w.sourceOf waiter =
      ((w.parked waiter.token).map Parked.sources).bind fun sources => sources[waiter.arm]? := by
  rw [sourceOf, Option.bind_map]
  rfl

theorem Keeps.sourceOf (h : Keeps w w') (waiter : Waiter V) :
    w'.sourceOf waiter = w.sourceOf waiter := by
  rw [sourceOf_eq, sourceOf_eq, h.sources]

theorem Keeps.armed (h : Keeps w w') (a : Action) : w'.Armed a ↔ w.Armed a := by
  cases a <;> simp only [Armed, h.isSome_parked]

/-- The task of a wait goes on, or the wait joins the timer: what it is queued on stays. -/
theorem keeps_update {wait : TokenId} {parked parked' : Parked}
    (hp : w.parked wait = some parked) (hs : parked'.sources = parked.sources)
    (locked : Locked V) :
    w.Keeps { w with
      toLocked := locked
      parked := update w.parked wait (some parked') } := by
  refine ⟨rfl, fun other => ?_⟩
  grind

end Waits

namespace World

open Waits

variable {w : World V}

/-- Everything on a queue or in the timer belongs to a wait that parked. -/
structure Known (world : World V) : Prop where
  fresh : ∀ wait, world.next ≤ wait → world.parked wait = none
  id : ∀ id, (world.chan id).id = id
  recvq : ∀ id, ∀ waiter ∈ (world.chan id).recvq, world.sourceOf waiter = some (.recv id)
  sendq : ∀ id, ∀ waiter ∈ (world.chan id).sendq, world.sourceOf waiter = some (.send id)
  demandq : ∀ id, ∀ waiter ∈ (world.chan id).demandq, world.sourceOf waiter = some (.demand id)
  paid : world.toLocked.Paid
  waiters : ∀ id, ∀ waiter ∈ (world.cell id).waiters, world.sourceOf waiter = some (.cell id)
  firing : ∀ id, ∀ waiter ∈ (world.cell id).firing, world.sourceOf waiter = some (.cell id)
  entries : ∀ entry ∈ world.timer.entries, world.Armed entry.2
  due : ∀ action ∈ world.timer.firing, world.Armed action

/-! ### The waits of the waiters are known -/

/-- Waiters leave the queues, and everything that is on a queue of a cell or in the timer now is of
a wait that parked. -/
theorem Known.mono {w' : World V} (h : Known w) (hk : w.toWaits.Keeps w'.toWaits)
    (hc : ∀ id, (w'.chan id).Shrinks (w.chan id))
    (hwt : ∀ id, ∀ waiter ∈ (w'.cell id).waiters, w.sourceOf waiter = some (.cell id))
    (hf : ∀ id, ∀ waiter ∈ (w'.cell id).firing, w.sourceOf waiter = some (.cell id))
    (hen : ∀ entry ∈ w'.timer.entries, w.Armed entry.2)
    (hd : ∀ a ∈ w'.timer.firing, w.Armed a) : Known w' where
  fresh wait hwa := by
    have hn := h.fresh wait (hk.next ▸ hwa)
    have hsr := hk.sources wait
    rwa [hn, Option.map_none, Option.map_eq_none_iff] at hsr
  id id := (hc id).id.trans (h.id id)
  recvq id waiter hw := (hk.sourceOf waiter).trans (h.recvq id waiter ((hc id).recvq hw))
  sendq id waiter hw := (hk.sourceOf waiter).trans (h.sendq id waiter ((hc id).sendq hw))
  demandq id waiter hw := (hk.sourceOf waiter).trans (h.demandq id waiter ((hc id).demandq hw))
  paid id sender hs := h.paid id sender ((hc id).sendq hs)
  waiters id waiter hw := (hk.sourceOf waiter).trans (hwt id waiter hw)
  firing id waiter hw := (hk.sourceOf waiter).trans (hf id waiter hw)
  entries entry he := (hk.armed entry.2).mpr (hen entry he)
  due a ha := (hk.armed a).mpr (hd a ha)

theorem Known.mono_locked (h : Known w) {locked : Locked V}
    (hc : ∀ id, (locked.chan id).Shrinks (w.chan id)) :
    Known { w with toLocked := locked } :=
  h.mono ⟨rfl, fun _ => rfl⟩ hc h.waiters h.firing h.entries h.due

theorem Known.set (h : Known w) {id : ChanId} {state : State V}
    (hs : state.Shrinks (w.chan id)) (peers : Peers V) :
    Known { w with toLocked := w.toLocked.set id state peers } :=
  h.mono_locked (Locked.shrinks_set hs peers)

theorem Known.mono_cell (h : Known w) {id : CellId} {cell : CellState V}
    (hwt : ∀ waiter ∈ cell.waiters, w.sourceOf waiter = some (.cell id))
    (hf : ∀ waiter ∈ cell.firing, w.sourceOf waiter = some (.cell id)) :
    Known { w with cell := update w.cell id cell } := by
  refine h.mono ⟨rfl, fun _ => rfl⟩ (fun _ => State.Shrinks.refl _) ?_ ?_ h.entries h.due
  · intro other waiter hw
    by_cases ho : other = id
    · grind
    · exact h.waiters other waiter (by simpa only [update_of_ne ho] using hw)
  · intro other waiter hw
    by_cases ho : other = id
    · subst ho
      exact hf waiter (by simpa only [update_self] using hw)
    · exact h.firing other waiter (by simpa only [update_of_ne ho] using hw)

theorem Known.mono_timer (h : Known w) {timer : Timer}
    (he : ∀ entry ∈ timer.entries, w.Armed entry.2)
    (hd : ∀ a ∈ timer.firing, w.Armed a) : Known { w with timer } :=
  h.mono ⟨rfl, fun _ => rfl⟩ (fun _ => State.Shrinks.refl _) h.waiters h.firing he hd

/-! ### The effects of the steps -/

/-- What a step of a world whose waits are known does: it has an effect, and the waits are known
still. -/
def Does (world world' : World V) : Prop :=
  world.toWaits.Effect world'.toWaits ∧ Known world'

section Does

variable {waiter : Waiter V}

variable {w : World V}

section

variable (h : Known w)

include h

theorem does_nothing : Does w w := ⟨.none (.of_eq rfl rfl) rfl, h⟩

theorem does_trySend (id : ChanId) (value : V) : Does w (w.step (.trySend id value)) := by
  obtain ⟨state, peers, hsn, hs⟩ := Locked.trySend_spec
    (Prod.eta (w.toLocked.trySend none id value)).symm
  simp only [step, hs]
  exact ⟨.send (.of_eq rfl rfl) hsn rfl, h.set hsn.shrinks.1 _⟩

theorem does_tryReceive (id : ChanId) : Does w (w.step (.tryReceive id)) := by
  obtain ⟨state, peers, hr, hs⟩ := Locked.tryReceive_spec h.paid
    (Prod.eta (w.toLocked.tryReceive none id)).symm
  simp only [step, hs]
  exact ⟨.receive (.of_eq rfl rfl) hr rfl, h.set hr.shrinks.1 _⟩

theorem does_close (id : ChanId) (how : Close) :
    Does w (w.onChan id ((w.chan id).close w.peers how).2) :=
  ⟨.close how (.of_eq rfl rfl) rfl, h.set (State.shrinks_close _ _ _).1 _⟩

theorem does_drain (id : ChanId) : Does w (w.step (.drain id)) :=
  ⟨.drain (.of_eq rfl rfl) rfl, h.set (State.shrinks_drain _ _).1 _⟩

theorem does_onPeers {wait : TokenId} {peers : Peers V} (hp : (w.parked wait).isSome)
    (he : w.peers.Ends wait peers) : Does w (w.onPeers peers) := by
  refine ⟨?_, h.mono_locked fun _ => State.Shrinks.refl _⟩
  rcases he with rfl | ⟨ho, state, result, wake, hr, harm, rfl⟩
  · exact .none (.of_eq rfl rfl) rfl
  · exact .ended (.of_eq rfl rfl) hp ho hr harm rfl

theorem does_fireCell {id : CellId} (hs : w.sourceOf waiter = some (.cell id)) :
    Does w (w.fireCell id waiter) := by
  rw [fireCell]
  split_ifs with hc
  · exact ⟨.fireCell (.of_eq rfl rfl) hs hc rfl, h.mono_locked fun _ => State.Shrinks.refl _⟩
  · exact does_nothing h

theorem does_enqueueCell (wait : TokenId) (index : Nat) : Does w (w.enqueueCell wait index) := by
  simp only [enqueueCell]
  split
  next id hs =>
    split_ifs
    · exact does_fireCell h hs
    · refine ⟨.none (.of_eq rfl rfl) rfl, h.mono_cell ?_ (h.firing id)⟩
      intro waiter hw
      rcases mem_append.mp hw with hw | hw
      · exact h.waiters id waiter hw
      · obtain rfl := mem_singleton.mp hw
        exact hs
  next => exact does_nothing h

theorem does_armTimer (wait : TokenId) : Does w (w.armTimer wait) := by
  simp only [armTimer]
  split
  next parked hp =>
    split_ifs
    · obtain ⟨hen, hf⟩ := Times.entries_arm parked.times w.timer wait
      have hs : (w.parked wait).isSome := by rw [hp]; rfl
      have hk := Waits.keeps_update hp
        (rfl : ({ parked with timer := (parked.times.arm w.timer wait).1 }).sources = _)
        w.toLocked
      refine ⟨.none ⟨hk, fun other => ?_⟩ rfl,
        h.mono hk (fun _ => State.Shrinks.refl _) h.waiters h.firing ?_ ?_⟩
      · grind
      · intro entry he
        rcases hen entry he with he | he | he
        · exact h.entries entry he
        · rw [he]
          exact hs
        · rw [he]
          exact hs
      · intro a ha
        rw [hf] at ha
        exact h.due a ha
    · exact does_nothing h
  next => exact does_nothing h

theorem does_finish (wait : TokenId) : Does w (w.finish wait) := by
  rw [finish]
  split
  next parked hp =>
    split_ifs with hf
    · exact does_nothing h
    · split
      next result token ht =>
        have hk := Waits.keeps_update hp (rfl : ({ parked with finished := true }).sources = _)
          { w.toLocked with peers := ({ w.peers with
            token := update w.peers.token wait token }).note (.resumed wait result) }
        exact ⟨.take hk hp (by simpa using hf) ht rfl rfl,
          h.mono hk (fun _ => State.Shrinks.refl _) h.waiters h.firing h.entries h.due⟩
      next => exact does_nothing h
      next => exact does_nothing h
  next => exact does_nothing h

theorem does_forget (wait : TokenId) (index : Nat) : Does w (w.forget wait index) := by
  simp only [forget]
  split_ifs with ho
  · exact does_nothing h
  · simp only [Bool.or_eq_true, not_or, Bool.not_eq_true] at ho
    split
    · exact ⟨.forget (.of_eq rfl rfl) ho.1 rfl, h.set (State.shrinks_forget _ _ _) _⟩
    · exact ⟨.forget (.of_eq rfl rfl) ho.1 rfl, h.set (State.shrinks_forget _ _ _) _⟩
    · exact ⟨.forget (.of_eq rfl rfl) ho.1 rfl, h.set (State.shrinks_forget _ _ _) _⟩
    next id _ =>
      refine ⟨.none (.of_eq rfl rfl) rfl, h.mono_cell (fun waiter hw => ?_) (h.firing id)⟩
      exact h.waiters id waiter (mem_filter.mp hw).1
    next => exact does_nothing h

theorem does_carryOut {a : Action} (ha : w.Armed a) : Does w (w.carryOut a) := by
  cases a with
  | fire token => exact does_onPeers h ha (Peers.ends_timeOut _ _)
  | expire token => exact does_onPeers h ha (Peers.ends_expire _ _)
  | close id => exact does_close h id _

theorem does_fireNext (id : CellId) : Does w (w.step (.fireNext id)) := by
  simp only [step]
  split
  · exact does_nothing h
  next waiter firing hf =>
    have hm (other) (hw : other ∈ waiter :: firing) : w.sourceOf other = some (.cell id) :=
      h.firing id other (hf ▸ hw)
    have hk : Known { w with
        cell := update w.cell id { w.cell id with firing } } :=
      h.mono_cell (h.waiters id) fun other hw => hm other (mem_cons_of_mem _ hw)
    exact does_fireCell hk (hm waiter mem_cons_self)

theorem does_takeQueue (id : CellId) : Does w (w.step (.takeQueue id)) := by
  simp only [step]
  split_ifs
  · refine ⟨.none (.of_eq rfl rfl) rfl, h.mono_cell (by simp) fun waiter hw => ?_⟩
    rcases mem_append.mp hw with hw | hw
    · exact h.firing id waiter hw
    · exact h.waiters id waiter hw
  · exact does_nothing h

theorem does_fireDue (now : Time) (failed : Bool) : Does w (w.step (.fireDue now failed)) := by
  refine ⟨.none (.of_eq rfl rfl) rfl, h.mono_timer ?_ ?_⟩
  · intro entry he
    exact h.entries entry (mem_filter.mp he).1
  · intro a ha
    rcases mem_append.mp ha with ha | ha
    · exact h.due a ha
    · obtain ⟨entry, he, rfl⟩ := mem_map.mp ha
      exact h.entries entry (mem_filter.mp he).1

theorem does_runDue (index : Nat) : Does w (w.step (.carryOut index)) := by
  simp only [step]
  split
  · exact does_nothing h
  next a hac =>
    have hm : a ∈ w.timer.firing := mem_of_getElem? hac
    have hk : Known { w with
        timer := { w.timer with firing := w.timer.firing.eraseIdx index } } :=
      h.mono_timer h.entries fun a ha => h.due a (mem_of_mem_eraseIdx ha)
    exact does_carryOut hk (h.due a hm)

theorem does_closeAt (id : ChanId) (deadline : Time) : Does w (w.step (.closeAt id deadline)) := by
  refine ⟨.none (.of_eq rfl rfl) rfl, h.mono_timer (fun entry he => ?_) h.due⟩
  rcases Timer.mem_insert he with rfl | he
  · trivial
  · exact h.entries entry he

theorem does_disarm (wait : TokenId) : Does w (w.step (.disarm wait)) := by
  simp only [step]
  split
  · exact ⟨.none (.of_eq rfl rfl) rfl,
      h.mono_timer (fun entry he => h.entries entry (mem_filter.mp he).1) h.due⟩
  · exact does_nothing h

theorem park_effect (task : TaskId) (wait : Wait V) (now : Time) (seen : CellId → Bool) :
    w.toWaits.ParkEffect task wait now (w.park task wait now seen).toWaits := by
  cases hp : w.toLocked.park w.next task wait now (fun id => seen id && (w.cell id).done) with
  | mk result locked =>
    have hs := Locked.park_spec h.paid hp
    cases hr : result.resumed with
    | none =>
      simp only [park, hp, hr]
      cases hs with
      | parked => exact .parked (Locked.park_spec h.paid hp) rfl rfl rfl rfl rfl
      | arm | deadline | cancelled | expired => cases hr
    | some resumed =>
      simp only [park, hp, hr]
      exact .ended hs hr rfl rfl rfl

theorem Known.next : Known { w with next := w.next + 1 } :=
  { h with fresh := fun wait hw => h.fresh wait (Nat.le_of_succ_le hw) }

/-- A wait parks: what is known of the others stays. -/
theorem sourceOf_park {source : Source} (hs : w.sourceOf waiter = some source) (parked : Parked) :
    (update w.parked w.next (some parked) waiter.token).bind
      (fun parked => parked.sources[waiter.arm]?) = some source := by
  have hne : waiter.token ≠ w.next := by
    intro heq
    rw [sourceOf, heq, h.fresh w.next (Nat.le_refl _)] at hs
    cases hs
  rwa [update_of_ne hne]

end

/-- The waiters that a park adds are of the wait that parks. -/
theorem sourceOf_added {wait : TokenId} {source : Source} {arms : List (Arm V)}
    (hw : waiter ∈ Locked.added wait source 0 arms) {parked : Parked}
    (hsr : parked.sources = arms.map Arm.source) :
    (update w.parked wait (some parked) waiter.token).bind
      (fun parked => parked.sources[waiter.arm]?) = some source := by
  obtain ⟨k, arm, harm, hs, rfl⟩ := Locked.mem_added hw
  grind

theorem Known.parks (h : Known w) {task : TaskId} {wait : Wait V} {now : Time}
    {locked : Locked V} {parked : Parked}
    (hsp : Locked.ParkSpec w.toLocked w.next task wait now .parked locked)
    (hsr : parked.sources = wait.arms.map Arm.source) :
    Known { w with
      toLocked := locked
      next := w.next + 1
      parked := update w.parked w.next (some parked) } := by
  cases hsp with
  | @parked left hq hs hb has =>
    have hc (id : ChanId) := Locked.chan_enqueueAll
      (left.newToken w.next task wait.cancel) w.next 0 wait.arms id
    have har (a : Action) (ha : w.Armed a) : Armed
        { w with
          parked := update w.parked w.next (some parked) } a := by
      cases a with
      | fire token | expire token =>
        by_cases ht : token = w.next
        · simp only [Waits.Armed, ht, update_self, Option.isSome_some]
        · simpa only [Waits.Armed, update_of_ne ht] using ha
      | close id => trivial
    constructor
    case fresh =>
      intro other ho
      have hne : other ≠ w.next := by
        rintro rfl
        exact absurd ho (Nat.not_succ_le_self _)
      exact (update_of_ne hne ..).trans (h.fresh other (Nat.le_of_succ_le ho))
    case id =>
      intro id
      simp only [hc]
      exact (hq.still id).id.trans (h.id id)
    case recvq =>
      intro id waiter hw
      simp only [hc] at hw
      rcases mem_append.mp hw with hw | hw
      · exact sourceOf_park h (h.recvq id waiter ((hq.still id).recvq hw)) parked
      · exact sourceOf_added hw hsr
    case sendq =>
      intro id waiter hw
      simp only [hc] at hw
      rcases mem_append.mp hw with hw | hw
      · exact sourceOf_park h (h.sendq id waiter ((hq.still id).sendq hw)) parked
      · exact sourceOf_added hw hsr
    case demandq =>
      intro id waiter hw
      simp only [hc] at hw
      rcases mem_append.mp hw with hw | hw
      · exact sourceOf_park h (h.demandq id waiter ((hq.still id).demandq hw)) parked
      · exact sourceOf_added hw hsr
    case paid =>
      intro id waiter hw
      simp only [hc] at hw
      rcases mem_append.mp hw with hw | hw
      · exact h.paid id waiter ((hq.still id).sendq hw)
      · obtain ⟨k, arm, -, hso, rfl⟩ := Locked.mem_added hw
        cases arm with
        | send chan value => rfl
        | recv | demand | cell => cases hso
    case waiters => exact fun id waiter hw => sourceOf_park h (h.waiters id waiter hw) parked
    case firing => exact fun id waiter hw => sourceOf_park h (h.firing id waiter hw) parked
    case entries => exact fun entry he => har entry.2 (h.entries entry he)
    case due => exact fun a ha => har a (h.due a ha)

theorem Known.park (h : Known w) (task : TaskId) (wait : Wait V) (now : Time)
    (seen : CellId → Bool) : Known (w.park task wait now seen) := by
  cases hp : w.toLocked.park w.next task wait now (fun id => seen id && (w.cell id).done) with
  | mk result locked =>
    have hs := Locked.park_spec h.paid hp
    cases hrs : result.resumed with
    | none =>
      simp only [World.park, hp, hrs]
      have hr : result = .parked := by
        cases result <;> first | rfl | cases hrs
      subst hr
      exact h.parks hs rfl
    | some resumed =>
      simp only [World.park, hp, hrs]
      have hk : Known { w with
          chan := locked.chan
          peers := locked.peers.note (.ended w.next resumed) } :=
        h.mono_locked fun id => hs.shrinks hrs id
      exact hk.next

end Does

end World

namespace Waits

variable {w w' : Waits V}

/-- What the step of an operation does to the channels, the tokens and the waits. -/
def Takes (world : Waits V) (op : Op V) (world' : Waits V) : Prop :=
  match op with
  | .park task wait now _ => world.ParkEffect task wait now world'
  | _ => world.Effect world'

theorem Effect.keeps (h : w.Effect w') : w.Keeps w' := by
  cases h with
  | none hs | send hs | receive hs | close _ hs | drain hs | forget hs
  | fireCell hs | ended hs | commit hs | setFlag _ hs => exact hs.toKeeps
  | take hk => exact hk

/-- The size of each channel, and how far ahead its feeder may go, stay as they are. -/
def Sized (world : Waits V) (capacity ahead : ChanId → Nat) : Prop :=
  ∀ id, (world.chan id).capacity = capacity id ∧ (world.chan id).ahead = ahead id

theorem Effect.shrinks (h : w.Effect w') (id : ChanId) : (w'.chan id).Shrinks (w.chan id) := by
  cases h with
  | none _ heq | fireCell _ _ _ heq | ended _ _ _ _ _ heq | commit _ _ heq | setFlag _ _ heq
  | take _ _ _ _ _ heq =>
    rw [heq]
    exact State.Shrinks.refl _
  | send _ hs heq =>
    rw [heq]
    exact Locked.shrinks_set hs.shrinks.1 _ id
  | receive _ hr heq =>
    rw [heq]
    exact Locked.shrinks_set hr.shrinks.1 _ id
  | close how _ heq =>
    rw [heq]
    exact Locked.shrinks_set (State.shrinks_close _ _ _).1 _ id
  | drain _ heq =>
    rw [heq]
    exact Locked.shrinks_set (State.shrinks_drain _ _).1 _ id
  | forget _ _ heq =>
    rw [heq]
    exact Locked.shrinks_set (State.shrinks_forget _ _ _) _ id

theorem Takes.sized {op : Op V} {capacity ahead : ChanId → Nat} (ht : w.Takes op w')
    (h : w.Sized capacity ahead) : w'.Sized capacity ahead := by
  intro id
  have hsz {state : State V} (hs : state.Shrinks (w.chan id)) :
      state.capacity = capacity id ∧ state.ahead = ahead id :=
    ⟨hs.capacity.trans (h id).1, hs.ahead.trans (h id).2⟩
  cases op with
  | park task wait now seen =>
    cases (ht : w.ParkEffect task wait now w') with
    | ended hsp hr _ _ heq =>
      rw [heq]
      exact hsz (hsp.shrinks hr id)
    | parked hsp _ _ _ _ heq =>
      rw [heq]
      cases hsp with
      | parked hq =>
        have hl := hsz (hq.still id).toShrinks
        rwa [Locked.chan_enqueueAll]
  | _ => exact hsz (Effect.shrinks ht id)

end Waits

/-! ### Invariants of single channels -/

/-- A property of a channel and the tokens that the operations on the channel keep, and that is kept
when waiters cannot be claimed any more. -/
structure State.Invariant (I : State V → Peers V → Prop) : Prop where
  fewer : ∀ {state : State V} {peers peers' : Peers V},
    I state peers → peers'.Fewer peers → I state peers'
  send : ∀ {state state' : State V} {peers peers' : Peers V} {value : V} {result : TrySend V},
    I state peers → State.SendSpec state peers value result state' peers' → I state' peers'
  receive : ∀ {state state' : State V} {peers peers' : Peers V} {result : TryReceive V},
    I state peers → State.ReceiveSpec state peers result state' peers' → I state' peers'
  close : ∀ {state : State V} {peers : Peers V}, I state peers → ∀ how,
    I (state.close peers how).2.1 (state.close peers how).2.2
  drain : ∀ {state : State V} {peers : Peers V}, I state peers →
    I (state.drain peers).1 (state.drain peers).2
  forget : ∀ {state : State V} {peers : Peers V}, I state peers → ∀ token,
    I (state.forget peers token) peers

namespace Locked

/-- The property holds of every channel. -/
def All (I : State V → Peers V → Prop) (locked : Locked V) : Prop :=
  ∀ id, I (locked.chan id) locked.peers

variable {I : State V → Peers V → Prop} (hI : State.Invariant I) {locked locked' : Locked V}

include hI

theorem All.fewer (h : locked.All I) {peers : Peers V} (hf : peers.Fewer locked.peers) :
    All I { locked with peers } :=
  fun id => hI.fewer (h id) hf

theorem All.set (h : locked.All I) {id : ChanId} {state : State V} {peers peers' : Peers V}
    (hs : I state peers) (hf : peers.Fewer locked.peers)
    (hf' : peers'.Fewer peers) : (locked.set id state peers').All I := by
  intro other
  by_cases ho : other = id
  · subst ho
    rw [chan_set_self]
    exact hI.fewer hs hf'
  · rw [chan_set_of_ne _ _ _ ho]
    exact hI.fewer (h other) (hf'.trans hf)

theorem Completes.all {wait : TokenId} {index : Nat} {arm : Arm V} {outcome : Outcome V}
    (hc : Completes locked wait index arm outcome locked') (h : locked.All I) : locked'.All I := by
  cases hc with
  | recv hr =>
    exact h.set hI (hI.receive (h _) hr) hr.shrinks.2.fewer (Peers.fewer_note _ _)
  | send hs =>
    exact h.set hI (hI.send (h _) hs) hs.shrinks.2.fewer (Peers.fewer_note _ _)
  | demand | cell => exact h

end Locked

namespace Peers

/-- Nobody becomes claimable when a task takes the result of its wait. -/
theorem fewer_take {peers : Peers V} {wait : TokenId} {result : Resumed V} {token : Token V}
    (h : (peers.token wait).take = .ok (some result, token)) :
    Fewer { peers with token := update peers.token wait token } peers := by
  intro waiter hc
  by_cases ht : waiter.token = wait
  · have he : token.state.isWaiting = false := by
      rw [Token.take] at h
      cases hs : (peers.token wait).state <;> rw [hs] at h <;> cases h <;>
        simp only [hs, TokenState.isWaiting]
    simp [claimable, Token.claim, ht, he] at hc
  · simpa [claimable, ht] using hc

end Peers

/-- The effects keep what the operations on each channel keep. -/
theorem Waits.Effect.all {I : State V → Peers V → Prop} {w w' : Waits V} (he : w.Effect w')
    (hI : State.Invariant I) (h : w.toLocked.All I) : w'.toLocked.All I := by
  cases he with
  | none _ heq => rwa [heq]
  | send _ hs heq =>
    rw [heq]
    exact h.set hI (hI.send (h _) hs) hs.shrinks.2.fewer (Peers.fewer_noteReturn _ _ _ _ _)
  | receive _ hr heq =>
    rw [heq]
    exact h.set hI (hI.receive (h _) hr) hr.shrinks.2.fewer (Peers.fewer_noteReturn _ _ _ _ _)
  | close how _ heq =>
    rw [heq]
    exact h.set hI (hI.close (h _) how) (State.shrinks_close _ _ _).2.fewer (.refl _)
  | drain _ heq =>
    rw [heq]
    exact h.set hI (hI.drain (h _)) (State.shrinks_drain _ _).2.fewer (.refl _)
  | forget _ _ heq =>
    rw [heq]
    exact h.set hI (hI.forget (h _) _) (.refl _) (.refl _)
  | fireCell _ _ _ heq =>
    rw [heq]
    exact h.fewer hI (Peers.fewer_fire _ _ _ _)
  | ended _ _ _ hrs _ heq =>
    rw [heq]
    exact h.fewer hI (Peers.fewer_endWait _ _ _ _ (TokenState.isWaiting_of_resumed hrs))
  | commit _ _ heq =>
    rw [heq]
    exact h.fewer hI fun waiter hc => by rwa [Peers.claimable_commit] at hc
  | setFlag flag _ heq =>
    rw [heq]
    exact h.fewer hI (Peers.fewer_setFlag _ _)
  | take _ _ _ ht _ heq =>
    rw [heq]
    exact h.fewer hI ((Peers.fewer_note _ _).trans (Peers.fewer_take ht))

namespace World

/-- What a step does, when everything on the queues and in the timer is known. -/
theorem step_takes {w : World V} (h : Known w) (op : Op V) :
    w.toWaits.Takes op (w.step op).toWaits ∧ Known (w.step op) := by
  cases op with
  | trySend id value => exact does_trySend h id value
  | tryReceive id => exact does_tryReceive h id
  | close id how => exact does_close h id how
  | drain id => exact does_drain h id
  | park task wait now seen => exact ⟨park_effect h task wait now seen, h.park task wait now seen⟩
  | enqueueCell wait index => exact does_enqueueCell h wait index
  | armTimer wait => exact does_armTimer h wait
  | commit wait =>
    simp only [step]
    split_ifs with hp
    · exact ⟨.commit (.of_eq rfl rfl) hp rfl, h.mono_locked fun _ => State.Shrinks.refl _⟩
    · exact does_nothing h
  | cancel wait =>
    simp only [step]
    split_ifs with hp
    · exact does_onPeers h hp (Peers.ends_cancel _ _)
    · exact does_nothing h
  | finish wait => exact does_finish h wait
  | abandon wait =>
    simp only [step]
    split_ifs with hp
    · exact does_onPeers h hp (Peers.ends_abandon _ _)
    · exact does_nothing h
  | forget wait index => exact does_forget h wait index
  | disarm wait => exact does_disarm h wait
  | setFlag flag =>
    exact ⟨.setFlag flag (.of_eq rfl rfl) rfl, h.mono_locked fun _ => State.Shrinks.refl _⟩
  | complete id =>
    exact ⟨.none (.of_eq rfl rfl) rfl, h.mono_cell (h.waiters id) (h.firing id)⟩
  | takeQueue id => exact does_takeQueue h id
  | fireNext id => exact does_fireNext h id
  | closeAt id deadline => exact does_closeAt h id deadline
  | fireDue now failed => exact does_fireDue h now failed
  | carryOut index => exact does_runDue h index

theorem known_start (capacity ahead : ChanId → Nat) : Known (start capacity ahead : World V) where
  fresh _ _ := rfl
  id _ := rfl
  recvq := by simp [start, State.fed]
  sendq := by simp [start, State.fed]
  demandq := by simp [start, State.fed]
  paid := by simp [Locked.Paid, start, State.fed]
  waiters := by simp [start]
  firing := by simp [start]
  entries := by simp [start]
  due := by simp [start]

theorem run_concat (w : World V) (ops : List (Op V)) (op : Op V) :
    w.run (ops ++ [op]) = (w.run ops).step op := by
  rw [run, foldl_append]
  rfl

theorem known_run (capacity ahead : ChanId → Nat) (ops : List (Op V)) :
    Known ((start capacity ahead).run ops) :=
  List.foldlRecOn (motive := Known) ops step (known_start capacity ahead)
    fun _ h op _ => (step_takes h op).2

/-- A property of the channels, the tokens and the waits that holds at the start and is kept by
every effect holds in every run. -/
theorem run_induction {capacity ahead : ChanId → Nat} {P : Waits V → Prop}
    (hs : P (start capacity ahead).toWaits)
    (hst : ∀ (w : World V) (op : Op V) (w' : Waits V), Known w → P w.toWaits →
      w.toWaits.Takes op w' → P w') (ops : List (Op V)) :
    P ((start capacity ahead).run ops).toWaits := by
  induction ops using List.reverseRecOn with
  | nil => exact hs
  | append_singleton ops op ih =>
    have hk := known_run capacity ahead ops
    rw [run_concat]
    exact hst _ op _ hk ih (step_takes hk op).1

theorem sized_run (capacity ahead : ChanId → Nat) (ops : List (Op V)) :
    ((start capacity ahead).run ops).toWaits.Sized capacity ahead :=
  run_induction (P := fun w => w.Sized capacity ahead) (fun _ => ⟨rfl, rfl⟩)
    (fun _ _ _ _ h ht => ht.sized h) ops

end World

end Silt.Sync

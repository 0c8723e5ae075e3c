import Silt.Sync.Effect

/-!
# A wait ends once

The token of a wait is on many queues and in the timer. Whoever ends the wait finds it open, and no
other arm of it is completed before or after. What happened to a wait is read off the log.

## Main definitions

* `Silt.Sync.results`, `Silt.Sync.completions`, `Silt.Sync.resumptions`: how a wait ended, which of
  its arms were completed, and what its task was told.
* `Silt.Sync.Waits.Account`: these agree with the state of the wait's token.

## Main results

* `Silt.Sync.World.wait_ends_once`: a wait has at most one result, no arm is completed but that of
  its result, and none for a task whose cancel flag is set.
-/

namespace Silt.Sync

open List Function Option Bool

variable {V : Type}

/-- The arm of the result, with its outcome. -/
def Resumed.arm? : Resumed V → Option (Nat × Outcome V)
  | .fired (.arm index outcome) => some (index, outcome)
  | .fired .deadline | .cancelled | .expired => none

namespace Event

/-- How the event ends the wait. -/
def result (wait : TokenId) : Event V → Option (Resumed V)
  | .fired _ waiter outcome =>
    if waiter.token = wait then some (.fired (.arm waiter.arm outcome)) else none
  | .ended other how => if other = wait then some how else none
  | .returned .. | .resumed .. => none

/-- The arm of the wait that the event completes: a value of it is sent, or something is handed to
it. -/
def completion (wait : TokenId) : Event V → Option (Nat × Outcome V)
  | .fired _ waiter outcome => if waiter.token = wait then some (waiter.arm, outcome) else none
  | .returned _ (some (caller, index)) outcome _ =>
    if caller = wait then some (index, outcome) else none
  | .returned _ none _ _ | .ended .. | .resumed .. => none

/-- What the event tells the task of the wait. -/
def resumption (wait : TokenId) : Event V → Option (Resumed V)
  | .resumed other how => if other = wait then some how else none
  | .fired .. | .returned .. | .ended .. => none

end Event

section Log

variable (wait : TokenId) (log : List (Event V)) (event : Event V)

/-- The ends of the wait. -/
def results : List (Resumed V) :=
  log.filterMap (Event.result wait)

/-- The arms of the wait that were completed. -/
def completions : List (Nat × Outcome V) :=
  log.filterMap (Event.completion wait)

/-- What the task of the wait was told. -/
def resumptions : List (Resumed V) :=
  log.filterMap (Event.resumption wait)

theorem results_concat :
    results wait (log ++ [event]) = results wait log ++ (event.result wait).toList := by
  rw [results, filterMap_append]
  rfl

theorem completions_concat :
    completions wait (log ++ [event]) = completions wait log ++ (event.completion wait).toList := by
  rw [completions, filterMap_append]
  rfl

theorem resumptions_concat :
    resumptions wait (log ++ [event]) = resumptions wait log ++ (event.resumption wait).toList := by
  rw [resumptions, filterMap_append]
  rfl

end Log

/-- The event is of another wait. -/
structure Event.Foreign (event : Event V) (wait : TokenId) : Prop where
  result : event.result wait = none
  completion : event.completion wait = none
  resumption : event.resumption wait = none

/-- What the log says of the wait: its result, which arms were completed, and whether the task was
told. -/
structure Told (log : List (Event V)) (wait : TokenId) (result : Option (Resumed V))
    (completed : List (Nat × Outcome V)) (finished : Bool) : Prop where
  results : results wait log = result.toList
  completions : completions wait log = completed
  resumptions : resumptions wait log = if finished then result.toList else []

theorem Told.concat {log : List (Event V)} {wait : TokenId} {result : Option (Resumed V)}
    {completed : List (Nat × Outcome V)} {finished : Bool}
    (h : Told log wait result completed finished) {event : Event V} (hf : event.Foreign wait) :
    Told (log ++ [event]) wait result completed finished where
  results := by
    rw [results_concat, hf.result, toList_none, append_nil, h.results]
  completions := by
    rw [completions_concat, hf.completion, toList_none, append_nil, h.completions]
  resumptions := by
    rw [resumptions_concat, hf.resumption, toList_none, append_nil, h.resumptions]

namespace Event

variable {wait : TokenId}

theorem foreign_fired {waiter : Waiter V} (h : waiter.token ≠ wait) (place : Place)
    (outcome : Outcome V) : (fired place waiter outcome).Foreign wait :=
  ⟨if_neg h, if_neg h, rfl⟩

theorem foreign_ended {ended : TokenId} (h : ended ≠ wait) (result : Resumed V) :
    (Event.ended ended result).Foreign wait :=
  ⟨if_neg h, rfl, rfl⟩

theorem foreign_resumed {resumed : TokenId} (h : resumed ≠ wait) (result : Resumed V) :
    (Event.resumed resumed result).Foreign wait :=
  ⟨rfl, rfl, if_neg h⟩

theorem foreign_returned {caller : Option (TokenId × Nat)}
    (h : ∀ index, caller ≠ some (wait, index)) (chan : ChanId) (outcome : Outcome V)
    (payload : Option V) : (returned chan caller outcome payload).Foreign wait := by
  refine ⟨rfl, ?_, rfl⟩
  cases caller with
  | none => rfl
  | some caller => exact if_neg fun heq => h caller.2 (by rw [← heq])

end Event

/-- What the state of a token says of the result of its wait, and of whether the task took it. -/
def TokenState.Agrees (result : Option (Resumed V)) (finished : Bool) : TokenState V → Prop
  | .armed | .parked => result = none ∧ finished = false
  | .fired ended => result = some (.fired ended) ∧ finished = false
  | .cancelled => result = some .cancelled
  | .expired => result = some .expired
  | .taken => result.isSome ∧ finished = true

namespace Waits

variable {w w' : Waits V} {wait : TokenId} {waiter : Waiter V} {peers : Peers V}
  {result : Resumed V}

/-- What is known of the wait. One that has not begun has no events; one that ended in its park has
one result, and no arm was completed but that of the result; and what happened to one that parked
agrees with the state of its token. -/
def Account (world : Waits V) (wait : TokenId) : Prop :=
  match world.parked wait with
  | some parked => ∃ result,
    Told world.peers.log wait result (result.bind Resumed.arm?).toList parked.finished ∧
      (world.peers.token wait).state.Agrees result parked.finished
  | none =>
    if wait < world.next then ∃ result completed,
      Told world.peers.log wait (some result) completed false ∧
        (completed = [] ∨ completed = result.arm?.toList)
    else Told world.peers.log wait none [] false

/-- Every wait is accounted for. -/
def Accounted (world : Waits V) : Prop :=
  ∀ wait, world.Account wait

theorem Account.of_foreign (h : w.Account wait) (hn : wait < w'.next ↔ wait < w.next)
    (hp : (w'.parked wait).map Parked.finished = (w.parked wait).map Parked.finished)
    (ht : ∀ result finished, (w.peers.token wait).state.Agrees result finished →
      (w'.peers.token wait).state.Agrees result finished)
    (hl : ∀ result completed finished, Told w.peers.log wait result completed finished →
      Told w'.peers.log wait result completed finished) : w'.Account wait := by
  rw [Account] at h ⊢
  grind

theorem Account.of_open {parked : Parked} (h : w.Account wait)
    (hp : w.parked wait = some parked) (ho : (w.peers.token wait).state.isWaiting) :
    Told w.peers.log wait none [] false ∧ parked.finished = false := by
  rw [Account, hp] at h
  obtain ⟨result, ht, ha⟩ := h
  have hn : result = none ∧ parked.finished = false := by
    cases hs : (w.peers.token wait).state <;> rw [hs] at ha ho
    case armed | parked => exact ha
    all_goals cases ho
  obtain ⟨rfl, hf⟩ := hn
  rw [hf] at ht
  exact ⟨ht, hf⟩

/-- A peer completes an arm of a wait. -/
theorem Accounted.fire (h : w.Accounted) (hp : (w.parked waiter.token).isSome)
    (hc : w.peers.claimable waiter) (place : Place) (outcome : Outcome V) :
    Accounted { w with peers := w.peers.fire place waiter outcome } := by
  intro wait
  by_cases hw : waiter.token = wait
  · subst hw
    obtain ⟨parked, hp⟩ := isSome_iff_exists.mp hp
    simp only [Peers.claimable, Token.claim, and_eq_true] at hc
    obtain ⟨ht, hf⟩ := (h waiter.token).of_open hp hc.2
    simp only [Account, hp]
    refine ⟨some (.fired (.arm waiter.arm outcome)), ⟨?_, ?_, ?_⟩, ?_⟩
    · simp [Peers.fire, results_concat, ht.results, Event.result]
    · simp [Peers.fire, completions_concat, ht.completions, Event.completion, Resumed.arm?]
    · simp [Peers.fire, resumptions_concat, ht.resumptions, Event.resumption, hf]
    · simp [Peers.fire, Token.fire, TokenState.Agrees, hf]
  · refine (h wait).of_foreign Iff.rfl rfl ?_ ?_
    · simp only [Peers.fire, update_of_ne (Ne.symm hw)]
      exact fun _ _ => id
    · exact fun _ _ _ ht => ht.concat (Event.foreign_fired hw place outcome)

theorem Accounted.fires (h : w.Accounted) {allowed : Place → Waiter V → Outcome V → Prop}
    (hf : w.peers.Fires allowed peers)
    (hp : ∀ place waiter outcome, allowed place waiter outcome → (w.parked waiter.token).isSome) :
    Accounted { w with peers } := by
  induction hf with
  | refl => exact h
  | fire _ ha hc ih => exact ih.fire (hp _ _ _ ha) hc _ _

theorem Accounted.of_stays (h : Accounted { w with peers }) (hs : w.Stays w')
    (hp : w'.peers = peers) : w'.Accounted := by
  intro wait
  refine (h wait).of_foreign (by rw [hs.next]) (hs.finished wait) ?_ ?_
  · rw [hp]
    exact fun _ _ => id
  · rw [hp]
    exact fun _ _ _ => id

theorem Accounted.noteReturn (h : Accounted { w with peers }) (chan : ChanId)
    (payload : Option V) (outcome : Option (Outcome V)) :
    Accounted { w with peers := peers.noteReturn chan none payload outcome } := by
  cases outcome with
  | none => exact h
  | some outcome =>
    intro wait
    exact (h wait).of_foreign Iff.rfl rfl (fun _ _ => id) fun _ _ _ ht =>
      ht.concat (Event.foreign_returned (by simp) chan outcome payload)

theorem Accounted.endWait (h : w.Accounted) {state : TokenState V}
    (hp : (w.parked wait).isSome) (hop : (w.peers.token wait).state.isWaiting)
    (hr : state.resumed = some result) (ha : result.isArm = false) (wake : Bool) :
    Accounted { w with
      peers := w.peers.endWait wait { w.peers.token wait with state } result wake } := by
  intro other
  by_cases ho : wait = other
  · subst ho
    obtain ⟨parked, hp⟩ := isSome_iff_exists.mp hp
    obtain ⟨ht, hf⟩ := (h wait).of_open hp hop
    have hn : result.arm? = none := by
      cases result with
      | fired ended => cases ended <;> first | rfl | cases ha
      | cancelled | expired => rfl
    simp only [Account, hp]
    refine ⟨some result, ⟨?_, ?_, ?_⟩, ?_⟩
    · simp [Peers.endWait, results_concat, ht.results, Event.result]
    · simp [Peers.endWait, completions_concat, ht.completions, Event.completion, hn]
    · simp [Peers.endWait, resumptions_concat, ht.resumptions, Event.resumption, hf]
    · simp only [Peers.endWait, update_self, hf]
      cases state <;> simp_all [TokenState.resumed, TokenState.Agrees]
  · refine (h other).of_foreign Iff.rfl rfl ?_ ?_
    · simp only [Peers.endWait, update_of_ne (Ne.symm ho)]
      exact fun _ _ => id
    · exact fun _ _ _ ht => ht.concat (Event.foreign_ended ho result)

theorem Accounted.commit (h : w.Accounted) (wait : TokenId) :
    Accounted { w with peers := w.peers.commit wait } := by
  intro other
  refine (h other).of_foreign Iff.rfl rfl (fun result finished ha => ?_) fun _ _ _ => id
  by_cases ho : other = wait
  · subst ho
    simp only [Peers.commit, update_self, Token.commit]
    cases hs : (w.peers.token other).state <;> rw [hs] at ha
    case armed => exact ha
    all_goals simpa only [hs] using ha
  · simpa only [Peers.commit, update_of_ne ho] using ha

/-- The task of a wait takes its result: it is told the one result that the wait has. -/
theorem Accounted.take (h : w.Accounted) {parked : Parked} {token : Token V} (hn : w'.next = w.next)
    (hp : w.parked wait = some parked) (hf : parked.finished = false)
    (htk : (w.peers.token wait).take = .ok (some result, token))
    (hp' : w'.parked = update w.parked wait (some { parked with finished := true }))
    (hpr : w'.peers =
      ({ w.peers with token := update w.peers.token wait token }).note (.resumed wait result)) :
    w'.Accounted := by
  intro other
  by_cases ho : wait = other
  · subst ho
    have hw := h wait
    rw [Account, hp] at hw
    obtain ⟨result', htl, ha⟩ := hw
    rw [hf] at htl ha
    have ht : result' = some result ∧ token.state.Agrees (some result) true := by
      rw [Token.take] at htk
      cases hs : (w.peers.token wait).state <;> rw [hs] at htk ha <;>
        cases htk <;> simp_all [TokenState.Agrees]
    obtain ⟨rfl, ha'⟩ := ht
    rw [Account, hp', update_self, hpr]
    refine ⟨some result, ⟨?_, ?_, ?_⟩, ?_⟩
    · simp [Peers.note, results_concat, htl.results, Event.result]
    · simp [Peers.note, completions_concat, htl.completions, Event.completion]
    · simp [Peers.note, resumptions_concat, htl.resumptions, Event.resumption]
    · simpa only [Peers.note, update_self] using ha'
  · refine (h other).of_foreign (by rw [hn]) ?_ ?_ ?_
    · rw [hp', update_of_ne (Ne.symm ho)]
    · simp only [hpr, Peers.note, update_of_ne (Ne.symm ho)]
      exact fun _ _ => id
    · rw [hpr]
      exact fun _ _ _ htl => htl.concat (Event.foreign_resumed ho result)

theorem isSome_parked_of_sourceOf {source : Source} (h : w.sourceOf waiter = some source) :
    (w.parked waiter.token).isSome := by
  obtain ⟨parked, hp, -⟩ := bind_eq_some_iff.mp h
  rw [hp]
  rfl

/-- Whoever is on a queue of a channel has parked. -/
theorem isSome_parked_of_queues {w : World V} (hk : w.Known) {id : ChanId}
    (hw : waiter ∈ (w.chan id).queues) : (w.parked waiter.token).isSome := by
  rcases mem_append.mp hw with hw | hw
  · rcases mem_append.mp hw with hw | hw
    · exact isSome_parked_of_sourceOf (hk.recvq id waiter hw)
    · exact isSome_parked_of_sourceOf (hk.sendq id waiter hw)
  · exact isSome_parked_of_sourceOf (hk.demandq id waiter hw)

theorem Effect.accounted {w : World V} (hk : w.Known)
    (he : w.toWaits.Effect w') (h : w.toWaits.Accounted) : w'.Accounted := by
  have hch {id : ChanId} {peers : Peers V} (hf : w.peers.Fires (w.chan id).Fireable peers) :
      Accounted { w.toWaits with peers } :=
    h.fires hf fun _ _ _ hfr => isSome_parked_of_queues hk hfr.2
  cases he with
  | none hs heq => exact h.of_stays hs (by rw [heq])
  | send hs hsn heq =>
    exact ((hch hsn.shrinks.2).noteReturn _ _ _).of_stays hs (by rw [heq]; rfl)
  | receive hs hr heq =>
    exact ((hch hr.shrinks.2).noteReturn _ _ _).of_stays hs (by rw [heq]; rfl)
  | close how hs heq =>
    exact (hch (State.shrinks_close _ _ _).2).of_stays hs (by rw [heq]; rfl)
  | drain hs heq =>
    exact (hch (State.shrinks_drain _ _).2).of_stays hs (by rw [heq]; rfl)
  | forget hs _ heq => exact h.of_stays hs (by rw [heq]; rfl)
  | fireCell hs hsr hc heq =>
    exact (h.fire (isSome_parked_of_sourceOf hsr) hc _ _).of_stays hs (by rw [heq])
  | ended hs hp ho hrs ha heq =>
    exact (h.endWait hp ho hrs ha _).of_stays hs (by rw [heq])
  | commit hs _ heq => exact (h.commit _).of_stays hs (by rw [heq])
  | setFlag flag hs heq =>
    have hst : Accounted { w.toWaits with peers := w.peers.setFlag flag } := h
    exact hst.of_stays hs (by rw [heq])
  | take hkp hp hfn ht hp' heq =>
    exact h.take hkp.next hp hfn ht hp' (by rw [heq])

theorem Accounted.told_next (h : w.Accounted) (hf : w.parked w.next = none) :
    Told w.peers.log w.next none [] false := by
  have hn := h w.next
  rwa [Account, hf, if_neg (Nat.lt_irrefl _)] at hn

theorem lt_next_iff {next next' : TokenId} (hn : next' = next + 1) (hw : wait ≠ next) :
    wait < next' ↔ wait < next := by
  rw [hn, Nat.lt_succ_iff_lt_or_eq, or_iff_left hw]

/-- A wait that ends in its park, with what the log says of it by then. -/
theorem Accounted.ended (h : w.Accounted) (hf : w.parked w.next = none)
    {completed : List (Nat × Outcome V)} (ht : peers.token = w.peers.token)
    (ho : ∀ wait, wait ≠ w.next →
      ∀ result completed finished, Told w.peers.log wait result completed finished →
        Told peers.log wait result completed finished)
    (htl : Told peers.log w.next none completed false)
    (hc : completed = [] ∨ completed = result.arm?.toList) (hn : w'.next = w.next + 1)
    (hpr : w'.parked = w.parked) (hp : w'.peers = peers.note (.ended w.next result)) :
    w'.Accounted := by
  intro wait
  by_cases hw : wait = w.next
  · subst hw
    rw [Account, hpr, hf, hn, if_pos (Nat.lt_succ_self _), hp]
    refine ⟨result, completed, ⟨?_, ?_, ?_⟩, hc⟩
    · simp [Peers.note, results_concat, htl.results, Event.result]
    · simp [Peers.note, completions_concat, htl.completions, Event.completion]
    · simp [Peers.note, resumptions_concat, htl.resumptions, Event.resumption]
  · refine (h wait).of_foreign (lt_next_iff hn hw) (by rw [hpr]) ?_ ?_
    · rw [hp, Peers.note, ht]
      exact fun _ _ => id
    · intro result' completed' finished htl'
      rw [hp]
      exact (ho wait hw _ _ _ htl').concat (Event.foreign_ended (Ne.symm hw) result)

/-- A wait that ends in its park by an arm on a channel. -/
theorem Accounted.returned (h : w.Accounted) (hf : w.parked w.next = none) {chan : ChanId}
    {index : Nat} {outcome : Outcome V} {payload : Option V} (hn : w'.next = w.next + 1)
    (hp : w'.parked = w.parked)
    (hpr : w'.peers =
      (w.peers.note (.returned chan (some (w.next, index)) outcome payload)).note
        (.ended w.next (.fired (.arm index outcome)))) : w'.Accounted := by
  have htl := h.told_next hf
  have htl' : Told (w.peers.note (.returned chan (some (w.next, index)) outcome payload)).log w.next
      none [(index, outcome)] false := by
    constructor
    · simp [Peers.note, results_concat, htl.results, Event.result]
    · simp [Peers.note, completions_concat, htl.completions, Event.completion]
    · simp [Peers.note, resumptions_concat, htl.resumptions, Event.resumption]
  have ht : (w.peers.note (.returned chan (some (w.next, index)) outcome payload)).token =
      w.peers.token := rfl
  refine h.ended hf ht (fun wait hw result completed finished htl => ?_) htl' (.inr rfl) hn hp hpr
  refine htl.concat (Event.foreign_returned (fun index => ?_) chan outcome payload)
  rintro ⟨⟩
  exact hw rfl

theorem Accounted.parked {w w' : Waits V} (h : w.Accounted)
    (hfr : w.parked w.next = none) {parked : Parked} {token : Token V}
    (hf : parked.finished = false) (ho : token.state = .armed)
    (hn : w'.next = w.next + 1)
    (hpr : w'.parked = update w.parked w.next (some parked))
    (hp : w'.peers = { w.peers with
      token := update w.peers.token w.next token }) : w'.Accounted := by
  intro wait
  by_cases hw : wait = w.next
  · subst hw
    rw [Account, hpr, update_self, hp]
    refine ⟨none, ?_, ?_⟩
    · rw [hf]
      exact h.told_next hfr
    · simp [ho, TokenState.Agrees, hf]
  · refine (h wait).of_foreign (lt_next_iff hn hw) ?_ ?_ ?_
    · rw [hpr, update_of_ne hw]
    · simp only [hp, update_of_ne hw]
      exact fun _ _ => id
    · rw [hp]
      exact fun _ _ _ => id

theorem ParkEffect.accounted {w : World V} {w' : Waits V} {task : TaskId}
    {wait : Wait V} {now : Time} (hk : w.Known)
    (he : w.toWaits.ParkEffect task wait now w') (h : w.toWaits.Accounted) :
    w'.Accounted := by
  have hf : w.parked w.next = none := hk.fresh _ (Nat.le_refl _)
  have hqt {left : Locked V} (hq : Locked.Quiet w.toLocked left) :
      Accounted { w.toWaits with peers := left.peers } := by
    refine h.fires hq.fires ?_
    rintro place waiter outcome ⟨-, id, hfr⟩
    exact isSome_parked_of_queues hk hfr.2
  cases he with
  | ended hsp hr hn hp heq =>
    cases hsp with
    | parked => cases hr
    | deadline hq | cancelled hq | expired hq =>
      have hl := hqt hq
      exact hl.ended hf rfl (fun _ _ _ _ _ => id) (hl.told_next hf) (.inl rfl) hn hp (by rw [heq])
    | @arm left locked index arm outcome hq ha hc =>
      cases hr
      have hl := hqt hq
      have hch {id : ChanId} {peers : Peers V}
          (hfi : left.peers.Fires (left.chan id).Fireable peers) :
          Accounted { w.toWaits with peers } :=
        hl.fires hfi fun _ _ _ hfr =>
          isSome_parked_of_queues hk ((hq.still id).queues hfr.2)
      cases hc with
      | recv hrc =>
        exact (hch hrc.shrinks.2).returned hf hn hp (by rw [heq]; rfl)
      | send hsn =>
        exact (hch hsn.shrinks.2).returned hf hn hp (by rw [heq]; rfl)
      | demand | cell =>
        exact hl.ended hf rfl (fun _ _ _ _ _ => id) (hl.told_next hf) (.inl rfl) hn hp (by rw [heq])
  | parked hsp hs hfn hn hp heq =>
    cases hsp with
    | parked hq =>
      refine (hqt hq).parked hf hfn (rfl : (Token.new task wait.cancel).state = _) hn hp ?_
      rw [heq, Locked.peers_enqueueAll]
      rfl

end Waits

/-! ### Cancelled tasks -/

namespace Peers

variable {peers : Peers V}

/-- The cancel flag of the wait's task is set. -/
def Cancelled (peers : Peers V) (wait : TokenId) : Prop :=
  isSet peers.flags (peers.token wait).cancelFlag

/-- When the cancel flag of the wait's task is set it stays so, and no arm of the wait is completed
between the two states. -/
def Spares (wait : TokenId) (peers peers' : Peers V) : Prop :=
  peers.Cancelled wait →
    peers'.Cancelled wait ∧ completions wait peers'.log = completions wait peers.log

variable {wait : TokenId}

theorem Spares.refl (peers : Peers V) : Spares wait peers peers := fun h => ⟨h, rfl⟩

theorem Spares.trans {p₁ p₂ p₃ : Peers V} (h : Spares wait p₁ p₂) (h' : Spares wait p₂ p₃) :
    Spares wait p₁ p₃ := by
  intro hs
  obtain ⟨hs, hl⟩ := h hs
  obtain ⟨hs, hl'⟩ := h' hs
  exact ⟨hs, hl'.trans hl⟩

/-- A step that keeps the wait's cancel flag, clears no flag and completes no arm. -/
theorem spares_of_eq {peers' : Peers V} (hf : ∀ flag, peers.flags flag → peers'.flags flag)
    (ht : (peers'.token wait).cancelFlag = (peers.token wait).cancelFlag)
    (hl : completions wait peers'.log = completions wait peers.log) : Spares wait peers peers' := by
  refine fun hs => ⟨?_, hl⟩
  rw [Cancelled] at hs ⊢
  rw [ht]
  cases hfl : (peers.token wait).cancelFlag with
  | none => simp [hfl, isSet] at hs
  | some flag =>
    rw [hfl] at hs
    exact hf flag hs

theorem spares_note (peers : Peers V) {event : Event V} (h : event.completion wait = none) :
    Spares wait peers (peers.note event) :=
  spares_of_eq (fun _ => id) rfl (by simp [note, completions_concat, h])

/-- Nobody completes an arm for a task whose cancel flag is set. -/
theorem spares_fire (peers : Peers V) (place : Place) {waiter : Waiter V} (outcome : Outcome V)
    (hc : peers.claimable waiter) : Spares wait peers (peers.fire place waiter outcome) := by
  by_cases hw : waiter.token = wait
  · subst hw
    intro hs
    rw [Cancelled] at hs
    simp [claimable, Token.claim, hs] at hc
  · refine spares_of_eq (fun _ => id) ?_ ?_
    · simp only [fire, update_of_ne (Ne.symm hw)]
    · simp [fire, completions_concat, (Event.foreign_fired hw place outcome).completion]

theorem Fires.spares {allowed : Place → Waiter V → Outcome V → Prop} {peers' : Peers V}
    (h : peers.Fires allowed peers') : Spares wait peers peers' := by
  induction h with
  | refl => exact Spares.refl _
  | fire _ _ hc ih => exact ih.trans (spares_fire _ _ _ hc)

theorem spares_noteReturn (peers : Peers V) (chan : ChanId) (payload : Option V)
    (outcome : Option (Outcome V)) :
    Spares wait peers (peers.noteReturn chan none payload outcome) := by
  cases outcome with
  | none => exact Spares.refl _
  | some outcome => exact spares_note _ rfl

theorem cancelFlag_update {other : TokenId} {token : Token V}
    (h : token.cancelFlag = (peers.token other).cancelFlag) :
    (update peers.token other token wait).cancelFlag = (peers.token wait).cancelFlag := by
  grind

end Peers

namespace Waits

open Peers

variable {w w' : Waits V} {wait : TokenId}

theorem Effect.spares (he : w.Effect w') (wait : TokenId) : Spares wait w.peers w'.peers := by
  cases he with
  | none _ heq | forget _ _ heq =>
    rw [heq]
    exact Spares.refl _
  | send _ hs heq =>
    rw [heq]
    exact hs.shrinks.2.spares.trans (spares_noteReturn _ _ _ _)
  | receive _ hr heq =>
    rw [heq]
    exact hr.shrinks.2.spares.trans (spares_noteReturn _ _ _ _)
  | close how _ heq =>
    rw [heq]
    exact (State.shrinks_close _ _ _).2.spares
  | drain _ heq =>
    rw [heq]
    exact (State.shrinks_drain _ _).2.spares
  | fireCell _ _ hc heq =>
    rw [heq]
    exact spares_fire _ _ _ hc
  | ended _ _ _ _ _ heq =>
    rw [heq]
    exact spares_of_eq (fun _ => id) (cancelFlag_update rfl)
      (by simp [Peers.endWait, completions_concat, Event.completion])
  | commit _ _ heq =>
    rw [heq]
    refine spares_of_eq (fun _ => id) (cancelFlag_update ?_) rfl
    rw [Token.commit]
    split <;> rfl
  | setFlag flag _ heq =>
    rw [heq]
    refine spares_of_eq (fun other hst => ?_) rfl rfl
    simp only [Peers.setFlag, update_apply]
    split_ifs
    · rfl
    · exact hst
  | take _ _ _ ht _ heq =>
    rw [heq]
    refine spares_of_eq (fun _ => id) (cancelFlag_update ?_)
      (by simp [Peers.note, completions_concat, Event.completion])
    rw [Token.take] at ht
    split at ht <;> cases ht <;> rfl

theorem ParkEffect.spares {task : TaskId} {what : Wait V} {now : Time}
    (he : w.ParkEffect task what now w') (hw : wait ≠ w.next) : Spares wait w.peers w'.peers := by
  have hr (chan : ChanId) (index : Nat) (outcome : Outcome V) (payload : Option V) :
      (Event.returned chan (some (w.next, index)) outcome payload).completion wait = none :=
    if_neg (Ne.symm hw)
  cases he with
  | ended hs hrs _ _ heq =>
    rw [heq]
    refine Spares.trans ?_ (spares_note _ rfl)
    cases hs with
    | parked => cases hrs
    | deadline hq | cancelled hq | expired hq => exact hq.fires.spares
    | arm hq _ hc =>
      refine hq.fires.spares.trans ?_
      cases hc with
      | recv hrc =>
        exact hrc.shrinks.2.spares.trans (spares_note _ (hr _ _ _ _))
      | send hsn => exact hsn.shrinks.2.spares.trans (spares_note _ (hr _ _ _ _))
      | demand | cell => exact Spares.refl _
  | parked hs _ _ _ _ heq =>
    rw [heq]
    cases hs with
    | parked hq =>
      refine hq.fires.spares.trans ?_
      rw [Locked.peers_enqueueAll]
      refine spares_of_eq (fun _ => id) ?_ rfl
      simp only [Locked.newToken, update_of_ne hw]

theorem Takes.isSome_parked {op : Op V} (ht : w.Takes op w')
    (hp : (w.parked wait).isSome) : (w'.parked wait).isSome := by
  cases op with
  | park task what now seen =>
    cases (ht : w.ParkEffect task what now w') with
    | ended _ _ _ hp' => rwa [hp']
    | parked _ _ _ _ hp' =>
      rw [hp', update_apply]
      split_ifs
      · rfl
      · exact hp
  | _ => exact ((Effect.keeps ht).isSome_parked wait).trans hp

theorem Takes.spares {w : World V} {op : Op V} (hk : w.Known) (ht : w.toWaits.Takes op w')
    (hp : (w.parked wait).isSome) : Spares wait w.peers w'.peers := by
  cases op with
  | park task what now seen =>
    refine ParkEffect.spares ht fun heq => ?_
    rw [heq, hk.fresh _ (Nat.le_refl _)] at hp
    cases hp
  | _ => exact Effect.spares ht wait

end Waits

namespace World

variable {w : World V} {wait : TokenId}

theorem accounted_run (capacity ahead : ChanId → Nat) (ops : List (Op V)) :
    ((start capacity ahead).run ops).toWaits.Accounted := by
  refine run_induction (P := Waits.Accounted) ?_ ?_ ops
  · exact fun _ => ⟨rfl, rfl, rfl⟩
  · intro w op w' hk h ht
    cases op with
    | park task wait now seen => exact Waits.ParkEffect.accounted hk ht h
    | _ => exact Waits.Effect.accounted hk ht h

/-- The wait has parked and has not ended. -/
def Open (world : World V) (wait : TokenId) : Prop :=
  (world.parked wait).isSome ∧ (world.peers.token wait).state.isWaiting

instance (world : World V) (wait : TokenId) : Decidable (world.Open wait) :=
  inferInstanceAs (Decidable (_ ∧ _))

/-- The wait has begun and has ended. -/
def Over (world : World V) (wait : TokenId) : Prop :=
  wait < world.next ∧ ¬ world.Open wait

instance (world : World V) (wait : TokenId) : Decidable (world.Over wait) :=
  inferInstanceAs (Decidable (_ ∧ _))

theorem lt_next_of_parked (hk : w.Known) {parked : Parked}
    (h : w.parked wait = some parked) : wait < w.next := by
  refine Nat.lt_of_not_le fun hle => ?_
  rw [hk.fresh wait hle] at h
  cases h

theorem told_of_over (hac : w.toWaits.Accounted) (ho : w.Over wait) :
    ∃ result completed finished, Told w.peers.log wait (some result) completed finished ∧
        (completed = [] ∨ completed = result.arm?.toList) := by
  have ha := hac wait
  obtain ⟨hb, hc⟩ := ho
  rw [Waits.Account] at ha
  cases hp : w.parked wait with
  | none => grind
  | some parked =>
    rw [hp] at ha
    obtain ⟨result, ht, hag⟩ := ha
    have he : (w.peers.token wait).state.isWaiting = false :=
      eq_false_iff.mpr fun hw => hc ⟨by rw [hp]; rfl, hw⟩
    obtain ⟨result, rfl⟩ : ∃ result', result = some result' := by
      refine isSome_iff_exists.mp ?_
      cases hs : (w.peers.token wait).state <;> rw [hs] at hag he <;>
        simp_all [TokenState.Agrees, TokenState.isWaiting]
    exact ⟨result, _, parked.finished, ht, .inr rfl⟩

theorem told_of_not_over (hk : w.Known) (ha : w.toWaits.Accounted) (hov : ¬ w.Over wait) :
    Told w.peers.log wait none [] false := by
  cases hp : w.parked wait with
  | none =>
    have hb : ¬ wait < w.next := fun hlt =>
      hov ⟨hlt, fun ho => by simp [Open, hp] at ho⟩
    have hac := ha wait
    rwa [Waits.Account, hp, if_neg hb] at hac
  | some parked =>
    have ho : w.Open wait := not_not.mp fun hc => hov ⟨lt_next_of_parked hk hp, hc⟩
    exact ((ha wait).of_open hp ho.2).1

/-- The steps of a run complete no arm of a parked wait whose task is cancelled. -/
theorem spares_run (hk : w.Known) (hp : (w.parked wait).isSome) (ops : List (Op V)) :
    Peers.Spares wait w.peers (w.run ops).peers := by
  have hr : Known (w.run ops) ∧ ((w.run ops).parked wait).isSome ∧
      Peers.Spares wait w.peers (w.run ops).peers := by
    induction ops using List.reverseRecOn with
    | nil => exact ⟨hk, hp, .refl _⟩
    | append_singleton ops op ih =>
      obtain ⟨hk, hp, hs⟩ := ih
      obtain ⟨ht, hk'⟩ := step_takes hk op
      rw [run_concat]
      exact ⟨hk', ht.isSome_parked hp, hs.trans (Waits.Takes.spares hk ht hp)⟩
  exact hr.2.2

/-- A wait ends once and completes at most one arm. One that has ended has exactly one result; no
arm of it was completed but that of the result, so none if the result is not that of an arm; and its
task is told that result and no other. Before it ends, no arm is completed and its task is told
nothing. And once the cancel flag of the task of a parked wait is set, no arm of the wait is
completed any more, whatever comes. -/
theorem wait_ends_once (capacity ahead : ChanId → Nat) (ops : List (Op V)) (wait : TokenId) :
    let world := (start capacity ahead).run ops
    let log := world.peers.log
    (world.Over wait → ∃ result, results wait log = [result] ∧
      (completions wait log = [] ∨ completions wait log = result.arm?.toList) ∧
      (resumptions wait log = [] ∨ resumptions wait log = [result])) ∧
    (¬ world.Over wait →
      results wait log = [] ∧ completions wait log = [] ∧ resumptions wait log = []) ∧
    ((world.parked wait).isSome → world.peers.Cancelled wait → ∀ ops',
      completions wait (world.run ops').peers.log = completions wait log) := by
  intro world log
  have hk : world.Known := known_run capacity ahead ops
  have ha : world.toWaits.Accounted := accounted_run capacity ahead ops
  refine ⟨fun ho => ?_, fun ho => ?_, fun hp hs ops' => ?_⟩
  · obtain ⟨result, completed, finished, ht, hc⟩ := told_of_over ha ho
    refine ⟨result, ht.results, ?_, ?_⟩
    · rwa [ht.completions]
    · rw [ht.resumptions]
      cases finished <;> simp
  · have ht := told_of_not_over hk ha ho
    exact ⟨ht.results, ht.completions, ht.resumptions⟩
  · exact (spares_run hk hp ops' hs).2

/-- A receiver parks, its task is cancelled by its flag, and a send that comes then finds nobody. -/
theorem wait_ends_once_cancelled :
    let wait : Wait Nat :=
      { arms := [.recv 0], deadline := none, first := 0, cancel := some 5, taskDeadline := none }
    let world := (start (fun _ => 0) fun _ => 0 : World Nat).run
      [.park 0 wait 0 fun _ => false, .setFlag 5, .cancel 0]
    (∃ result, results 0 world.peers.log = [result] ∧
      (completions 0 world.peers.log = [] ∨ completions 0 world.peers.log = result.arm?.toList) ∧
      (resumptions 0 world.peers.log = [] ∨ resumptions 0 world.peers.log = [result])) ∧
    completions 0 (world.run [.trySend 0 7]).peers.log = completions 0 world.peers.log := by
  intro wait world
  obtain ⟨ho, -, hc⟩ := wait_ends_once (fun _ => 0) (fun _ => 0)
    [.park 0 wait 0 fun _ => false, .setFlag 5, .cancel 0] 0
  exact ⟨ho (by decide), hc (by decide) (by unfold Peers.Cancelled; decide) _⟩

end World

end Silt.Sync

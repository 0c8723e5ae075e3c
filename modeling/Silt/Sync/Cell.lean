import Silt.Sync.Ends

/-!
# The completions of a cell

A cell has a value that is set once, and the queue of those who wait for it. `Cell::complete` sets
the value before it takes the queue, and `enqueue` looks for the value under the lock of the queue:
a waiter is either taken with the queue or finds the value. This file models
`runtime/sync/cell.rs` with any number of calls of `complete` and `enqueue` on one cell at a time,
each taken apart into what it does under one lock or to one token. The drops of the waits call
`forget`, and other parties end waits in between.

## Main definitions

* `Silt.Sync.Completions`, `Silt.Sync.Completions.step` : the cell with the calls in progress, and
  the steps.
* `Silt.Sync.Completions.NoneLost` : what is said of the calls.

## Main results

* `Silt.Sync.Completions.no_completion_lost` : the first call sets the value, and once it has
  returned every waiter whose wait is open, and whose task is not cancelled, has been fired.
-/

namespace Silt.Sync

open List Function

/-- How far the call of `complete` that set the value is. -/
inductive CompleteStage (V : Type) where
  /-- There is none. -/
  | notSet
  /-- It has set the value. -/
  | set
  /-- It has taken the queue, and has these waiters to claim. -/
  | firing (waiters : List (Waiter V))
  | returned
  deriving DecidableEq, Repr

/-- A cell, with the calls on it and the waits. -/
structure Completions (T V : Type) where
  value : Option T
  waiters : List (Waiter V)
  /-- The call of `complete` that set the value. -/
  stage : CompleteStage V
  /-- The values that the other calls of `complete` gave back. -/
  refused : List T
  /-- The calls of `enqueue` that found the value, and have not fired their waiter. -/
  found : List (Waiter V)
  /-- The calls of `enqueue` that have returned. -/
  enqueued : List (Waiter V)
  peers : Peers V

variable {T V : Type}

namespace Completions

/-- The steps. One whose party is not there leaves everything as it is. -/
inductive Op (T V : Type) where
  /-- The first step of a call of `complete`. -/
  | complete (value : T)
  /-- The next step of the call of `complete` that set the value. -/
  | goOn
  /-- The first step of a call of `enqueue`, under the lock of the queue. -/
  | enqueue (waiter : Waiter V)
  /-- A call of `enqueue` that found the value fires its waiter, the lock released. -/
  | fireFound (index : Nat)
  /-- The drop of a wait, which has abandoned it, takes it off the queue. -/
  | forget (wait : TokenId)
  /-- A peer at a channel or at another cell completes an arm. -/
  | fire (place : Place) (waiter : Waiter V) (outcome : Outcome V)
  | timeOut (wait : TokenId)
  | expire (wait : TokenId)
  | cancel (wait : TokenId)
  | abandon (wait : TokenId)
  | commit (wait : TokenId)
  | setFlag (flag : FlagId)

variable (here : CellId)

/-- Claim a waiter of the cell, and fire it. -/
def fireDone (peers : Peers V) (waiter : Waiter V) : Peers V :=
  if peers.claimable waiter then peers.fire (.cell here) waiter .done else peers

/-- `complete` up to where it has set the value, or has found that it is set. -/
def complete (s : Completions T V) (value : T) : Completions T V :=
  match s.value with
  | none => { s with value := some value, stage := .set }
  | some _ => { s with refused := s.refused ++ [value] }

/-- The rest of `complete`. -/
def goOn (s : Completions T V) : Completions T V :=
  match s.stage with
  | .notSet | .returned => s
  | .set => { s with waiters := [], stage := .firing s.waiters }
  | .firing (waiter :: waiters) =>
    { s with peers := fireDone here s.peers waiter, stage := .firing waiters }
  | .firing [] => { s with stage := .returned }

/-- `enqueue` up to where it has joined the queue, or has found the value. -/
def enqueue (s : Completions T V) (waiter : Waiter V) : Completions T V :=
  match s.value with
  | none => { s with waiters := s.waiters ++ [waiter], enqueued := s.enqueued ++ [waiter] }
  | some _ => { s with found := s.found ++ [waiter] }

/-- One step. -/
def step (s : Completions T V) : Op T V → Completions T V
  | .complete value => s.complete value
  | .goOn => s.goOn here
  | .enqueue waiter => s.enqueue waiter
  | .fireFound index =>
    match s.found[index]? with
    | none => s
    | some waiter =>
      { s with
        peers := fireDone here s.peers waiter
        found := s.found.eraseIdx index
        enqueued := s.enqueued ++ [waiter] }
  | .forget wait =>
    if (s.peers.token wait).state.isWaiting then s
    else { s with waiters := s.waiters.filter fun waiter => waiter.token != wait }
  | .fire place waiter outcome =>
    if place ≠ .cell here ∧ s.peers.claimable waiter then
      { s with peers := s.peers.fire place waiter outcome }
    else s
  | .timeOut wait => { s with peers := s.peers.timeOut wait }
  | .expire wait => { s with peers := s.peers.expire wait }
  | .cancel wait => { s with peers := s.peers.cancel wait }
  | .abandon wait => { s with peers := s.peers.abandon wait }
  | .commit wait => { s with peers := s.peers.commit wait }
  | .setFlag flag => { s with peers := s.peers.setFlag flag }

/-- A run: one step after another. -/
def run (s : Completions T V) (ops : List (Op T V)) : Completions T V :=
  ops.foldl (step here) s

/-- The start: a new cell, no call, and waits of the given tasks with the given cancel flags. -/
def start (waits : TokenId → TaskId × Option FlagId) : Completions T V where
  value := none
  waiters := []
  stage := .notSet
  refused := []
  found := []
  enqueued := []
  peers :=
    { flags := fun _ => false
      token := fun wait => .new (waits wait).1 (waits wait).2
      wakes := []
      log := [] }

/-- The values that `complete` is called with, in the order of the first steps of the calls. -/
def values (ops : List (Op T V)) : List T :=
  ops.filterMap fun
    | .complete value => some value
    | _ => none

end Completions

/-! ### Each wait ends at most once -/

/-- The log has one end of each wait that is open no more, and none of another. -/
def Peers.Counted (peers : Peers V) : Prop :=
  ∀ wait, (results wait peers.log).length =
    if (peers.token wait).state.isWaiting then 0 else 1

/-- The waits after some steps: none can be claimed that could not, and the log has their ends. -/
structure Peers.Later (peers peers' : Peers V) : Prop where
  fewer : Peers.Fewer peers' peers
  counted : peers.Counted → peers'.Counted

namespace Peers

variable {peers peers' : Peers V}

theorem Later.refl (peers : Peers V) : Later peers peers := ⟨Fewer.refl peers, id⟩

theorem later_fire {waiter : Waiter V} (hc : peers.claimable waiter) (place : Place)
    (outcome : Outcome V) : Later peers (peers.fire place waiter outcome) := by
  refine ⟨fewer_fire peers place waiter outcome, fun h w => ?_⟩
  have hl : (peers.fire place waiter outcome).log = peers.log ++ [.fired place waiter outcome] :=
    rfl
  rw [hl, results_concat, length_append, h w]
  by_cases hw : waiter.token = w
  · subst hw
    simp only [claimable, Token.claim, Bool.and_eq_true] at hc
    have he : ((peers.token waiter.token).fire (.arm waiter.arm outcome)).state.isWaiting =
        false := rfl
    simp [fire, he, hc.2, Event.result]
  · simp [fire, update_of_ne (Ne.symm hw), Event.result, hw]

theorem later_fireDone (here : CellId) (waiter : Waiter V) :
    Later peers (Completions.fireDone here peers waiter) := by
  rw [Completions.fireDone]
  split_ifs with hc
  · exact later_fire hc _ _
  · exact Later.refl peers

theorem not_claimable_fireDone (here : CellId) (waiter : Waiter V) :
    (Completions.fireDone here peers waiter).claimable waiter = false := by
  rw [Completions.fireDone]
  split_ifs with hc
  · exact not_claimable_fire_self peers _ _ rfl
  · exact Bool.eq_false_iff.mpr hc

theorem Ends.later {w : TokenId} (h : peers.Ends w peers') : Later peers peers' := by
  obtain rfl | ⟨hop, state, result, wake, hs, -, rfl⟩ := h
  · exact Later.refl _
  have he := TokenState.isWaiting_of_resumed hs
  refine ⟨fewer_endWait peers w result wake he, fun h other => ?_⟩
  simp only [endWait, results_concat, length_append, h other]
  by_cases ho : w = other
  · subst ho
    simp [hop, he, Event.result]
  · simp [update_of_ne (Ne.symm ho), Event.result, ho]

theorem later_commit (w : TokenId) : Later peers (peers.commit w) := by
  refine ⟨fun waiter h => by rwa [claimable_commit] at h, fun h other => (h other).trans ?_⟩
  by_cases ho : other = w
  · subst ho
    cases hs : (peers.token other).state <;> simp [commit, Token.commit, hs, TokenState.isWaiting]
  · simp only [commit, update_of_ne ho]

end Peers

namespace Completions

/-! ### The invariant -/

/-- The waiter is in the queue, the call of `complete` is about to fire it, or it can be claimed no
more. -/
def Awaited (s : Completions T V) (waiter : Waiter V) : Prop :=
  waiter ∈ s.waiters ∨ (∃ waiters, s.stage = .firing waiters ∧ waiter ∈ waiters) ∨
    s.peers.claimable waiter = false

/-- What holds in every state. -/
structure Inv (s : Completions T V) : Prop where
  notSet : s.value = none ↔ s.stage = .notSet
  first : s.value = none → s.refused = []
  queue : s.value.isSome → s.waiters = [] ∨ s.stage = .set
  awaited : ∀ waiter ∈ s.enqueued, s.Awaited waiter
  counted : s.peers.Counted

variable {here : CellId} {s s' : Completions T V} {waiter : Waiter V}

theorem Awaited.later (h : s.Awaited waiter) (hfw : Peers.Fewer s'.peers s.peers)
    (hm : (waiter ∈ s.waiters ∨ ∃ waiters, s.stage = .firing waiters ∧ waiter ∈ waiters) →
      s'.Awaited waiter) : s'.Awaited waiter := by
  rcases h with hmm | hf | hn
  · exact hm (.inl hmm)
  · exact hm (.inr hf)
  · refine .inr (.inr (Bool.eq_false_iff.mpr fun hc => ?_))
    exact Bool.eq_false_iff.mp hn (hfw waiter hc)

section

variable (h : Inv s)

include h

theorem Inv.later {peers : Peers V} (hl : s.peers.Later peers) :
    Inv { s with peers } where
  notSet := h.notSet
  first := h.first
  queue := h.queue
  awaited waiter hw := (h.awaited waiter hw).later hl.fewer fun hin => hin.imp_right Or.inl
  counted := hl.counted h.counted

/-- A call of `enqueue` that returns, with its waiter in the queue or claimed. -/
theorem Inv.enqueued (hw : s.Awaited waiter) :
    Inv { s with enqueued := s.enqueued ++ [waiter] } := by
  refine { h with awaited := fun other ho => ?_ }
  rcases mem_append.mp ho with ho | ho
  · exact h.awaited other ho
  · rwa [mem_singleton.mp ho]

theorem Inv.complete (value : T) : Inv (s.complete value) := by
  rw [Completions.complete]
  split
  case h_1 hn =>
    have hs := h.notSet.mp hn
    refine ⟨by simp, nofun, fun _ => .inr rfl, fun waiter hw => ?_, h.counted⟩
    refine (h.awaited waiter hw).later (.refl _) (Or.imp_right ?_)
    rintro ⟨waiters, hf, -⟩
    cases hs.symm.trans hf
  case h_2 set hst => exact { h with first := fun hn => by cases hst.symm.trans hn }

theorem Inv.setStage (stage : CompleteStage V) (ho : s.stage ≠ .notSet)
    (hnw : stage ≠ .notSet) {waiters : List (Waiter V)} (hnl : waiters = []) {peers : Peers V}
    (hl : s.peers.Later peers)
    (hm : ∀ waiter, (waiter ∈ s.waiters ∨ ∃ waiters, s.stage = .firing waiters ∧ waiter ∈ waiters) →
      (∃ waiters, stage = .firing waiters ∧ waiter ∈ waiters) ∨ peers.claimable waiter = false) :
    Inv { s with waiters, stage, peers } where
  notSet := iff_of_false (fun hn => ho (h.notSet.mp hn)) hnw
  first := h.first
  queue _ := .inl hnl
  awaited waiter hw := (h.awaited waiter hw).later hl.fewer fun hin => .inr (hm waiter hin)
  counted := hl.counted h.counted

theorem Inv.waiters_eq (ho : s.stage ≠ .notSet) (hs : s.stage ≠ .set) : s.waiters = [] :=
  (h.queue (Option.isSome_iff_ne_none.mpr fun hn => ho (h.notSet.mp hn))).resolve_right hs

theorem Inv.goOn : Inv (s.goOn here) := by
  rw [Completions.goOn]
  split
  case h_1 | h_2 => exact h
  case h_3 hs =>
    refine h.setStage (.firing s.waiters) (by simp [hs]) nofun rfl (.refl _) ?_
    grind
  case h_4 waiter waiters hs =>
    have hn := h.waiters_eq (by simp [hs]) (by simp [hs])
    refine h.setStage (.firing waiters) (by simp [hs]) nofun hn
      (Peers.later_fireDone here waiter) ?_
    rintro other (hm | ⟨_, hf, hm⟩)
    · simp [hn] at hm
    · cases hs.symm.trans hf
      rcases mem_cons.mp hm with rfl | hm
      · exact .inr (Peers.not_claimable_fireDone here other)
      · exact .inl ⟨waiters, rfl, hm⟩
  case h_5 hs =>
    have hn := h.waiters_eq (by simp [hs]) (by simp [hs])
    refine h.setStage .returned (by simp [hs]) nofun hn (.refl _) ?_
    grind

theorem Inv.enqueue (waiter : Waiter V) : Inv (s.enqueue waiter) := by
  rw [Completions.enqueue]
  split
  case h_1 hn =>
    have hj : Inv { s with waiters := s.waiters ++ [waiter] } :=
      { h with
        queue := fun hs => by rw [hn] at hs; cases hs
        awaited := fun other ho => (h.awaited other ho).imp_left (mem_append_left _) }
    exact hj.enqueued (.inl (mem_append_right _ (mem_singleton_self _)))
  case h_2 => exact { h with }

theorem Inv.step (op : Op T V) : Inv (s.step here op) := by
  cases op with
  | complete value => exact h.complete value
  | goOn => exact h.goOn
  | enqueue waiter => exact h.enqueue waiter
  | fireFound index =>
    rw [Completions.step]
    split
    case h_1 => exact h
    case h_2 waiter _ =>
      have hf := (h.later (Peers.later_fireDone here waiter)).enqueued
        (.inr (.inr (Peers.not_claimable_fireDone here waiter)))
      exact { hf with }
  | forget w =>
    rw [Completions.step]
    split_ifs with ho
    · exact h
    · refine { h with queue := fun hs => ?_, awaited := fun waiter hw => ?_ }
      · exact (h.queue hs).imp_left fun hn => by simp [hn]
      · -- What is taken off the queue can be claimed no more.
        rcases h.awaited waiter hw with hm | hr
        · by_cases ht : waiter.token = w
          · exact .inr (.inr (by simp [Peers.claimable, Token.claim, ht, ho]))
          · exact .inl (mem_filter.mpr ⟨hm, by simpa using ht⟩)
        · exact .inr hr
  | fire place waiter outcome =>
    rw [Completions.step]
    split_ifs with hfr
    · exact h.later (Peers.later_fire hfr.2 place outcome)
    · exact h
  | timeOut w => exact h.later (Peers.ends_timeOut s.peers w).later
  | expire w => exact h.later (Peers.ends_expire s.peers w).later
  | cancel w => exact h.later (Peers.ends_cancel s.peers w).later
  | abandon w => exact h.later (Peers.ends_abandon s.peers w).later
  | commit w => exact h.later (Peers.later_commit w)
  | setFlag flag => exact h.later ⟨Peers.fewer_setFlag s.peers flag, id⟩

end

theorem inv_start (waits : TokenId → TaskId × Option FlagId) :
    Inv (start waits : Completions T V) where
  notSet := iff_of_true rfl rfl
  first _ := rfl
  queue := nofun
  awaited := nofun
  counted _ := rfl

theorem Inv.run (h : Inv s) (ops : List (Op T V)) : Inv (s.run here ops) := by
  induction ops generalizing s with
  | nil => exact h
  | cons op ops ih => exact ih (h.step op)

/-! ### No completion is lost -/

/-- A step adds the value of the call of `complete` whose first step it is. -/
theorem values_step (h : Inv s) (op : Op T V) :
    (s.step here op).value.toList ++ (s.step here op).refused =
      s.value.toList ++ s.refused ++ values [op] := by
  cases op with
  | complete value =>
    simp only [step, complete]
    cases hv : s.value with
    | none => simp [h.first hv, values]
    | some set => simp [values]
  | goOn =>
    simp only [step, goOn]
    split <;> exact (append_nil _).symm
  | enqueue waiter =>
    simp only [step, enqueue]
    split <;> simp [values, *]
  | fireFound =>
    simp only [step]
    split <;> exact (append_nil _).symm
  | forget | fire =>
    simp only [step]
    split_ifs <;> exact (append_nil _).symm
  | timeOut | expire | cancel | abandon | commit | setFlag => exact (append_nil _).symm

theorem values_run (h : Inv s) (ops : List (Op T V)) :
    (s.run here ops).value.toList ++ (s.run here ops).refused =
      s.value.toList ++ s.refused ++ values ops := by
  induction ops generalizing s with
  | nil => exact (append_nil _).symm
  | cons op ops ih =>
    refine (ih (h.step op)).trans ?_
    rw [values_step h op, append_assoc]
    exact congrArg _ (filterMap_append (l := [op])).symm

/-- What is said of the completions of a cell, whose calls of `complete` have the given values. The
first call sets the value, and the others get theirs back. While the queue of a complete cell is
not empty, the first call has yet to take it; once it has returned the queue is empty. A waiter
whose `enqueue` has returned then was fired for its own arm, if nothing else ended its wait and its
task is not cancelled; and its wait ended that once. -/
structure NoneLost (here : CellId) (values : List T) (s : Completions T V) : Prop where
  value : s.value = values.head?
  refused : s.refused = values.tail
  left : s.value.isSome → s.waiters ≠ [] → s.stage = .set
  empty : s.stage = .returned → s.waiters = []
  fired : s.stage = .returned → ∀ waiter ∈ s.enqueued,
    isSet s.peers.flags (s.peers.token waiter.token).cancelFlag = false →
    (∀ event ∈ s.peers.log, (event.result waiter.token).isSome →
      event = .fired (.cell here) waiter .done) →
    .fired (.cell here) waiter .done ∈ s.peers.log ∧
      results waiter.token s.peers.log = [.fired (.arm waiter.arm .done)]

/-- The one end of a wait that is open no more. -/
theorem results_of_ended (h : s.peers.Counted)
    (hen : (s.peers.token waiter.token).state.isWaiting = false)
    (ho : ∀ event ∈ s.peers.log, (event.result waiter.token).isSome →
      event = .fired (.cell here) waiter .done) :
    .fired (.cell here) waiter .done ∈ s.peers.log ∧
      results waiter.token s.peers.log = [.fired (.arm waiter.arm .done)] := by
  have hon := h waiter.token
  rw [hen, if_neg Bool.false_ne_true] at hon
  obtain ⟨result, hrs⟩ := length_eq_one_iff.mp hon
  have hm : result ∈ results waiter.token s.peers.log := by
    rw [hrs]
    exact mem_singleton_self result
  obtain ⟨event, he, hr⟩ := mem_filterMap.mp hm
  obtain rfl := ho event he (by rw [hr]; rfl)
  rw [Event.result, if_pos rfl] at hr
  exact ⟨he, by rw [hrs, ← Option.some.inj hr]⟩

theorem Inv.noneLost (h : Inv s) {values : List T}
    (hv : s.value.toList ++ s.refused = values) : NoneLost here values s := by
  have hf : s.value = values.head? ∧ s.refused = values.tail := by
    rw [← hv]
    cases hvl : s.value with
    | none => simp [h.first hvl]
    | some set => exact ⟨rfl, rfl⟩
  have he (hs : s.stage = .returned) : s.waiters = [] := h.waiters_eq (by simp [hs]) (by simp [hs])
  refine ⟨hf.1, hf.2, fun hsm => (h.queue hsm).resolve_left, he, ?_⟩
  intro hs waiter hw hfl ho
  -- The call has nobody left to fire, and nobody is in the queue.
  have hn : s.peers.claimable waiter = false := by
    rcases h.awaited waiter hw with hm | ⟨waiters, hfr, -⟩ | hn
    · simp [he hs] at hm
    · cases hs.symm.trans hfr
    · exact hn
  refine results_of_ended h.counted ?_ ho
  simpa [Peers.claimable, Token.claim, hfl] using hn

/-- Whatever the order of the steps of the calls of `complete` and `enqueue`, of the drops and of
the others who end waits, no completion of the cell is lost. -/
theorem no_completion_lost (here : CellId) (waits : TokenId → TaskId × Option FlagId)
    (ops : List (Op T V)) : NoneLost here (values ops) ((start waits).run here ops) :=
  ((inv_start waits).run ops).noneLost (values_run (inv_start waits) ops)

/-- A task is cancelled by its flag while it waits: the call of `complete` that comes then returns
and has not fired its waiter, whose wait nothing has ended. -/
theorem complete_passes_cancelled :
    let s := (start fun _ => (7, some 5) : Completions Nat Nat).run 0
      [.enqueue ⟨3, 0, none⟩, .commit 3, .setFlag 5, .complete 1, .goOn, .goOn, .goOn]
    s.stage = .returned ∧ s.enqueued = [⟨3, 0, none⟩] ∧ s.peers.log = [] ∧
      (s.peers.token 3).state = .parked := by
  decide

end Completions

end Silt.Sync

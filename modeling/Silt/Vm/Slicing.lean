import Silt.Vm.Machine
import Silt.Vm.Safety

/-!
# Slicing is invisible

The run of the frames as a machine that takes one step at a time (`tick`), each of them charged:
an instruction, one of the two parts of an instruction that fuses two, or a resumption of a
builtin's frame.  A slice with a budget of `n` is the run of `n` ticks (`runFrames_eq`), so slices
one after another are one slice with all their budgets (`slices_eq`).

The two parts of an instruction are together what its arm does (`exec_eq_joined`), except for a
`Recur` whose values lie over the bindings they are for: the arm copies them in place, the first
part takes them off the stack first and finds no slot to write to.

## Main definitions

* `RecurFits` : no `Recur` is about to run whose values lie over the bindings.
* `tick` : one charged step.
-/

namespace Silt.Vm

open List

open Bytecode Sliced

variable {σ N : Type}

namespace Machine

section Parts

variable {stack : List Value}

variable {env : Env} {R : Runtime σ N} {frame : CallFrame}

/-! ### The two parts of an instruction -/

/-- The instructions that fuse two. -/
def IsFused : Instr Nat → Prop
  | .addConst _ | .subConst _ | .jumpIfNotLt _ | .jumpIfNotGt _ | .jumpIfNotLeq _
  | .jumpIfNotGeq _ | .jumpIfNotEq _ | .jumpIfNotNeq _ | .recur _ _ _ => True
  | _ => False

/-- The values a `Recur` takes to the loop's bindings do not lie over those. -/
def Fits (frame : CallFrame) (stack : List Value) : Instr Nat → Prop
  | .recur argc first _ => argc = 0 ∨ frame.base + first + 2 * argc ≤ stack.length
  | _ => True

variable (R) in
/-- The second part, after the first part. -/
def finished (ip : Nat) (s : σ) : Except VmError Half × List Value → Option (Outcome N × σ)
  | (.error e, stack) => some (.fail ip stack e, s)
  | (.ok half, stack) =>
    (secondPart R ip stack half).map fun
      | (.error e, stack) => (.fail ip stack e, s)
      | (.ok ip, stack) => (.go ip stack, s)

variable (env R frame) in
/-- The two parts, one after the other. -/
def joined (instr : Instr Nat) (ip : Nat) (stack : List Value) : Arm σ N := fun s =>
  (firstPart env R frame instr stack).bind (finished R ip s)

@[simp] theorem popped_concat (stack : List Value) (v : Value) :
    popped (stack ++ [v]) = some (stack, v) := by
  simp only [popped, getLast?_concat, Option.map_some, dropLast_concat]

/-- An operand and a constant: the constant is pushed, and taken off again. -/
theorem finished_arith (op : Arith) (b : Value) (ip : Nat) (stack : List Value) (s : σ) :
    finished R ip s (.ok (.arith op), stack ++ [b]) =
      overTop (N := N) ip stack (R.arithmetic op · b) s := by
  simp only [finished, secondPart, popped_concat, overTop, Option.bind_eq_bind, Option.bind_some]
  cases popped stack with
  | none => rfl
  | some p => cases h : R.arithmetic op p.2 b <;> simp [h, goOn, refuse]

/-- A comparing jump: the comparison's Bool is pushed, and taken off again by the jump on it. -/
theorem finished_compared (f : Value → Value → Except VmError Bool) (ip d : Nat)
    (stack : List Value) (s : σ) :
    (compared d stack f).bind (finished R ip s) = jumpUnless (N := N) ip d stack f s := by
  simp only [jumpUnless, compared, Option.bind_eq_bind]
  cases popped stack with
  | none => rfl
  | some p =>
    simp only [Option.bind_some]
    cases popped p.1 with
    | none => rfl
    | some q =>
      simp only [Option.bind_some]
      cases f q.2 p.2 with
      | error e => rfl
      | ok holds => cases holds <;> simp [finished, secondPart, goOn]

/-- Two Ints are equal as values if they are as numbers. -/
theorem otherEqual_eq_equal (a b : Value) : R.otherEqual a b = R.equal a b := by
  cases a <;> cases b <;> rfl

theorem map_beq_true (result : Except VmError Bool) : result.map (· == true) = result := by
  cases result with
  | error e => rfl
  | ok holds => cases holds <;> rfl

/-! ### Recur -/

theorem length_of_written {dst : Nat} {values stack' : List Value}
    (h : written dst values stack = some stack') : stack'.length = stack.length := by
  induction values generalizing dst stack with
  | nil => cases h; rfl
  | cons v values ih =>
    simp only [written, put, Option.bind_eq_bind] at h
    split_ifs at h with hd
    · rw [ih h, length_set]
    · cases h

/-- Values that are copied to slots below all of them are as well taken off first. -/
theorem copied_eq_written {dst src mid n : Nat} (hd : dst + n ≤ mid) (hm : mid ≤ src)
    (hs : src + n ≤ stack.length) :
    copied dst src n stack =
      (written dst ((stack.drop src).take n) (stack.take mid)).map (· ++ stack.drop mid) := by
  induction n generalizing dst src stack with
  | zero => simp [copied, written]
  | succ n ih =>
    have hlt : src < stack.length := by omega
    have hp : ∀ v, put stack dst v = some (stack.set dst v) := fun v => if_pos (by omega)
    have hp' : ∀ v, put (stack.take mid) dst v = some ((stack.take mid).set dst v) := by
      refine fun v => if_pos ?_
      rw [length_take]
      omega
    simp only [copied, getElem?_eq_getElem hlt, Option.bind_eq_bind, Option.bind_some, hp,
      drop_eq_getElem_cons hlt, take_succ_cons, written, hp']
    rw [ih (by omega) (by omega) (by rw [length_set]; omega), drop_set_of_lt (by omega),
      drop_set_of_lt (by omega), take_set]

/-- The first part of a `Recur` is its arm, if the values do not lie over the bindings. -/
theorem finished_recur {argc first : Nat} (d ip : Nat) (s : σ)
    (hf : argc = 0 ∨ frame.base + first + 2 * argc ≤ stack.length) :
    joined env R frame (.recur argc first d) ip stack s =
      recur (N := N) frame argc first d stack s := by
  simp only [joined, firstPart, recur, split, Option.bind_eq_bind]
  split_ifs with ha
  · simp only [Option.bind_some]
    rcases hf with rfl | hf
    · simp [written, copied, finished, secondPart, goOn]
    · have ht : (stack.drop (stack.length - argc)).take argc = stack.drop (stack.length - argc) :=
        take_of_length_le (by rw [length_drop]; omega)
      rw [copied_eq_written (by omega) (Nat.le_refl _) (by omega), ht]
      cases hw : written (frame.base + first) (stack.drop (stack.length - argc))
          (stack.take (stack.length - argc)) with
      | none => rfl
      | some below =>
        have hl : frame.base + first + argc ≤ below.length := by
          rw [length_of_written hw, length_take]
          omega
        simp [finished, secondPart, goOn, take_append_of_le_length hl]
  · rfl

theorem exec_eq_joined {instr : Instr Nat} (hf : IsFused instr) (hft : Fits frame stack instr)
    (ip : Nat) (s : σ) :
    exec env R frame instr ip stack s = joined env R frame instr ip stack s := by
  cases instr
  case addConst k | subConst k =>
    simp only [exec, joined, firstPart]
    cases (frame.function env).constants[k]? with
    | none => rfl
    | some b => exact (finished_arith _ b ip stack s).symm
  case jumpIfNotLt d | jumpIfNotGt d | jumpIfNotLeq d | jumpIfNotGeq d =>
    simp only [exec, joined, firstPart, finished_compared]
  case jumpIfNotEq d =>
    simp only [exec, joined, firstPart, finished_compared, otherEqual_eq_equal, map_beq_true]
  case jumpIfNotNeq d =>
    simp only [exec, joined, firstPart, finished_compared, otherEqual_eq_equal, beq_false]
  case recur argc first d => exact (finished_recur d ip s hft).symm
  all_goals exact hf.elim

end Parts

section Ticks

variable {m m' : Machine σ N} {frame : CallFrame} {ip budget : Nat} {rest : List (Frame N)}
  {v : Value}

variable (env : Env) (R : Runtime σ N) (natives : Natives σ N)

/-! ### One step at a time -/

/-- The machine whose frame on top is given a value.  A builtin's frame waits with it for its next
step. -/
def handed (v : Value) (m : Machine σ N) : Machine σ N ⊕ End σ N :=
  match m.frames with
  | [] => .inr (.done v m)
  | .code _ _ :: _ => .inl { m with stack := m.stack ++ [v] }
  | .native _ :: _ => .inl { m with pendingInput := some v }

/-- The machine after an instruction or a resumption, before the next step. -/
def next : Got σ N → Machine σ N ⊕ End σ N
  | .goesOn m => .inl m
  | .gives v m => handed v m
  | .ends e => .inr e

/-- One step: a part of an instruction that fuses two, an instruction, or a resumption. -/
def tick (m : Machine σ N) : Machine σ N ⊕ End σ N :=
  match m.half with
  | some half => runSecond R half m
  | none =>
    match m.frames with
    | [] => .inr (.done .unit m)
    | .native n :: rest =>
      next (resumeNative env R natives n (m.pendingInput.getD .unit) rest
        { m with pendingInput := none })
    | .code frame ip :: rest =>
      if fusesAt env frame ip then runFirst env R frame ip rest m
      else next (whole env R frame ip rest m)

/-- No `Recur` is about to run whose values lie over the bindings they are for. -/
def RecurFits (m : Machine σ N) : Prop :=
  ∀ frame ip rest instr next, m.half = none → m.frames = .code frame ip :: rest →
    decode (frame.function env).code ip = some (instr, next) → Fits frame m.stack instr

/-- That is so in every state of the run from `m`. -/
def RunFits (m : Machine σ N) : Prop :=
  ∀ n m', run (tick env R natives) n m = .paused m' → RecurFits env m'

/-- The run of some ticks as a slice. -/
def report : Cut (Machine σ N) (End σ N) → Slice σ N
  | .paused m => .outOfBudget m
  | .ended e left => e.slice left

/-- The slice that goes on from there with `budget` steps. -/
def resumed (budget : Nat) : Machine σ N ⊕ End σ N → Slice σ N
  | .inl m => report (run (tick env R natives) budget m)
  | .inr e => e.slice budget

variable {env R natives}

theorem RunFits.self (h : RunFits env R natives m) : RecurFits env m := h 0 m rfl

theorem RunFits.tick (h : RunFits env R natives m) (ht : tick env R natives m = .inl m') :
    RunFits env R natives m' :=
  fun n m'' hr => h (n + 1) m'' ((run_succ_of_inl ht).trans hr)

theorem report_run_succ (budget : Nat) (m : Machine σ N) :
    report (run (tick env R natives) (budget + 1) m) =
      resumed env R natives budget (tick env R natives m) := by
  cases ht : tick env R natives m with
  | inl m' => rw [run_succ_of_inl ht, resumed]
  | inr e => rw [run_succ_of_inr ht, resumed, report]

/-! ### An instruction is one tick or two -/

/-- Everything the reader reads is as `P` says. -/
structure Makes (P : Instr Nat → Prop) (r : Reader (Instr Nat)) : Prop where
  holds {code : List UInt8} {i j : Nat} {instr : Instr Nat} : r code i = some (instr, j) → P instr

theorem makes_pure {P : Instr Nat → Prop} {instr : Instr Nat} (h : P instr) :
    Makes P (pure instr) := by
  refine ⟨fun hr => ?_⟩
  cases hr
  exact h

theorem makes_bind {α : Type} {P : Instr Nat → Prop} {r : Reader α} {f : α → Reader (Instr Nat)}
    (h : ∀ a, Makes P (f a)) : Makes P (r >>= f) := by
  refine ⟨fun hr => ?_⟩
  obtain ⟨p, -, hp⟩ := Option.bind_eq_some_iff.mp hr
  exact (h p.1).holds hp

theorem makes_isFused {byte : UInt8} {r : Reader (Instr Nat)} (hf : fusesTwo byte)
    (hr : table[byte.toNat]? = some r) : Makes IsFused r := by
  simp only [fusesTwo, contains_eq_mem, mem_cons, not_mem_nil, or_false, decide_eq_true_eq] at hf
  rcases hf with rfl | rfl | rfl | rfl | rfl | rfl | rfl | rfl | rfl <;>
    obtain rfl := Option.some.inj hr
  case inr.inr.inr.inr.inr.inr.inr.inr =>
    exact makes_bind fun _ => makes_bind fun _ => makes_bind fun _ => makes_pure trivial
  all_goals exact makes_bind fun _ => makes_pure trivial

theorem isFused_of_fusesAt {next : Nat} {instr : Instr Nat} (hf : fusesAt env frame ip)
    (hd : decode (frame.function env).code ip = some (instr, next)) : IsFused instr := by
  simp only [fusesAt, Option.any_eq_true] at hf
  obtain ⟨byte, hb, hf⟩ := hf
  simp only [decode, hb, Option.bind_eq_bind, Option.bind_some] at hd
  obtain ⟨r, hr, hrd⟩ := Option.bind_eq_some_iff.mp hd
  exact (makes_isFused hf hr).holds hrd

theorem next_whole (R : Runtime σ N) (natives : Natives σ N) (hh : m.half = none)
    (hfr : m.frames = .code frame ip :: rest) (hf : fusesAt env frame ip) (hft : RecurFits env m) :
    next (whole env R frame ip rest m) =
      match runFirst env R frame ip rest m with
      | .inl m' => tick env R natives m'
      | .inr e => .inr e := by
  cases hd : decode (frame.function env).code ip with
  | none => simp only [whole, runFirst, hd, next]
  | some p =>
    obtain ⟨instr, after⟩ := p
    have hp : exec env R frame instr after m.stack m.world =
        joined env R frame instr after m.stack m.world :=
      exec_eq_joined (isFused_of_fusesAt hf hd)
        (hft frame ip rest instr after hh hfr hd) after m.world
    simp only [whole, runFirst, hd, hp, joined]
    cases firstPart env R frame instr m.stack with
    | none => rfl
    | some q =>
      obtain ⟨result, stack⟩ := q
      cases result with
      | error e => rfl
      | ok half =>
        simp only [Option.bind_some, finished, tick, runSecond]
        cases secondPart R after stack half with
        | none => rfl
        | some q =>
          obtain ⟨result, stack⟩ := q
          cases result <;> simp [obey, next, noted, hh]

/-! ### Where the loop is -/

/-- No instruction is half run, and no value waits for a builtin's frame. -/
structure AtRest (m : Machine σ N) : Prop where
  half : m.half = none
  pending : m.pendingInput = none

/-- The machine is about to run an instruction. -/
structure AtInstr (m : Machine σ N) : Prop extends AtRest m where
  code : ∃ frame ip rest, m.frames = .code frame ip :: rest

/-- The loop goes on where an instruction runs. -/
def Got.Sound : Got σ N → Prop
  | .goesOn m => AtInstr m
  | .gives _ m => AtRest m
  | .ends _ => True

theorem sound_pushCodeFrame (closure : VmClosure) (base : Nat) (h : AtRest m) :
    Got.Sound (pushCodeFrame closure base m) := by
  unfold pushCodeFrame
  split_ifs
  · trivial
  · exact ⟨⟨h.half, h.pending⟩, _, _, _, rfl⟩

theorem sound_obey (frame : CallFrame) (rest : List (Frame N)) (h : AtRest m) (o : Outcome N) :
    Got.Sound (obey frame rest m o) := by
  cases o with
  | go ip stack | become stack closure => exact ⟨⟨h.half, h.pending⟩, _, _, _, rfl⟩
  | enter ip stack closure base => exact sound_pushCodeFrame closure base ⟨h.half, h.pending⟩
  | native ip stack n | panics ip stack n | returned stack v => exact ⟨h.half, h.pending⟩
  | fail ip stack e => trivial

theorem sound_whole (frame : CallFrame) (ip : Nat) (rest : List (Frame N)) (h : AtRest m) :
    Got.Sound (whole env R frame ip rest m) := by
  unfold whole
  split
  · trivial
  · split
    · trivial
    · exact sound_obey (m := { m.noted with world := _ }) frame rest ⟨h.half, h.pending⟩ _

theorem sound_callFrom (callee slot : Value) (args : List Value) (h : AtRest m) :
    Got.Sound (callFrom env R callee slot args m) := by
  unfold callFrom
  cases closure? callee with
  | some closure =>
    dsimp only
    split
    · trivial
    · split_ifs
      · trivial
      · exact sound_pushCodeFrame _ _ ⟨h.half, h.pending⟩
  | none =>
    dsimp only
    split
    · split
      · exact ⟨h.half, h.pending⟩
      · trivial
    · exact ⟨h.half, h.pending⟩
    · trivial
    · trivial

theorem sound_resumeNative (n : N) (v : Value) (rest : List (Frame N)) (h : AtRest m) :
    Got.Sound (resumeNative env R natives n v rest m) := by
  unfold resumeNative
  split
  · exact ⟨h.half, h.pending⟩
  · exact ⟨h.half, h.pending⟩
  · exact sound_callFrom _ _ _ ⟨h.half, h.pending⟩
  · trivial

/-! ### A slice is a run of ticks -/

/-- The loop `go` runs ticks, with a budget of at most `budget`. -/
def Follows (env : Env) (R : Runtime σ N) (natives : Natives σ N)
    (go : Nat → Machine σ N → Slice σ N) (budget : Nat) : Prop :=
  ∀ left ≤ budget, ∀ m, AtInstr m → RunFits env R natives m →
    go left m = report (run (Machine.tick env R natives) left m)

/-- A builtin's frame that waits with its value is resumed by the next tick. -/
theorem tick_waiting {n : N} (hh : m.half = none) (hf : m.frames = .native n :: rest)
    (hp : m.pendingInput.getD .unit = v) :
    tick env R natives m =
      next (resumeNative env R natives n v rest { m with pendingInput := none }) := by
  simp only [tick, hh, hf, hp]

/-- A resumption of a builtin's frame, and what it leads to. -/
theorem deliver_native_eq {go : Nat → Machine σ N → Slice σ N} {n : N}
    (hgo : Follows env R natives go budget) (h : AtRest m)
    (hft : ∀ m', next (resumeNative env R natives n v rest m) = .inl m' → RunFits env R natives m')
    (ih : ∀ {v m}, AtRest m → (∀ m', handed v m = .inl m' → RunFits env R natives m') →
      (deliver env R natives budget v m).slice go = resumed env R natives budget (handed v m))
    (hf : m.frames = .native n :: rest) :
    (deliver env R natives (budget + 1) v m).slice go =
      resumed env R natives budget (next (resumeNative env R natives n v rest m)) := by
  have hs : Got.Sound (resumeNative env R natives n v rest m) := sound_resumeNative n v rest h
  rw [deliver, hf]
  dsimp only
  cases hg : resumeNative env R natives n v rest m with
  | goesOn m' =>
    rw [hg] at hs hft
    exact hgo budget (Nat.le_refl _) m' hs (hft m' rfl)
  | gives v' m' =>
    rw [hg] at hs hft
    exact ih hs hft
  | ends e => rfl

/-- A value that is given to the frame on top: the resumptions it leads to are a tick each. -/
theorem deliver_eq {go : Nat → Machine σ N → Slice σ N} (hgo : Follows env R natives go budget)
    (h : AtRest m) (hf : ∀ m', handed v m = .inl m' → RunFits env R natives m') :
    (deliver env R natives budget v m).slice go = resumed env R natives budget (handed v m) := by
  induction budget generalizing v m with
  | zero =>
    obtain ⟨frames, stack, half, pending, world, begun⟩ := m
    match frames with
    | [] => rfl
    | .code frame ip :: rest =>
      exact hgo 0 (Nat.le_refl 0) _ ⟨⟨h.half, h.pending⟩, _, _, _, rfl⟩ (hf _ rfl)
    | .native n :: rest => rfl
  | succ budget ih =>
    have hgo' : Follows env R natives go budget := fun left hl =>
      hgo left (Nat.le_succ_of_le hl)
    obtain ⟨frames, stack, half, pending, world, begun⟩ := m
    match frames with
    | [] => rfl
    | .code frame ip :: rest =>
      exact hgo _ (Nat.le_refl _) _ ⟨⟨h.half, h.pending⟩, _, _, _, rfl⟩ (hf _ rfl)
    | .native n :: rest =>
      obtain ⟨rfl, rfl⟩ : half = none ∧ pending = none := ⟨h.half, h.pending⟩
      have ht : tick env R natives ⟨.native n :: rest, stack, none, some v, world, begun⟩ =
          next (resumeNative env R natives n v rest
            ⟨.native n :: rest, stack, none, none, world, begun⟩) :=
        tick_waiting rfl rfl rfl
      have hn := deliver_native_eq hgo' h
        (fun m' hm' => (hf _ rfl).tick (ht.trans hm')) (ih hgo') rfl
      exact hn.trans ((report_run_succ budget _).trans (congrArg _ ht)).symm

/-- The first part of an instruction ends the run with an error only: nothing is left then. -/
theorem slice_of_runFirst {e : End σ N} (h : runFirst env R frame ip rest m = .inr e)
    (left left' : Nat) : e.slice left = e.slice left' := by
  unfold runFirst at h
  split at h
  · cases h; rfl
  · split at h
    · cases h; rfl
    · cases h
    · cases h; rfl

/-- The arm of an instruction, one that fuses two with two steps at least, as ticks. -/
theorem report_run_whole (hh : m.half = none) (hfr : m.frames = .code frame ip :: rest)
    (hft : RunFits env R natives m) (hs : ¬ (budget = 0 ∧ fusesAt env frame ip)) :
    report (run (tick env R natives) (budget + 1) m) =
      resumed env R natives (budget - secondStep env frame ip)
        (next (whole env R frame ip rest m)) ∧
      ∀ m', next (whole env R frame ip rest m) = .inl m' → RunFits env R natives m' := by
  cases hf : fusesAt env frame ip with
  | false =>
    have ht : tick env R natives m = next (whole env R frame ip rest m) := by
      simp only [tick, hh, hfr, hf, Bool.false_eq_true, if_false]
    refine ⟨?_, fun m' hm' => hft.tick (ht.trans hm')⟩
    rw [report_run_succ, ht, secondStep, hf]
    rfl
  | true =>
    have ht : tick env R natives m = runFirst env R frame ip rest m := by
      simp only [tick, hh, hfr, hf, if_true]
    have hw := next_whole R natives hh hfr hf hft.self
    obtain ⟨budget, rfl⟩ : ∃ less, budget = less + 1 := by
      rw [hf] at hs
      exact Nat.exists_eq_succ_of_ne_zero fun hz => hs ⟨hz, rfl⟩
    rw [report_run_succ, ht, secondStep, hf, hw]
    cases hfi : runFirst env R frame ip rest m with
    | inl m' =>
      have hft' := hft.tick (ht.trans hfi)
      refine ⟨report_run_succ budget m', fun m'' hm'' => hft'.tick hm''⟩
    | inr e =>
      exact ⟨slice_of_runFirst hfi _ _, nofun⟩

theorem follows_loop (fuel : Nat) : Follows env R natives (loop env R natives fuel) fuel := by
  induction fuel with
  | zero =>
    intro left hl m h hft
    obtain rfl : left = 0 := Nat.le_zero.mp hl
    rfl
  | succ fuel ih =>
    intro budget hb m h hft
    cases budget with
    | zero => rfl
    | succ budget =>
      obtain ⟨frame, ip, rest, hf⟩ := h.code
      have hs : Got.Sound (whole env R frame ip rest m) := sound_whole frame ip rest h.toAtRest
      simp only [loop, hf]
      split_ifs with hst
      · obtain ⟨rfl, hfs⟩ := hst
        have ht : tick env R natives m = runFirst env R frame ip rest m := by
          simp only [tick, h.half, hf, hfs, if_true]
        rw [report_run_succ, ht]
        cases runFirst env R frame ip rest m <;> rfl
      · obtain ⟨hr, hft'⟩ := report_run_whole h.half hf hft hst
        rw [hr]
        have hl : budget - secondStep env frame ip ≤ fuel := by omega
        have ih' : Follows env R natives (loop env R natives fuel)
            (budget - secondStep env frame ip) :=
          fun left hle => ih left (Nat.le_trans hle hl)
        cases hg : whole env R frame ip rest m with
        | goesOn m' =>
          rw [hg] at hs hft'
          exact ih _ hl m' hs (hft' m' rfl)
        | gives v m' =>
          rw [hg] at hs hft'
          exact deliver_eq ih' hs hft'
        | ends e => rfl

/-! ### A slice starts where the last one ended -/

/-- The machine between two slices: a frame is there, an instruction is half run in a function's
frame only, and a value waits for a builtin's frame only. -/
structure Ready (m : Machine σ N) : Prop where
  frames : m.frames ≠ []
  half : m.half ≠ none → ∃ frame ip rest, m.frames = .code frame ip :: rest
  pending : ∀ frame ip rest, m.frames = .code frame ip :: rest → m.pendingInput = none

theorem AtInstr.ready (h : AtInstr m) : Ready m where
  frames := by
    obtain ⟨frame, ip, rest, hf⟩ := h.code
    rw [hf]
    nofun
  half _ := h.code
  pending _ _ _ _ := h.pending

theorem ready_of_handed (h : AtRest m) (hm' : handed v m = .inl m') : Ready m' := by
  obtain ⟨frames, stack, half, pending, world, begun⟩ := m
  match frames with
  | .code frame ip :: rest =>
    cases hm'
    exact AtInstr.ready ⟨⟨h.half, h.pending⟩, _, _, _, rfl⟩
  | .native n :: rest =>
    cases hm'
    exact ⟨nofun, fun hh => absurd h.half hh, nofun⟩

theorem Got.Sound.ready {got : Got σ N} (h : Got.Sound got) (hm : next got = .inl m) : Ready m := by
  cases got with
  | goesOn m' =>
    cases hm
    exact AtInstr.ready h
  | gives v m' => exact ready_of_handed h hm
  | ends e => cases hm

theorem atInstr_of_runSecond {half : Half} (h : Ready m) (hm' : runSecond R half m = .inl m') :
    AtInstr m' := by
  unfold runSecond at hm'
  split at hm'
  case h_1 frame ip rest hf =>
    split at hm'
    · cases hm'
    · cases hm'
      exact ⟨⟨rfl, h.pending frame ip rest hf⟩, _, _, _, rfl⟩
    · cases hm'
  case h_2 => cases hm'

theorem ready_of_runFirst (h : Ready m) (hf : m.frames = .code frame ip :: rest)
    (hm' : runFirst env R frame ip rest m = .inl m') : Ready m' := by
  unfold runFirst at hm'
  split at hm'
  · cases hm'
  · split at hm'
    · cases hm'
    · cases hm'
      exact ⟨nofun, fun _ => ⟨_, _, _, rfl⟩, fun _ _ _ _ => h.pending frame ip rest hf⟩
    · cases hm'

theorem ready_of_tick (h : Ready m) (hm' : tick env R natives m = .inl m') : Ready m' := by
  cases hh : m.half with
  | some half =>
    simp only [tick, hh] at hm'
    exact (atInstr_of_runSecond h hm').ready
  | none =>
    simp only [tick, hh] at hm'
    split at hm'
    · cases hm'
    · exact (sound_resumeNative (m := ⟨m.frames, m.stack, none, none, m.world, m.begun⟩) _ _ _
        ⟨rfl, rfl⟩).ready hm'
    case h_3 frame ip rest hf =>
      split_ifs at hm'
      · exact ready_of_runFirst h hf hm'
      · exact (sound_whole _ _ _ ⟨hh, h.pending frame ip rest hf⟩).ready hm'

/-- A slice that ran out of budget left the machine where the next one can start. -/
theorem ready_of_paused {n : Nat} (h : Ready m) (hr : run (tick env R natives) n m = .paused m') :
    Ready m' := by
  induction n generalizing m with
  | zero =>
    cases hr
    exact h
  | succ n ih =>
    cases ht : tick env R natives m with
    | inl next =>
      rw [run_succ_of_inl ht] at hr
      exact ih (ready_of_tick h ht) hr
    | inr e =>
      rw [run_succ_of_inr ht] at hr
      cases hr

theorem goOnFrom_atInstr (h : AtInstr m) (hft : RunFits env R natives m) :
    goOnFrom env R natives budget m = report (run (tick env R natives) budget m) := by
  obtain ⟨frame, ip, rest, hf⟩ := h.code
  simp only [goOnFrom, hf]
  exact follows_loop budget budget (Nat.le_refl _) m h hft

/-- A slice that starts with the second part of an instruction. -/
theorem runFrames_of_half {half : Half} (hf : m.frames ≠ []) (hh : m.half = some half) :
    runFrames env R natives (budget + 1) m =
      match runSecond R half m with
      | .inl m => goOnFrom env R natives budget m
      | .inr e => e.slice budget := by
  obtain ⟨top, rest, ht⟩ := exists_cons_of_ne_nil hf
  cases hs : runSecond R half m <;> simp only [runFrames, ht, hh, hs]

theorem runFrames_eq (h : Ready m) (hb : 0 < budget) (hf : RunFits env R natives m) :
    runFrames env R natives budget m = report (run (tick env R natives) budget m) := by
  obtain ⟨budget, rfl⟩ := Nat.exists_eq_succ_of_ne_zero (Nat.pos_iff_ne_zero.mp hb)
  obtain ⟨frames, stack, half, pending, world, begun⟩ := m
  match frames, half with
  | top :: rest, some half =>
    set m : Machine σ N := ⟨top :: rest, stack, some half, pending, world, begun⟩
    have ht : tick env R natives m = runSecond R half m := rfl
    rw [report_run_succ, ht, runFrames_of_half h.frames rfl]
    cases hs : runSecond R half m with
    | inl m' =>
      exact goOnFrom_atInstr (atInstr_of_runSecond h hs) (hf.tick (ht.trans hs))
    | inr e => rfl
  | .code frame ip :: rest, none =>
    exact goOnFrom_atInstr ⟨⟨rfl, h.pending frame ip rest rfl⟩, _, _, _, rfl⟩ hf
  | .native n :: rest, none =>
    have ht : tick env R natives ⟨.native n :: rest, stack, none, pending, world, begun⟩ =
        next (resumeNative env R natives n (pending.getD .unit) rest
          ⟨.native n :: rest, stack, none, none, world, begun⟩) :=
      tick_waiting rfl rfl rfl
    have hgo : ∀ budget, Follows env R natives (fun left m => loop env R natives left left m)
        budget := fun _ left _ => follows_loop left left (Nat.le_refl _)
    have hn := deliver_native_eq (hgo budget)
      (m := ⟨.native n :: rest, stack, none, none, world, begun⟩) ⟨rfl, rfl⟩
      (fun m' hm' => hf.tick (ht.trans hm')) (deliver_eq (hgo budget)) rfl
    exact hn.trans ((report_run_succ budget _).trans (congrArg _ ht)).symm

theorem RunFits.paused {n : Nat} (h : RunFits env R natives m)
    (hr : run (Machine.tick env R natives) n m = .paused m') : RunFits env R natives m' :=
  fun k m'' hk => h (n + k) m'' ((run_add_of_paused hr).trans hk)

theorem slices_eq {budgets : List Nat} (h : Ready m) (hbd : ∀ budget ∈ budgets, 0 < budget)
    (hf : RunFits env R natives m) :
    slices env R natives budgets m = report (run (tick env R natives) budgets.sum m) := by
  induction budgets generalizing m with
  | nil => rfl
  | cons budget budgets ih =>
    rw [sum_cons, slices, runFrames_eq h (hbd _ mem_cons_self) hf]
    cases hr : run (tick env R natives) budget m with
    | paused m' =>
      rw [run_add_of_paused hr]
      exact ih (ready_of_paused h hr) (fun b hb => hbd b (mem_cons_of_mem _ hb)) (hf.paused hr)
    | ended e left =>
      rw [run_add_of_ended hr]
      cases e <;> rfl

/-- What a slice with that budget came to, with the steps it took to finish the frames; none if the
budget was used up. -/
def outcome (budget : Nat) : Slice σ N → Option (End σ N × Option Nat)
  | .done v left m => some (.done v m, some (budget - left))
  | .failed e m => some (.failed e m, none)
  | .stopped => some (.stopped, none)
  | .outOfBudget _ => none

theorem outcome_unique {a b : Nat} {x y : End σ N × Option Nat}
    (hx : outcome a (report (run (tick env R natives) a m)) = some x)
    (hy : outcome b (report (run (tick env R natives) b m)) = some y) : x = y := by
  cases ha : run (tick env R natives) a m with
  | paused m' => rw [ha] at hx; cases hx
  | ended e left =>
    cases hb : run (tick env R natives) b m with
    | paused m' => rw [hb] at hy; cases hy
    | ended e' left' =>
      obtain ⟨rfl, hl⟩ := ended_unique ha hb
      rw [ha] at hx
      rw [hb] at hy
      cases e with
      | done v m' =>
        have hs : a - left = b - left' := by omega
        simp only [report, End.slice, outcome, hs] at hx hy
        exact Option.some.inj (hx.symm.trans hy)
      | failed e m' | stopped => exact Option.some.inj (hx.symm.trans hy)

/-- Cutting a run into slices does not show: the slices are one slice with all their budgets, and
they come to what a slice whose budget is not used up comes to.  The machine they leave has the
same history: the states in which its instructions began. -/
theorem slicing_invisible {m : Machine σ N} {budgets : List Nat} (h : Ready m)
    (hfits : RunFits env R natives m) (hsome : budgets ≠ [])
    (hbudgets : ∀ budget ∈ budgets, 0 < budget) :
    slices env R natives budgets m = runFrames env R natives budgets.sum m ∧
      ∀ budget x y, 0 < budget →
        outcome budgets.sum (slices env R natives budgets m) = some x →
        outcome budget (runFrames env R natives budget m) = some y → x = y := by
  have hs : 0 < budgets.sum := by
    obtain ⟨budget, rest, rfl⟩ := exists_cons_of_ne_nil hsome
    have := hbudgets budget mem_cons_self
    rw [sum_cons]
    omega
  rw [slices_eq h hbudgets hfits]
  refine ⟨(runFrames_eq h hs hfits).symm, fun budget x y hb hx hy => ?_⟩
  rw [runFrames_eq h hb hfits] at hy
  exact outcome_unique hx hy

end Ticks

/-! ### A loop whose binding is all the frame holds

Its `Recur` takes the one value of the frame to the slot it lies in. -/

/-- `Dup; JumpIfFalse 13; Not; Recur 1 0 0; Return`, of one parameter. -/
def loopsOnce : Function :=
  { name := "loops", arity := 1, upvalueCount := 0, dictSlot := false,
    code := [54, 45, 9, 0, 18, 72, 1, 0, 0, 243, 255, 255, 255, 30], constants := [] }

/-- `Constant 0; AddConst 0; Return`. -/
def addsOne : Function :=
  { name := "adds", arity := 0, upvalueCount := 0, dictSlot := false,
    code := [0, 0, 0, 9, 0, 0, 30], constants := [.int 1] }

/-- Builtins' frames that are done with the value they are given. -/
def doneAtOnce : Natives Unit Unit where
  resume _ v s := (.ok (.done v), (), s)

/-- The machine at the start of a call with these arguments. -/
def startWith (args : List Value) : Machine Unit Unit :=
  { frames := [.code frameOf 0], stack := .unit :: args, world := () }

/-- Run whole, the function returns after eight steps.  With four steps in the first slice the
first part of its `Recur` stops the program. -/
theorem recur_cut_in_two :
    Accepts (programOf loopsOnce) loopsOnce ∧
      (∃ m, runFrames (programOf loopsOnce) default doneAtOnce 8 (startWith [.bool true]) =
        .done (.bool false) 0 m) ∧
      slices (programOf loopsOnce) default doneAtOnce [4, 4] (startWith [.bool true]) =
        .stopped :=
  ⟨⟨40, rfl⟩, ⟨_, rfl⟩, rfl⟩

theorem runFits_of_fits {f : Function} (R : Runtime Unit Unit)
    (h : ∀ frame stack ip instr next, decode f.code ip = some (instr, next) →
      Fits frame stack instr) (m : Machine Unit Unit) :
    RunFits (programOf f) R doneAtOnce m :=
  fun _ m' _ frame ip _ instr next _ _ hd => h frame m'.stack ip instr next hd

/-- The theorem at a run that is cut at every step, also between the parts of an `AddConst`. -/
theorem slicing_invisible_addsOne :
    slices (programOf addsOne) default doneAtOnce [1, 1, 1, 1] (startWith []) =
      runFrames (programOf addsOne) default doneAtOnce 4 (startWith []) := by
  have hf : RunFits (programOf addsOne) default doneAtOnce (startWith []) := by
    refine runFits_of_fits default (fun frame stack ip instr next hd => ?_) _
    rcases ip with _ | _ | _ | _ | _ | _ | _ | ip <;> cases hd <;> trivial
  have hr : Ready (startWith []) := ⟨cons_ne_nil _ _, fun hh => absurd rfl hh, fun _ _ _ _ => rfl⟩
  exact (slicing_invisible hr hf (cons_ne_nil 1 [1, 1, 1]) (by decide)).1

end Machine

end Silt.Vm

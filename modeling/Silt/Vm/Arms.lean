import Silt.Lib.Elementwise
import Silt.Vm.Exec

/-!
# What an arm leaves in its frame

The arms of the instruction loop, by the number of values on the stack.  An arm whose instruction
takes off, names and reads only what is the frame's (`Inside`) does not stop the program, and
where the frame goes on it holds the number of values that the instruction table says
(`exec_fits`).

Three arms read more than the verifier checks.  What they need is a condition of its own
(`Meets`): `TailCallKeep` in a frame that still holds the values it keeps, `CallChecked` and
`TailCallChecked` with a receiver (for `CallDict` the same number means that there is none), and a
tail call of a method that takes its dictionary from the slot below the frame, in a frame that has
such a slot.

## Main definitions

* `Inside` : what an instruction takes, names and reads is there.
* `Meets` : the condition on the three arms.
* `Outcome.Fits` : where a frame goes on, and with how many values.

## Main results

* `exec_fits` : the arm of every instruction.
-/

namespace Silt.Vm

open List Option

open Bytecode Verify

variable {σ N : Type}

/-! ### The condition, and what it is for -/

/-- The closure that a tail call would have take the frame over, if it calls one. -/
def tailCallee (R : Runtime σ N) (instr : Instr Nat) (stack : List Value) (s : σ) :
    Option VmClosure :=
  match instr with
  | .tailCall argc | .tailCallKeep argc _ | .tailCallChecked argc _ _ => do
    let (_, callee) ← calleeOf argc stack
    closure? callee
  | .tailCallDict method argc _ => do
    let (_, dict) ← calleeOf argc stack
    match R.dictFind dict method s with
    | (.ok (found, _), s) =>
      match R.methodValue found s with
      | (.ok callee, _) => closure? callee
      | (.error _, _) => none
    | (.error _, _) => none
  | .tailCallMethod method argc of receiver => do
    let value ← stack[← argumentSlot argc receiver stack]?
    let callee ← (R.method of value method s).1
    closure? callee
  | _ => none

/-- The step keeps inside the frame what the verifier leaves unchecked. -/
structure Meets (env : Env) (R : Runtime σ N) (frame : CallFrame) (instr : Instr Nat)
    (stack : List Value) (s : σ) : Prop where
  /-- `TailCallKeep` finds the values it keeps below the function and its arguments. -/
  keeps : ∀ argc keep, instr = .tailCallKeep argc keep →
    frame.base + keep + (argc + 1) ≤ stack.length
  /-- `CallChecked` and `TailCallChecked` have a receiver. -/
  receives : ∀ argc receiver template, instr = .callChecked argc receiver template ∨
    instr = .tailCallChecked argc receiver template → receiver < argc
  /-- A method that takes the frame over has a slot for its dictionary. -/
  lends : ∀ closure, tailCallee R instr stack s = some closure →
    (env.function closure.function).dictSlot = true → 0 < frame.base

/-- The constant is there, and of the kind. -/
def HasConst (env : Env) (f : Function) (k : Nat) (kind : ConstKind) : Prop :=
  ∃ v, f.constants[k]? = some v ∧ fits env v kind = true

/-- What the operand names exists, in a frame of this height. -/
def Named (env : Env) (f : Function) (height : Nat) : Operand Nat → Prop
  | .plain | .target _ => True
  | .slot slot => slot < height
  | .upvalue index => index < f.upvalueCount
  | .const k kind => HasConst env f k kind
  | .builtin id => ∃ row, env.builtin id = some row ∧ row.enabled = true ∧ row.isConstant = false
  | .strs names => ∀ k ∈ names, HasConst env f k .str
  | .captures captures => ∀ c ∈ captures,
      if c.isLocal then c.index < height else c.index < f.upvalueCount
  | .segments segments => segments.items.count .value = segments.values ∧
      ∀ k, .literal k ∈ segments.items → HasConst env f k .str

/-- The slots that an arm reads or writes besides those it takes off and names are in the frame. -/
def Reads (base height : Nat) : Instr Nat → Prop
  | .tailCallKeep argc keep => keep + (argc + 1) ≤ height
  | .recur argc first _ => first + argc ≤ height
  | .slide slot => slot < height
  | .frameDict => 0 < base
  | .callMethod _ argc _ receiver | .tailCallMethod _ argc _ receiver => receiver < argc
  | .callChecked argc receiver _ | .tailCallChecked argc receiver _ => receiver < argc
  | .callDict _ argc receiver | .tailCallDict _ argc receiver => receiver < argc ∨ receiver = 255
  | _ => True

/-- What the instruction takes off, names and reads is the frame's. -/
structure Inside (env : Env) (frame : CallFrame) (instr : Instr Nat) (stack : List Value) :
    Prop where
  takes : frame.base + instr.effect.pops ≤ stack.length
  cuts : ∀ cut, instr.effect.cut = some cut →
    frame.base + cut + instr.effect.pops ≤ stack.length
  names : ∀ operand ∈ instr.operands,
    Named env (frame.function env) (stack.length - frame.base) operand
  reads : Reads frame.base (stack.length - frame.base) instr

/-! ### The shapes of an arm, by the number of values -/

/-- Where the frame goes on after the arm, it is at one of `ips` with `length` values on the stack:
at once, or with the value that a call returns. -/
def Outcome.Fits (ips : Nat → Prop) (length : Nat) : Outcome N → Prop
  | .go ip stack => ips ip ∧ stack.length = length
  | .enter ip stack _ base => ips ip ∧ base = length ∧ 0 < length ∧ length ≤ stack.length + 1
  | .native ip stack _ => ips ip ∧ stack.length + 1 = length
  | .panics _ _ _ | .become _ _ | .returned _ _ | .fail _ _ _ => True

/-- The arm does not stop the program, and its outcome is as `P` says. -/
def Ends (result : Option (Outcome N × σ)) (P : Outcome N → Prop) : Prop :=
  ∃ o s, result = some (o, s) ∧ P o

theorem popped_eq (stack : List Value) (h : 1 ≤ stack.length) :
    ∃ bl v, popped stack = some (bl, v) ∧ bl.length + 1 = stack.length := by
  rcases eq_nil_or_concat stack with rfl | ⟨bl, v, rfl⟩
  · exact absurd h (Nat.not_succ_le_zero 0)
  · exact ⟨bl, v, by simp [popped], by simp⟩

theorem split_eq {n : Nat} {stack : List Value} (h : n ≤ stack.length) :
    ∃ bl values, split n stack = some (bl, values) ∧ bl.length + n = stack.length ∧
      values.length = n := by
  refine ⟨_, _, if_pos h, ?_, ?_⟩
  · rw [length_take]
    omega
  · rw [length_drop]
    omega

theorem put_eq {stack : List Value} {i : Nat} (v : Value) (h : i < stack.length) :
    put stack i v = some (stack.set i v) :=
  if_pos h

theorem copied_isSome (n : Nat) :
    ∀ (dst src : Nat) (stack : List Value), src + n ≤ stack.length → dst + n ≤ stack.length →
      ∃ stack', copied dst src n stack = some stack' ∧ stack'.length = stack.length := by
  induction n with
  | zero => exact fun _ _ _ _ _ => ⟨_, rfl, rfl⟩
  | succ n ih =>
    intro dst src stack hs hd
    have hv := getElem?_eq_getElem (by omega : src < stack.length)
    obtain ⟨stack', hc, hl⟩ := ih (dst + 1) (src + 1) (stack.set dst stack[src])
      (by rw [length_set]; omega) (by rw [length_set]; omega)
    refine ⟨stack', ?_, by rw [hl, length_set]⟩
    simp [copied, hv, put_eq _ (by omega : dst < stack.length), hc]

open Outcome (Fits)

section Shapes

variable {ips : Nat → Prop} {ip length : Nat} {stack : List Value} {s : σ}

theorem ends_goOn (hip : ips ip) (h : stack.length = length) :
    Ends (goOn (N := N) ip stack s) (Fits ips length) :=
  ⟨_, _, rfl, hip, h⟩

theorem ends_refuse (e : VmError) : Ends (refuse (N := N) ip stack e s) (Fits ips length) :=
  ⟨_, _, rfl, trivial⟩

theorem ends_pushFound {v : Option Value} (hip : ips ip) (hv : v.isSome)
    (h : stack.length + 1 = length) : Ends (pushFound (N := N) ip stack v s) (Fits ips length) := by
  obtain ⟨v, rfl⟩ := isSome_iff_exists.mp hv
  exact ends_goOn hip (by simpa using h)

theorem ends_overTop {f : Value → Except VmError Value} (hip : ips ip) (hs : 1 ≤ stack.length)
    (h : stack.length - 1 + 1 = length) :
    Ends (overTop (N := N) ip stack f s) (Fits ips length) := by
  obtain ⟨bl, v, hp, hb⟩ := popped_eq stack hs
  simp only [overTop, hp, bind_eq_bind, bind_some]
  cases f v with
  | ok r => exact ends_goOn hip (by simp; omega)
  | error e => exact ends_refuse e

theorem ends_overTwo {f : Value → Value → Except VmError Value} (hip : ips ip)
    (hs : 2 ≤ stack.length) (h : stack.length - 2 + 1 = length) :
    Ends (overTwo (N := N) ip stack f s) (Fits ips length) := by
  obtain ⟨top, b, hp, ht⟩ := popped_eq stack (by omega)
  obtain ⟨bl, a, hp', hb⟩ := popped_eq top (by omega)
  simp only [overTwo, hp, hp', bind_eq_bind, bind_some]
  cases f a b with
  | ok r => exact ends_goOn hip (by simp; omega)
  | error e => exact ends_refuse e

theorem ends_jumpUnless {f : Value → Value → Except VmError Bool} {dest : Nat} (hip : ips ip)
    (hd : ips dest) (hs : 2 ≤ stack.length) (h : stack.length - 2 = length) :
    Ends (jumpUnless (N := N) ip dest stack f s) (Fits ips length) := by
  obtain ⟨top, b, hp, ht⟩ := popped_eq stack (by omega)
  obtain ⟨bl, a, hp', hb⟩ := popped_eq top (by omega)
  simp only [jumpUnless, hp, hp', bind_eq_bind, bind_some]
  cases f a b with
  | ok holds =>
    refine ends_goOn ?_ (by omega)
    cases holds
    · exact hd
    · exact hip
  | error e => exact ends_refuse e

theorem getLast?_eq (h : 1 ≤ stack.length) : ∃ v, stack.getLast? = some v :=
  ⟨_, getLast?_eq_some_getLast (ne_nil_of_length_pos h)⟩

theorem ends_test {f : Value → Option Bool} (hip : ips ip) (hf : ∀ v, (f v).isSome)
    (hs : 1 ≤ stack.length) (h : stack.length - 1 + 2 = length) :
    Ends (test (N := N) ip stack f s) (Fits ips length) := by
  obtain ⟨v, hv⟩ := getLast?_eq hs
  obtain ⟨result, hr⟩ := isSome_iff_exists.mp (hf v)
  simp only [test, hv, hr, bind_eq_bind, bind_some]
  exact ends_goOn hip (by simp; omega)

theorem ends_destruct {f : Value → Option (Except VmError Value)} (hip : ips ip)
    (hf : ∀ v, (f v).isSome) (hs : 1 ≤ stack.length) (h : stack.length - 1 + 2 = length) :
    Ends (destruct (N := N) ip stack f s) (Fits ips length) := by
  obtain ⟨v, hv⟩ := getLast?_eq hs
  obtain ⟨part, hp⟩ := isSome_iff_exists.mp (hf v)
  simp only [destruct, hv, hp, bind_eq_bind, bind_some]
  cases part with
  | ok part => exact ends_goOn hip (by simp; omega)
  | error e => exact ends_refuse e

theorem ends_gather {f : List Value → Option (Except VmError Value)} {n : Nat} (hip : ips ip)
    (hf : ∀ values, values.length = n → (f values).isSome) (hst : n ≤ stack.length)
    (h : stack.length - n + 1 = length) :
    Ends (gather (N := N) ip n stack f s) (Fits ips length) := by
  obtain ⟨bl, values, hs, hb, hv⟩ := split_eq hst
  obtain ⟨made, hm⟩ := isSome_iff_exists.mp (hf values hv)
  simp only [gather, hs, hm, bind_eq_bind, bind_some]
  cases made with
  | ok v => exact ends_goOn hip (by simp; omega)
  | error e => exact ends_refuse e

theorem ends_askTop {f : Value → Ask σ Value} (hip : ips ip) (hs : 1 ≤ stack.length)
    (h : stack.length - 1 + 1 = length) :
    Ends (askTop (N := N) ip stack f s) (Fits ips length) := by
  obtain ⟨bl, v, hp, hb⟩ := popped_eq stack hs
  simp only [askTop, hp, bind_eq_bind, bind_some]
  rcases f v s with ⟨r | r, s'⟩
  · exact ends_refuse r
  · exact ends_goOn hip (by simp; omega)

theorem ends_pushAsked {question : Ask σ Value} (hip : ips ip) (h : stack.length + 1 = length) :
    Ends (pushAsked (N := N) ip stack question s) (Fits ips length) := by
  unfold pushAsked
  rcases question s with ⟨r | r, s'⟩
  · exact ends_refuse r
  · exact ends_goOn hip (by simpa using h)

theorem ends_entered {question : Ask σ (Entered N)} (hip : ips ip) (h : stack.length + 1 = length) :
    Ends (entered ip stack question s) (Fits ips length) := by
  unfold entered
  rcases question s with ⟨r | r, s'⟩
  · exact ends_refuse r
  · cases r with
    | value v => exact ends_goOn hip (by simpa using h)
    | native n => exact ⟨_, _, rfl, hip, h⟩

end Shapes

/-! ### Calls, by the number of values -/

section Calls

variable {env : Env} {R : Runtime σ N} {frame : CallFrame} {ips : Nat → Prop} {ip : Nat}
  {stack : List Value} {s : σ} {closure : VmClosure}

/-- A method that takes its dictionary from the slot below its arguments. -/
abbrev takesDict (env : Env) (closure : VmClosure) : Prop :=
  (env.function closure.function).dictSlot = true

theorem withBound_eq {first ac : Nat} (hf : first ≤ stack.length)
    (hd : takesDict env closure → 0 < first) :
    ∃ stack' ac', withBound env closure first ac stack = some (stack', ac') ∧ ac ≤ ac' ∧
      stack'.length + ac = stack.length + ac' := by
  unfold withBound
  cases hb : closure.bound with
  | nil => exact ⟨_, _, rfl, Nat.le_refl _, rfl⟩
  | cons dict rest =>
    dsimp only
    by_cases hs : takesDict env closure
    · have hp := hd hs
      rw [if_pos hs, if_neg (by omega), put_eq dict (by omega)]
      grind
    grind

theorem ends_callClosure {ac fs : Nat} (hip : ips ip) (h : fs + 1 ≤ stack.length) :
    Ends (callClosure (N := N) env ip closure ac fs stack s) (Fits ips (fs + 1)) := by
  obtain ⟨stack', ac', hb, hle, hl⟩ :=
    @withBound_eq env stack closure (fs + 1) ac h fun _ => Nat.succ_pos _
  simp only [callClosure, hb, bind_eq_bind, bind_some]
  split
  · exact ends_refuse _
  · exact ⟨_, _, rfl, hip, rfl, Nat.succ_pos _, by omega⟩

theorem ends_callOther {callee : Value} {fs : Nat} (hip : ips ip) (h : fs + 1 ≤ stack.length) :
    Ends (callOther R ip callee fs stack s) (Fits ips (fs + 1)) := by
  have hc : (stack.take fs).length = fs := by
    rw [length_take]
    omega
  unfold callOther
  split
  · exact ends_entered hip (by rw [hc])
  · exact ends_entered hip (by rw [hc])
  · split
    · exact ends_refuse _
    · exact ends_goOn hip (by simp [hc])
  · exact ends_refuse _

theorem lendDict_eq {first : Nat} (hb : frame.base ≤ first) (hf : first ≤ stack.length)
    (hd : takesDict env closure → 0 < frame.base) :
    ∃ lent, lendDict env frame closure first stack = some lent ∧ lent.length = stack.length := by
  unfold lendDict
  by_cases hs : takesDict env closure
  · have hp := hd hs
    rw [if_pos hs, if_neg (by omega), getElem?_eq_getElem (by omega : first - 1 < _)]
    exact ⟨_, put_eq _ (by omega), length_set⟩
  · exact ⟨stack, if_neg hs, rfl⟩

/-- A closure takes the frame over where its arguments are above the frame's first values. -/
theorem ends_reuseFrameAfter {first ac keep length : Nat} (hb : frame.base + keep ≤ first)
    (ha : first + ac ≤ stack.length) (hd : takesDict env closure → 0 < frame.base) :
    ∃ o : Outcome N, reuseFrameAfter env frame closure first ac keep stack = some o ∧
      o.Fits ips length := by
  obtain ⟨lent, hln, hl⟩ := @lendDict_eq env frame stack closure first (by omega) (by omega) hd
  obtain ⟨stack', hc, -⟩ := copied_isSome ac (frame.base + keep) first lent (by omega) (by omega)
  refine ⟨.become (stack'.take (frame.base + keep + ac)) closure, ?_, trivial⟩
  simp only [reuseFrameAfter, hln, hc, bind_eq_bind, bind_some, pure]

theorem ends_takeOver {first ac length : Nat} (hbs : frame.base ≤ first)
    (ha : first + ac = stack.length) (hd : takesDict env closure → 0 < frame.base) :
    Ends (takeOver (N := N) env frame ip closure first ac stack s) (Fits ips length) := by
  obtain ⟨stack', ac', hb, hle, hl⟩ := @withBound_eq env stack closure first ac
    (by omega) fun h => Nat.lt_of_lt_of_le (hd h) hbs
  simp only [takeOver, hb, bind_eq_bind, bind_some]
  split
  · exact ends_refuse _
  · obtain ⟨o, ho, hf⟩ := @ends_reuseFrameAfter N env frame ips stack' closure first ac' 0
      length hbs (by omega) hd
    exact ⟨o, s, by simp [ho], hf⟩

theorem ends_callValue {tail : Bool} {callee : Value} {ac fs : Nat} (hip : ips ip)
    (hb : frame.base ≤ fs) (ha : fs + 1 + ac = stack.length)
    (hd : ∀ closure, tail = true → closure? callee = some closure →
      takesDict env closure → 0 < frame.base) :
    Ends (callValue env R frame tail ip callee ac fs stack s) (Fits ips (fs + 1)) := by
  unfold callValue
  cases hc : closure? callee with
  | none => exact ends_callOther hip (by omega)
  | some closure =>
    cases tail with
    | false => exact ends_callClosure hip (by omega)
    | true => exact ends_takeOver (by omega) ha (hd closure rfl hc)

theorem calleeOf_eq {ac : Nat} (h : ac + 1 ≤ stack.length) :
    ∃ fs callee, calleeOf ac stack = some (fs, callee) ∧ fs + 1 + ac = stack.length := by
  have hlt : stack.length - 1 - ac < stack.length := by omega
  refine ⟨stack.length - 1 - ac, stack[stack.length - 1 - ac], ?_, by omega⟩
  rw [calleeOf, if_pos h, getElem?_eq_getElem hlt]
  rfl

theorem ends_tailCallKeep {ac keep : Nat} (h : frame.base + keep + (ac + 1) ≤ stack.length)
    (hd : ∀ closure, tailCallee R (.tailCallKeep ac keep) stack s = some closure →
      takesDict env closure → 0 < frame.base) :
    Ends (tailCallKeep (N := N) env frame ip ac keep stack s)
      (Fits ips (stack.length - (ac + 1) + 1)) := by
  obtain ⟨fs, callee, hc, hsl⟩ := @calleeOf_eq stack ac (by omega)
  have hk : tailCallKeep.keptValues frame stack keep =
      some ((stack.drop frame.base).take keep) := if_pos (by omega)
  have hs : (stack.take (fs + 1) ++ (stack.drop frame.base).take keep ++
      stack.drop (fs + 1)).length = stack.length + keep := by
    simp only [length_append, length_take, length_drop]
    omega
  simp only [tailCallKeep, hc, hk, bind_eq_bind, bind_some]
  cases hcl : closure? callee with
  | none => exact ends_refuse _
  | some closure =>
    have hp : takesDict env closure → 0 < frame.base := hd closure (by simp [tailCallee, hc, hcl])
    dsimp only
    split
    · obtain ⟨o, ho, hf⟩ := @ends_reuseFrameAfter N env frame ips stack closure (fs + 1)
        ac keep (stack.length - (ac + 1) + 1) (by omega) (by omega) hp
      exact ⟨o, s, by simp [ho], hf⟩
    · exact ends_takeOver (by omega) (by rw [hs]; omega) hp

theorem ends_checkReceiver {template slot length : Nat} {callee : Arm σ N}
    (hs : slot < stack.length)
    (hc : ∀ s', (R.templateType template s).2 = s' → Ends (callee s') (Fits ips length)) :
    Ends (checkReceiver R ip template slot stack callee s) (Fits ips length) := by
  unfold checkReceiver
  cases hty : R.templateType template s with
  | mk answer s' =>
    cases answer with
    | error e => exact ends_refuse e
    | ok ty =>
      simp only [getElem?_eq_getElem hs, bind_eq_bind, bind_some]
      split
      · exact hc s' (by rw [hty])
      · exact ends_refuse _

theorem ends_call {tail : Bool} {ac : Nat} (hip : ips ip) (h : frame.base + (ac + 1) ≤ stack.length)
    (hd : ∀ closure, tail = true → ((calleeOf ac stack).bind fun p => closure? p.2) =
      some closure → takesDict env closure → 0 < frame.base) :
    Ends (call env R frame tail ip ac stack s) (Fits ips (stack.length - (ac + 1) + 1)) := by
  obtain ⟨fs, callee, hc, hs⟩ := @calleeOf_eq stack ac (by omega)
  simp only [call, hc, bind_eq_bind, bind_some]
  rw [show stack.length - (ac + 1) + 1 = fs + 1 by omega]
  refine ends_callValue hip (by omega) hs fun closure ht hcl => ?_
  exact hd closure ht (by rw [hc]; exact hcl)

theorem ends_callDict {tail : Bool} {method ac receiver : Nat} (hip : ips ip)
    (h : frame.base + (ac + 1) ≤ stack.length) (hr : receiver < ac ∨ receiver = 255)
    (hd : ∀ closure, tail = true →
      tailCallee R (.tailCallDict method ac receiver) stack s = some closure →
      takesDict env closure → 0 < frame.base) :
    Ends (callDict env R frame tail ip method ac receiver stack s)
      (Fits ips (stack.length - (ac + 1) + 1)) := by
  obtain ⟨fs, dict, hc, hs⟩ := @calleeOf_eq stack ac (by omega)
  rw [show stack.length - (ac + 1) + 1 = fs + 1 by omega]
  have hl : ∀ ty, ∃ wrong, wrongReceiver? R ty (fs + 1) receiver stack = some wrong := by
    intro ty
    unfold wrongReceiver?
    split
    · exact ⟨none, rfl⟩
    · rw [getElem?_eq_getElem (by omega : fs + 1 + receiver < stack.length)]
      exact ⟨_, rfl⟩
  simp only [callDict, hc, bind_eq_bind, bind_some]
  split
  case h_2 => exact ends_refuse _
  case h_1 index parts =>
    cases hf : R.dictFind (.dict index parts) method s with
    | mk answer s₁ =>
      cases answer with
      | error e => exact ends_refuse e
      | ok found =>
        obtain ⟨found, ty⟩ := found
        obtain ⟨wrong, hw⟩ := hl ty
        simp only [hw, bind_some]
        cases wrong with
        | some v => exact ends_refuse _
        | none =>
          dsimp only [callDictMethod]
          cases hv : R.methodValue found s₁ with
          | mk answer s₂ =>
            cases answer with
            | error e => exact ends_refuse e
            | ok callee =>
              refine ends_callValue hip (by omega) hs fun closure ht hcl => ?_
              exact hd closure ht (by simp [tailCallee, hc, hf, hv, hcl])

theorem ends_callMethod {tail : Bool} {method ac of receiver : Nat} (hip : ips ip)
    (h : frame.base + ac ≤ stack.length) (hrc : receiver < ac)
    (hd : ∀ closure, tail = true →
      tailCallee R (.tailCallMethod method ac of receiver) stack s = some closure →
      takesDict env closure → 0 < frame.base) :
    Ends (callMethod env R frame tail ip method ac of receiver stack s)
      (Fits ips (stack.length - ac + 1)) := by
  have hs : argumentSlot ac receiver stack = some (stack.length - ac + receiver) :=
    if_pos (by omega)
  have hv := getElem?_eq_getElem (by omega : stack.length - ac + receiver < stack.length)
  simp only [callMethod, hs, hv, bind_eq_bind, bind_some]
  generalize hr : stack[stack.length - ac + receiver] = value at hv
  have hct : (stack.take (stack.length - ac)).length = stack.length - ac := by
    rw [length_take]
    omega
  have ho : stack.length - ac + 1 ≤
      (if isDescriptor value then stack else openSlot stack (stack.length - ac)).length := by
    split
    · omega
    · simp only [openSlot, length_append, length_singleton, hct]
      omega
  cases hf : (R.method of value method s).1 with
  | none => exact ends_entered hip (by rw [hct])
  | some callee =>
    dsimp only
    cases hc : closure? callee with
    | none => exact ends_callOther hip ho
    | some closure =>
      cases tail with
      | false => exact ends_callClosure hip ho
      | true =>
        refine ends_takeOver ?_ ?_ (hd closure rfl ?_)
        · split <;> omega
        · split <;> omega
        · simp [tailCallee, hs, hv, hf, hc]

end Calls

/-! ### The arms, by the number of values -/

section Arms

variable {env : Env} {R : Runtime σ N} {frame : CallFrame} {ips : Nat → Prop} {ip length : Nat}
  {stack : List Value} {s : σ} {f : Function}

theorem HasConst.isSome {k : Nat} {kind : ConstKind} (h : HasConst env f k kind) :
    (f.constants[k]?).isSome := by
  obtain ⟨v, hv, -⟩ := h
  rw [hv]
  rfl

theorem HasConst.string {k : Nat} (h : HasConst env f k .str) : (stringAt f k).isSome := by
  obtain ⟨v, hv, hf⟩ := h
  cases v <;> simp_all [fits, stringAt]

theorem HasConst.tag {k : Nat} (h : HasConst env f k .tag) : (tagAt f k).isSome := by
  obtain ⟨v, hv, hf⟩ := h
  cases v <;> simp_all [fits, tagAt]

theorem HasConst.typeInfo {k : Nat} (h : HasConst env f k .type) : (typeInfoAt f k).isSome := by
  obtain ⟨v, hv, hf⟩ := h
  cases v <;> simp_all [fits, typeInfoAt]

theorem HasConst.function {k : Nat} (h : HasConst env f k .func) : (functionAt f k).isSome := by
  obtain ⟨v, hv, hf⟩ := h
  cases v <;> simp_all [fits, functionAt]

theorem mapM_isSome {α β : Type} {g : α → Option β} {xs : List α}
    (h : ∀ x ∈ xs, (g x).isSome) : (xs.mapM g).isSome := by
  obtain ⟨ys, hys⟩ := exists_forall₂ fun x hx => isSome_iff_exists.mp (h x hx)
  rw [mapM_eq_some_iff.mpr hys, isSome_some]

theorem recordOf_isSome {ty : Nat} {names : List Nat} (hty : HasConst env f ty .type)
    (hn : ∀ k ∈ names, HasConst env f k .str) (values : List Value) :
    (recordOf f ty names values).isSome := by
  obtain ⟨info, hi⟩ := isSome_iff_exists.mp hty.typeInfo
  obtain ⟨texts, ht⟩ := isSome_iff_exists.mp (mapM_isSome fun k hk => (hn k hk).string)
  simp only [recordOf, hi, ht, bind_eq_bind, bind_some]
  split <;> rfl

theorem updateOf_isSome {names : List Nat} (hn : ∀ k ∈ names, HasConst env f k .str)
    (values : List Value) (hv : values.length = names.length + 1) :
    (updateOf R f names values).isSome := by
  obtain ⟨texts, ht⟩ := isSome_iff_exists.mp (mapM_isSome fun k hk => (hn k hk).string)
  unfold updateOf
  grind

theorem restOf_isSome {excluded : List Nat} (hn : ∀ k ∈ excluded, HasConst env f k .str)
    (values : List Value) (hv : values.length = 1) : (restOf R f excluded values).isSome := by
  obtain ⟨texts, ht⟩ := isSome_iff_exists.mp (mapM_isSome fun k hk => (hn k hk).string)
  obtain ⟨v, rfl⟩ := length_eq_one_iff.mp hv
  unfold restOf
  grind

theorem mapValue_isSome {key : Nat} (hky : HasConst env f key .str) (v : Value) :
    (mapValue R f key v).isSome := by
  obtain ⟨k, hk⟩ := isSome_iff_exists.mp hky.isSome
  obtain ⟨name, hn⟩ := isSome_iff_exists.mp hky.string
  simp only [mapValue, hk, hn, bind_eq_bind, bind_some]
  split
  · split <;> rfl
  · rfl

theorem segmentsText_isSome {items : List Segment} :
    ∀ {next : Nat} {text : String}, (∀ k, .literal k ∈ items → HasConst env f k .str) →
      next + items.count .value ≤ stack.length →
      ∃ result, segmentsText R f stack items next text = some result ∧
        ∀ slot, result = .error slot → slot < stack.length := by
  induction items with
  | nil => exact fun _ _ => ⟨_, rfl, nofun⟩
  | cons item items ih =>
    intro next text hl hc
    have hr : ∀ k, .literal k ∈ items → HasConst env f k .str :=
      fun k hk => hl k (mem_cons_of_mem _ hk)
    cases item with
    | literal k =>
      obtain ⟨text', ht⟩ := isSome_iff_exists.mp (hl k mem_cons_self).string
      simp only [segmentsText, ht, bind_eq_bind, bind_some]
      exact ih hr (by simpa using hc)
    | value =>
      rw [count_cons_self] at hc
      have hlt : next < stack.length := by omega
      simp only [segmentsText, getElem?_eq_getElem hlt, bind_eq_bind, bind_some]
      split
      · exact ih hr (by omega)
      · exact ⟨_, rfl, fun slot hs => by cases hs; exact hlt⟩

theorem ends_interpolate {segments : Segments} (hip : ips ip)
    (hn : Named env (frame.function env) (stack.length - frame.base) (.segments segments))
    (hst : segments.values ≤ stack.length) (h : stack.length - segments.values + 1 = length) :
    Ends (interpolate env R frame ip segments stack s) (Fits ips length) := by
  obtain ⟨hc, hl⟩ := hn
  obtain ⟨bl, values, hs, hb, hv⟩ := split_eq hst
  simp only [interpolate, hs, bind_eq_bind, bind_some]
  split
  · exact ends_goOn hip (by simp at hv; omega)
  · obtain ⟨result, hr, hsl⟩ :=
      @segmentsText_isSome _ _ env R stack _ segments.items bl.length "" hl (by omega)
    simp only [hr, bind_some]
    cases result with
    | error slot =>
      simp only [getElem?_eq_getElem (hsl slot rfl), bind_some]
      exact ends_refuse _
    | ok text =>
      dsimp only
      split
      · exact ends_refuse _
      · exact ends_goOn hip (by simp; omega)

theorem ends_displayValue (hip : ips ip) (hst : 1 ≤ stack.length)
    (h : stack.length - 1 + 1 = length) : Ends (displayValue R ip stack s) (Fits ips length) := by
  obtain ⟨bl, v, hp, hb⟩ := popped_eq stack hst
  simp only [displayValue, hp, bind_eq_bind, bind_some]
  have hs : Ends (goOn (N := N) ip stack s) (Fits ips length) := ends_goOn hip (by omega)
  split
  · exact hs
  · exact hs
  · exact hs
  · exact hs
  · split
    · exact ends_entered hip (by omega)
    · exact ends_refuse _

theorem ends_setGlobal {slot : Nat} (hip : ips ip) (hs : 1 ≤ stack.length)
    (h : stack.length - 1 + 1 = length) : Ends (setGlobal R ip slot stack s) (Fits ips length) := by
  obtain ⟨v, hv⟩ := getLast?_eq hs
  simp only [setGlobal, hv, bind_eq_bind, bind_some]
  split
  · exact ends_goOn hip (by omega)
  · exact ends_refuse _

theorem ends_makeClosure {k : Nat} {captures : List UpvalueDesc} (hip : ips ip)
    (hk : HasConst env (frame.function env) k .func)
    (hcp : ∀ c ∈ captures, if c.isLocal then c.index < stack.length - frame.base
      else c.index < (frame.function env).upvalueCount)
    (hu : frame.closure.upvalues.length = (frame.function env).upvalueCount)
    (h : stack.length + 1 = length) :
    Ends (makeClosure (N := N) env frame ip k captures stack s) (Fits ips length) := by
  obtain ⟨g, hg⟩ := isSome_iff_exists.mp hk.function
  have hca : ∀ c ∈ captures, (if c.isLocal then stack[frame.base + c.index]?
      else frame.closure.upvalues[c.index]?).isSome := by
    grind
  obtain ⟨upvalues, hm⟩ := isSome_iff_exists.mp (mapM_isSome hca)
  simp only [makeClosure, hm, hg, bind_eq_bind, bind_some]
  exact ends_goOn hip (by simpa using h)

theorem ends_makeDict {k n : Nat} (hip : ips ip) (hk : ((frame.function env).constants[k]?).isSome)
    (hst : n ≤ stack.length) (h : stack.length - n + 1 = length) :
    Ends (makeDict env R frame ip k n stack s) (Fits ips length) := by
  obtain ⟨proto, hp⟩ := isSome_iff_exists.mp hk
  obtain ⟨bl, parts, hs, hb, -⟩ := split_eq hst
  simp only [makeDict, hp, hs, bind_eq_bind, bind_some]
  split
  · exact ends_refuse _
  · exact ends_goOn hip (by simp; omega)

theorem ends_dictMethod {method of : Nat} (hip : ips ip) (hs : 1 ≤ stack.length)
    (h : stack.length - 1 + 2 = length) :
    Ends (dictMethod R ip method of stack s) (Fits ips length) := by
  obtain ⟨bl, v, hp, hb⟩ := popped_eq stack hs
  simp only [dictMethod, hp, bind_eq_bind, bind_some]
  split
  · exact ends_goOn hip (by simp; omega)
  · split
    · exact ends_goOn hip (by simp; omega)
    · exact ends_refuse _

theorem ends_bind {n : Nat} (hip : ips ip) (hst : n + 1 ≤ stack.length)
    (h : stack.length - (n + 1) + 1 = length) :
    Ends (bind (N := N) ip n stack s) (Fits ips length) := by
  obtain ⟨bl, values, hs, hb, -⟩ := @split_eq n stack (by omega)
  obtain ⟨rest, v, hp, hr⟩ := popped_eq bl (by omega)
  simp only [bind, hs, hp, bind_eq_bind, bind_some]
  split
  · exact ends_goOn hip (by omega)
  · exact ends_goOn hip (by simp; omega)
  · split
    · exact ends_goOn hip (by omega)
    · exact ends_refuse _

theorem ends_questionMark (hip : ips ip) (hs : 1 ≤ stack.length)
    (h : stack.length - 1 + 1 = length) :
    Ends (questionMark R frame ip stack s) (Fits ips length) := by
  obtain ⟨bl, v, hp, hb⟩ := popped_eq stack hs
  simp only [questionMark, hp, bind_eq_bind, bind_some]
  split
  · split
    · split
      · exact ends_goOn hip (by simp; omega)
      · exact ends_goOn hip (by simp; omega)
    · split
      · exact ⟨_, _, rfl, trivial⟩
      · exact ends_refuse _
  · exact ends_refuse _

theorem ends_panics (hs : 1 ≤ stack.length) : Ends (panics R ip stack s) (Fits ips length) := by
  obtain ⟨bl, v, hp, hb⟩ := popped_eq stack hs
  simp only [panics, hp, bind_eq_bind, bind_some]
  split
  · exact ⟨_, _, rfl, trivial⟩
  · exact ends_refuse _

/-- `Recur` writes no higher than the values it takes off: the loop's bindings are below them. -/
theorem ends_recur {ac first dest : Nat} (hd : ips dest)
    (hct : frame.base + first + ac ≤ stack.length) :
    Ends (recur (N := N) frame ac first dest stack s) (Fits ips (frame.base + first + ac)) := by
  obtain ⟨stack', hc, hl⟩ := copied_isSome ac (frame.base + first)
    (stack.length - ac) stack (by omega) hct
  simp only [recur, if_pos (by omega : ac ≤ stack.length), hc, bind_eq_bind, bind_some]
  exact ends_goOn hd (by rw [length_take]; omega)

theorem ends_slide {slot : Nat} (hip : ips ip) (hs : frame.base + slot + 1 ≤ stack.length) :
    Ends (slide (N := N) frame ip slot stack s) (Fits ips (frame.base + slot + 1)) := by
  obtain ⟨bl, v, hp, -⟩ := popped_eq stack (by omega)
  simp only [slide, hp, bind_eq_bind, bind_some]
  split
  · rw [put_eq v (by omega)]
    exact ends_goOn hip (by rw [length_take, length_set]; omega)
  · exact ends_goOn hip (by omega)

/-- Where control may go from the instruction, the next one being at `next`. -/
def Goes (instr : Instr Nat) (next ip : Nat) : Prop :=
  (instr.effect.flow.goesOn = true ∧ ip = next) ∨
    (instr.effect.flow.jumps = true ∧ instr.target? = some ip)

/-- The number of values on the stack after an instruction of this effect. -/
def lengthAfter (base : Nat) (effect : Effect) (length : Nat) : Nat :=
  match effect.cut with
  | none => length - effect.pops + effect.pushes
  | some cut => base + cut + effect.pushes

/-- An arm that is inside its frame does not stop the program, and leaves the number of values that
the table says. -/
theorem exec_fits {instr : Instr Nat} {next : Nat} (hin : Inside env frame instr stack)
    (hm : Meets env R frame instr stack s)
    (hu : frame.closure.upvalues.length = (frame.function env).upvalueCount) :
    Ends (exec env R frame instr next stack s)
      (Fits (Goes instr next) (lengthAfter frame.base instr.effect stack.length)) := by
  obtain ⟨ht, hc, hn, hr⟩ := hin
  have hs : instr.effect.pops ≤ stack.length := by omega
  have named : ∀ {operand}, operand ∈ instr.operands →
      Named env (frame.function env) (stack.length - frame.base) operand := hn _
  have hnx : instr.effect.flow.goesOn = true → Goes instr next next := fun h => .inl ⟨h, rfl⟩
  have hd : ∀ dest, instr.effect.flow.jumps = true → instr.target? = some dest →
      Goes instr next dest := fun _ h h' => .inr ⟨h, h'⟩
  cases instr
  all_goals dsimp only [exec]
  case unit | «true» | «false» | getClosure =>
    exact ends_goOn (hnx rfl) (by simp [lengthAfter, Instr.effect, Effect.of])
  case constant k =>
    exact ends_pushFound (hnx rfl) (HasConst.isSome (named (mem_cons_self))) rfl
  case add | sub | mul | div | mod | eq | neq | lt | gt | leq | geq | makeRange | listConcat =>
    exact ends_overTwo (hnx rfl) hs rfl
  case addConst k | subConst k =>
    obtain ⟨b, hb⟩ := isSome_iff_exists.mp (HasConst.isSome (named (mem_cons_self)))
    simp only [hb, bind_eq_bind, bind_some]
    exact ends_overTop (hnx rfl) hs rfl
  case negate | not | getField => exact ends_overTop (hnx rfl) hs rfl
  case interpolate segments =>
    exact ends_interpolate (hnx rfl) (named (mem_cons_self)) hs rfl
  case displayValue => exact ends_displayValue (hnx rfl) hs rfl
  case getLocal slot =>
    have hsl : slot < stack.length - frame.base := named (mem_cons_self)
    refine ends_pushFound (hnx rfl) ?_ rfl
    rw [getElem?_eq_getElem (by omega)]
    rfl
  case setLocal slot =>
    have hsl : slot < stack.length - frame.base := named (mem_cons_self)
    obtain ⟨v, hv⟩ := getLast?_eq hs
    simp only [hv, put_eq v (by omega : frame.base + slot < stack.length), bind_eq_bind, bind_some]
    exact ends_goOn (hnx rfl) (by rw [length_set]; exact (Nat.sub_add_cancel hs).symm)
  case getGlobal slot => exact ends_pushAsked (hnx rfl) rfl
  case setGlobal slot => exact ends_setGlobal (hnx rfl) hs rfl
  case getUpvalue index =>
    have hid : index < (frame.function env).upvalueCount := named (mem_cons_self)
    refine ends_pushFound (hnx rfl) ?_ rfl
    rw [getElem?_eq_getElem (by omega)]
    rfl
  case call ac => exact ends_call (hnx rfl) ht nofun
  case tailCall ac =>
    exact ends_call (hnx rfl) ht fun closure _ => hm.lends closure
  case tailCallKeep ac keep =>
    exact ends_tailCallKeep (hm.keeps ac keep rfl) hm.lends
  case ret =>
    obtain ⟨bl, v, hp, -⟩ := popped_eq stack hs
    simp only [hp, bind_eq_bind, bind_some]
    exact ⟨_, _, rfl, trivial⟩
  case callBuiltin builtin ac =>
    obtain ⟨bl, args, hsp, hbl, -⟩ := @split_eq ac stack hs
    simp only [hsp, bind_eq_bind, bind_some]
    refine ends_entered (hnx rfl) ?_
    simp only [lengthAfter, Instr.effect, Effect.of]
    omega
  case makeClosure k captures =>
    exact ends_makeClosure (hnx rfl) (named mem_cons_self)
      (named (mem_cons_of_mem _ mem_cons_self)) hu rfl
  case makeTuple | makeList | makeMap | makeSet =>
    exact ends_gather (hnx rfl) (fun _ _ => rfl) hs rfl
  case makeRecord ty fields =>
    exact ends_gather (hnx rfl) (fun values _ => recordOf_isSome (named mem_cons_self)
        (named (mem_cons_of_mem _ mem_cons_self)) values) hs rfl
  case makeType ty count =>
    obtain ⟨info, hif⟩ := isSome_iff_exists.mp (HasConst.typeInfo (named mem_cons_self))
    refine ends_gather (hnx rfl) (fun values _ => ?_) hs rfl
    simp [hif]
  case recordUpdate fields =>
    exact ends_gather (hnx rfl) (updateOf_isSome (named mem_cons_self)) hs rfl
  case getFieldNamed k =>
    obtain ⟨name, hnm⟩ := isSome_iff_exists.mp (HasConst.string (named mem_cons_self))
    simp only [hnm, bind_eq_bind, bind_some]
    exact ends_overTop (hnx rfl) hs rfl
  case jump dest => exact ends_goOn (hd _ rfl rfl) rfl
  case jumpIfFalse dest | jumpIfTrue dest =>
    obtain ⟨bl, v, hp, hbl⟩ := popped_eq stack hs
    simp only [hp, bind_eq_bind, bind_some]
    refine ends_goOn ?_ (by simp only [lengthAfter, Instr.effect]; omega)
    split
    · first
      | exact hnx rfl
      | exact hd _ rfl rfl
    · first
      | exact hnx rfl
      | exact hd _ rfl rfl
  case jumpIfNotLt | jumpIfNotGt | jumpIfNotLeq | jumpIfNotGeq | jumpIfNotEq | jumpIfNotNeq =>
    exact ends_jumpUnless (hnx rfl) (hd _ rfl rfl) hs rfl
  case pop =>
    obtain ⟨bl, v, hp, hbl⟩ := popped_eq stack hs
    simp only [hp, bind_eq_bind, bind_some]
    exact ends_goOn (hnx rfl) (by simp only [lengthAfter, Instr.effect, Effect.of]; omega)
  case dup =>
    obtain ⟨v, hv⟩ := getLast?_eq hs
    refine ends_pushFound (hnx rfl) (by rw [hv]; rfl) ?_
    simp only [lengthAfter, Instr.effect, Effect.of] at *
    omega
  case testTag k =>
    exact ends_test (hnx rfl) (fun v => by simpa using HasConst.tag (named mem_cons_self)) hs rfl
  case testEqual k | testMapHasKey k =>
    exact ends_test (hnx rfl)
      (fun v => by rw [isSome_map]; exact HasConst.isSome (named mem_cons_self)) hs rfl
  case testTupleLen | testListMin | testListExact =>
    exact ends_test (hnx rfl) (fun v => rfl) hs rfl
  case testIntRange lo hi | testFloatRange lo hi =>
    obtain ⟨l, hl⟩ := isSome_iff_exists.mp (HasConst.isSome (named mem_cons_self))
    obtain ⟨h, hh⟩ := isSome_iff_exists.mp
      (HasConst.isSome (named (mem_cons_of_mem _ mem_cons_self)))
    refine ends_test (hnx rfl) (fun v => ?_) hs rfl
    simp only [hl, hh, bind_eq_bind, bind_some]
    split <;> rfl
  case destructTuple | destructVariant | destructList | destructListRest =>
    exact ends_destruct (hnx rfl) (fun v => rfl) hs rfl
  case destructRecordField index =>
    refine ends_destruct (hnx rfl) (fun v => ?_) hs rfl
    split <;> rfl
  case destructRecordFieldNamed k =>
    obtain ⟨name, hnm⟩ := isSome_iff_exists.mp (HasConst.string (named mem_cons_self))
    refine ends_destruct (hnx rfl) (fun v => ?_) hs rfl
    simp [hnm]
  case destructRecordRest excluded =>
    exact ends_gather (hnx rfl) (restOf_isSome (named mem_cons_self)) hs rfl
  case testRecordTag ty =>
    exact ends_test (hnx rfl)
      (fun v => by simpa using HasConst.typeInfo (named mem_cons_self)) hs rfl
  case destructMapValue key =>
    exact ends_destruct (hnx rfl) (mapValue_isSome (named mem_cons_self)) hs rfl
  case recur ac first dest => exact ends_recur (hd _ rfl rfl) (hc first rfl)
  case questionMark => exact ends_questionMark (hnx rfl) hs rfl
  case panic => exact ends_panics hs
  case callMethod method ac of receiver =>
    exact ends_callMethod (hnx rfl) ht hr nofun
  case tailCallMethod method ac of receiver =>
    exact ends_callMethod (hnx rfl) ht hr fun closure _ => hm.lends closure
  case makeDict k n =>
    exact ends_makeDict (hnx rfl) (HasConst.isSome (named mem_cons_self)) hs rfl
  case callDict method ac receiver =>
    exact ends_callDict (hnx rfl) ht hr nofun
  case tailCallDict method ac receiver =>
    exact ends_callDict (hnx rfl) ht hr fun closure _ => hm.lends closure
  case callChecked ac receiver template =>
    have hsl : argumentSlot ac receiver stack = some (stack.length - ac + receiver) :=
      if_pos (by simp only [Instr.effect, Effect.of] at hs; omega)
    simp only [hsl, bind_eq_bind, bind_some]
    exact ends_checkReceiver (by simp only [Instr.effect, Effect.of, Reads] at *; omega)
      fun s' _ => ends_call (hnx rfl) ht nofun
  case tailCallChecked ac receiver template =>
    have hsl : argumentSlot ac receiver stack = some (stack.length - ac + receiver) :=
      if_pos (by simp only [Instr.effect, Effect.of] at hs; omega)
    simp only [hsl, bind_eq_bind, bind_some]
    exact ends_checkReceiver (by simp only [Instr.effect, Effect.of, Reads] at *; omega)
      fun s' _ => ends_call (hnx rfl) ht fun closure _ => hm.lends closure
  case frameDict =>
    have hbs : frame.base ≠ 0 := Nat.pos_iff_ne_zero.mp hr
    refine ends_pushFound (hnx rfl) ?_ rfl
    rw [if_neg hbs, getElem?_eq_getElem (by omega)]
    rfl
  case dictMethod method of => exact ends_dictMethod (hnx rfl) hs rfl
  case dictSub | superDict | whereDict | dictType | typeArg =>
    exact ends_askTop (hnx rfl) hs rfl
  case bind n => exact ends_bind (hnx rfl) hs rfl
  case slide slot => exact ends_slide (hnx rfl) (hc slot rfl)

end Arms

end Silt.Vm

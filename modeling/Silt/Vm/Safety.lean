import Silt.Vm.Arms

/-!
# Verified code stays inside its frame

A run of the instruction loop in one frame of a function that the verifier accepts.  The values on
the stack are forgotten between two steps (`Reaches.values`), so that every branch may be taken
and a call may return anything; only their number is kept.  In every such run the loop finds an
instruction of the code where it continues, the values that the instruction takes off are the
frame's, what its operands name exists, and no arm stops the program: the table of frames that
made the verifier accept is an invariant of the run.

## Main definitions

* `Reaches` : the states of a frame's runs.

## Main results

* `inside_of_check` : an instruction that passes the check is inside every frame that is known.
* `verified_run_stays_inside` : the runs of an accepted function.
-/

namespace Silt.Vm

open Bytecode Verify Lib.Dataflow

variable {σ N : Type}

/-! ### What the verifier's check gives -/

section Check

variable {op : String}

variable {env : Env} {f : Function} {instr : Instr Nat} {known' after : Verify.Frame} {height : Nat}

theorem forM_eq_ok {α : Type} {g : α → Except String Unit} : ∀ {xs : List α},
    xs.forM g = .ok () → ∀ x ∈ xs, g x = .ok ()
  | [], _, _, hx => absurd hx List.not_mem_nil
  | y :: ys, h, x, hx => by
    cases hy : g y with
    | error e => simp [List.forM_cons, hy, Bind.bind, Except.bind] at h
    | ok u =>
      rcases List.mem_cons.mp hx with rfl | hx
      · exact hy
      · refine forM_eq_ok ?_ x hx
        simpa [List.forM_cons, hy, Bind.bind, Except.bind] using h

theorem check_eq_ok (h : check env f known' instr = .ok after) :
    instr.operands.forM (operand env f instr.name known') = .ok () ∧
      rules env f instr.name instr = .ok () ∧ leave instr.name instr.effect known' = .ok after := by
  unfold check at h
  simp only [Bind.bind, Except.bind] at h
  grind

theorem hasConst_of_constant {k : Nat} {kind : ConstKind} (h : constant env f op k kind = .ok ()) :
    HasConst env f k kind := by
  unfold constant at h
  cases hv : f.constants[k]? with
  | none => simp [hv] at h
  | some v =>
    simp only [hv] at h
    refine ⟨v, hv, ?_⟩
    split at h
    · rfl
    · by_contra hf
      simp [hf] at h

theorem named_of_operand {o : Operand Nat} (hh : known'.height ≤ height)
    (h : operand env f op known' o = .ok ()) : Named env f height o := by
  cases o with
  | plain | target dest => trivial
  | slot slot =>
    by_contra hs
    have : ¬ slot < known'.height := fun h => hs (Nat.lt_of_lt_of_le h hh)
    simp [operand, this] at h
  | upvalue index =>
    by_contra hi
    have : ¬ index < f.upvalueCount := hi
    simp [operand, this] at h
  | const k kind => exact hasConst_of_constant h
  | builtin id =>
    simp only [operand, Verify.builtin] at h
    cases hr : env.builtin id with
    | none => simp [hr, Except.map] at h
    | some row =>
      cases hb : row.enabled && !row.isConstant with
      | false => simp [hr, hb, Except.map] at h
      | true => exact ⟨row, hr, by simpa using hb⟩
  | strs names => exact fun k hk => hasConst_of_constant (forM_eq_ok h k hk)
  | captures captures =>
    intro c hc
    have hcp := forM_eq_ok h c hc
    unfold capture at hcp
    grind
  | segments segments =>
    simp only [operand] at h
    split at h
    · exact ⟨‹_›, fun k hk => hasConst_of_constant (forM_eq_ok h _ hk)⟩
    · cases h

theorem leave_eq_ok {effect : Effect} (h : leave op effect known' = .ok after) :
    effect.pops ≤ known'.height ∧
      (∀ cut, effect.cut = some cut → cut + effect.pops ≤ known'.height) ∧
      after = match effect.cut with
        | none => ⟨known'.height - effect.pops + effect.pushes, known'.ragged⟩
        | some cut => ⟨cut + effect.pushes, false⟩ := by
  unfold leave at h
  grind

end Check

/-! ### Runs of one frame -/

section Runs

variable {env : Env} {frame : CallFrame} {instr : Instr Nat} {stack : List Value}

/-- The slots an instruction reads are in the frame, if the verifier and the condition on the step
say so. -/
theorem reads_of_rules {R : Runtime σ N} {s : σ} {known' : Verify.Frame}
    (hr : rules env (frame.function env) instr.name instr = .ok ())
    (hc : ∀ cut, instr.effect.cut = some cut → cut + instr.effect.pops ≤ known'.height)
    (hh : frame.base + known'.height ≤ stack.length)
    (hd : (frame.function env).dictSlot = true → 0 < frame.base)
    (hm : Meets env R frame instr stack s) :
    Reads frame.base (stack.length - frame.base) instr := by
  cases instr
  case tailCallKeep ac keep =>
    have := hm.keeps ac keep rfl
    simp only [Reads]
    omega
  case recur ac first dest =>
    have := hc first rfl
    simp only [Reads, Instr.effect] at this ⊢
    omega
  case slide slot =>
    have := hc slot rfl
    simp only [Reads, Instr.effect] at this ⊢
    omega
  case frameDict =>
    refine hd ?_
    by_contra hs
    simp [rules, hs] at hr
  case callMethod method ac of receiver | tailCallMethod method ac of receiver =>
    simp only [rules, receiverOf] at hr
    simp only [Reads]
    split_ifs at hr
    omega
  case callChecked ac receiver template =>
    exact hm.receives ac receiver template (.inl rfl)
  case tailCallChecked ac receiver template =>
    exact hm.receives ac receiver template (.inr rfl)
  case callDict method ac receiver | tailCallDict method ac receiver =>
    simp only [rules, receiverAt] at hr
    simp only [Reads]
    split_ifs at hr
    omega
  all_goals trivial

/-- An instruction that passes the check is inside every frame that is known to the verifier, and
the frame it leaves is known to be one of those after it. -/
theorem inside_of_check {R : Runtime σ N} {s : σ} {known' after : Verify.Frame} {height : Nat}
    (hc : check env (frame.function env) known' instr = .ok after) (ha : known'.Admits height)
    (hh : frame.base + height = stack.length)
    (hd : (frame.function env).dictSlot = true → 0 < frame.base)
    (hm : Meets env R frame instr stack s) :
    Inside env frame instr stack ∧
      ∃ height', after.Admits height' ∧
        lengthAfter frame.base instr.effect stack.length = frame.base + height' := by
  obtain ⟨hop, hrl, hl⟩ := check_eq_ok hc
  obtain ⟨hp, hct, rfl⟩ := leave_eq_ok hl
  obtain ⟨hle, he⟩ := ha
  have hn : ∀ o ∈ instr.operands,
      Named env (frame.function env) (stack.length - frame.base) o := fun o ho =>
    named_of_operand (by omega) (forM_eq_ok hop o ho)
  refine ⟨⟨by omega, fun cut h => ?_, hn, reads_of_rules hrl hct (by omega) hd hm⟩, ?_⟩
  · have := hct cut h
    omega
  · unfold lengthAfter
    cases instr.effect.cut with
    | some cut =>
      exact ⟨cut + instr.effect.pushes, ⟨Nat.le_refl _, fun _ => rfl⟩, Nat.add_assoc _ _ _⟩
    | none =>
      dsimp only
      refine ⟨height - instr.effect.pops + instr.effect.pushes, ⟨?_, fun hr => ?_⟩, ?_⟩
      · dsimp only
        omega
      · rw [he hr]
      · omega

/-- Where the frame goes on after an arm, and with which stack: a call returns any value. -/
def Outcome.Continues (ip : Nat) (stack : List Value) : Outcome N → Prop
  | .go ip' stack' => ip = ip' ∧ stack = stack'
  | .enter ip' stack' _ base => ip = ip' ∧ ∃ v, stack = stack'.take (base - 1) ++ [v]
  | .native ip' stack' _ => ip = ip' ∧ ∃ v, stack = stack' ++ [v]
  | .panics _ _ _ | .become _ _ | .returned _ _ | .fail _ _ _ => False

/-- The states of the runs of a frame whose steps all meet the condition.  Between two steps the
values may be any others, so that a conditional jump may go either way, whatever was compared. -/
inductive Reaches (σ N : Type) (env : Env) (frame : CallFrame) : Nat → List Value → Prop
  /-- A call starts with the function's arguments in the frame. -/
  | start {stack : List Value}
      (hstack : stack.length = frame.base + (frame.function env).arity) :
      Reaches σ N env frame 0 stack
  | values {ip : Nat} {stack stack' : List Value} (h : Reaches σ N env frame ip stack)
      (hlength : stack'.length = stack.length) : Reaches σ N env frame ip stack'
  /-- A step, with any runtime in any state. -/
  | step {ip ip' next : Nat} {stack stack' : List Value} {instr : Instr Nat}
      {R : Runtime σ N} {s s' : σ} {o : Outcome N} (h : Reaches σ N env frame ip stack)
      (hdecode : decode (frame.function env).code ip = some (instr, next))
      (hmeets : Meets env R frame instr stack s)
      (hexec : exec env R frame instr next stack s = some (o, s'))
      (hnext : o.Continues ip' stack') : Reaches σ N env frame ip' stack'

/-- The offset is one where the verifier found an instruction. -/
def Starts (f : Function) (ip : Nat) : Prop :=
  ∃ placed, instrs f = .ok placed ∧ ∃ p ∈ placed, p.offset = ip

theorem Outcome.Fits.continues {ips : Nat → Prop} {length ip : Nat} {o : Outcome N}
    (hf : o.Fits ips length) (h : o.Continues ip stack) : ips ip ∧ stack.length = length := by
  cases o with
  | go ip' stack' =>
    obtain ⟨rfl, rfl⟩ := h
    exact hf
  | enter ip' stack' closure base =>
    obtain ⟨rfl, v, rfl⟩ := h
    obtain ⟨hi, rfl, hp, hle⟩ := hf
    grind
  | native ip' stack' n =>
    obtain ⟨rfl, v, rfl⟩ := h
    exact ⟨hf.1, by simpa using hf.2⟩
  | panics | become | returned | fail => exact absurd h id

theorem Reaches.knows {ip : Nat} {placed : List Placed} {frames : Frames}
    (hin : instrs (frame.function env) = .ok placed)
    (he : Knows Frame.Admits (known frames) 0 (frame.function env).arity)
    (hst : ∀ index,
      Settled Frame.Admits (tells env (frame.function env) placed) (known frames) index)
    (hu : frame.closure.upvalues.length = (frame.function env).upvalueCount)
    (hd : (frame.function env).dictSlot = true → 0 < frame.base)
    (h : Reaches σ N env frame ip stack) :
    ∃ index p height, placed[index]? = some p ∧ p.offset = ip ∧
      Knows Frame.Admits (known frames) index height ∧ frame.base + height = stack.length := by
  obtain ⟨hne, hl, hen⟩ := instrs_spec hin
  induction h with
  | start hsc =>
    have hf := List.getElem?_eq_getElem (List.length_pos_iff.mpr hne)
    exact ⟨0, _, _, hf, hl.offset_zero hf, he, hsc.symm⟩
  | values h hln ih => grind
  | @step ip ip' next stack stack' instr R s s' o h hdc hmt hex hn ih =>
    obtain ⟨index, p, height, hp, rfl, hk, hh⟩ := ih
    have hi := hl.decode hp
    rw [hdc, Option.some.injEq, Prod.mk.injEq] at hi
    obtain ⟨rfl, rfl⟩ := hi
    -- the arm leaves the frame that the check said, at one of the instructions after this one
    obtain ⟨known', hkn, ha⟩ := hk
    obtain ⟨out, ho, htl⟩ := hst index known' hkn
    obtain ⟨q, after, hq, hc, hg, hj⟩ := tells_eq_some ho
    obtain rfl := Option.some.inj (hp.symm.trans hq)
    obtain ⟨his, height', ha', hln⟩ := inside_of_check hc ha hh hd hmt
    obtain ⟨o', s'', hex', hft⟩ := @exec_fits _ _ _ _ _ _ _ _ p.next his hmt hu
    obtain ⟨rfl, rfl⟩ := Prod.mk.inj (Option.some.inj (hex.symm.trans hex'))
    obtain ⟨hips, hsc'⟩ := hft.continues hn
    rw [hln] at hsc'
    rcases hips with ⟨hfl, rfl⟩ | ⟨hfl, ht⟩
    · have hlt := hen index p hp hfl
      have hp' := List.getElem?_eq_getElem hlt
      exact ⟨index + 1, _, height', hp', hl.offset_succ hp hp',
        htl _ (hg hfl) height' ha', hsc'.symm⟩
    · obtain ⟨target, hs, hm⟩ := hj hfl
      rw [ht, Option.getD_some] at hs
      obtain ⟨p', hp', hip'⟩ := startingAt_eq_some hs
      exact ⟨target, p', height', hp', hip', htl _ hm height' ha', hsc'.symm⟩

/-- In every run of a function that the verifier accepts whose steps all meet the condition, the
loop finds an instruction of the code, what that takes off, names and reads is the frame's, and its
arm does not stop the program. -/
theorem verified_run_stays_inside {ip : Nat} (hverify : Accepts env (frame.function env))
    (hupvalues : frame.closure.upvalues.length = (frame.function env).upvalueCount)
    (hdict : (frame.function env).dictSlot = true → 0 < frame.base)
    (h : Reaches σ N env frame ip stack) :
    frame.base ≤ stack.length ∧ Starts (frame.function env) ip ∧
      ∃ instr next, decode (frame.function env).code ip = some (instr, next) ∧
        ∀ (R : Runtime σ N) (s : σ), Meets env R frame instr stack s →
          Inside env frame instr stack ∧ (exec env R frame instr next stack s).isSome := by
  obtain ⟨placed, frames, hi, -, he, hs⟩ := hverify.certificate
  obtain ⟨index, p, height, hp, rfl, ⟨known', hk, ha⟩, hh⟩ := h.knows hi he hs hupvalues hdict
  obtain ⟨-, hl, -⟩ := instrs_spec hi
  obtain ⟨out, ho, -⟩ := hs index known' hk
  obtain ⟨q, after, hq, hc, -, -⟩ := tells_eq_some ho
  obtain rfl := Option.some.inj (hp.symm.trans hq)
  refine ⟨by omega, ⟨placed, hi, p, List.mem_of_getElem? hp, rfl⟩, p.instr, p.next,
    hl.decode hp, fun R s hm => ?_⟩
  obtain ⟨hin, -⟩ := inside_of_check hc ha hh hdict hm
  obtain ⟨o, s', hex, -⟩ := @exec_fits _ _ _ _ _ _ _ _ p.next hin hm hupvalues
  exact ⟨hin, by rw [hex]; rfl⟩

end Runs

/-! ### A function that keeps what it has taken off

Its two parameters are taken off before the tail call that keeps them: the verifier counts them as
parameters of the function, not as values of the frame. -/

/-- `Pop; Pop; Constant 0; TailCallKeep 0 2; Return`, of two parameters. -/
def keepsTooMuch : Function :=
  { name := "keeps", arity := 2, upvalueCount := 0, dictSlot := false,
    code := [53, 53, 0, 0, 0, 29, 0, 2, 30], constants := [.unit] }

/-- `Constant 0; SetLocal 0; GetLocal 0; Return`, of one parameter. -/
def setsParameter : Function :=
  { name := "sets", arity := 1, upvalueCount := 0, dictSlot := false,
    code := [0, 0, 0, 22, 0, 0, 21, 0, 0, 30], constants := [.unit] }

/-- A program of one function. -/
def programOf (f : Function) : Env :=
  { function := fun _ => f, builtin := fun _ => none, debug := fun _ => "" }

/-- The frame of a call of that function, above the callee's slot. -/
def frameOf : CallFrame := { closure := { function := 0, upvalues := [] }, base := 1 }

theorem meets_of_plain {env : Env} {R : Runtime σ N} {instr : Instr Nat} {stack : List Value}
    {s : σ} (hk : ∀ ac keep, instr ≠ .tailCallKeep ac keep)
    (hc : ∀ ac receiver template, instr ≠ .callChecked ac receiver template)
    (ht : ∀ ac receiver template, instr ≠ .tailCallChecked ac receiver template) :
    Meets env R frameOf instr stack s where
  keeps ac keep h := absurd h (hk ac keep)
  receives ac receiver template h :=
    h.elim (fun h => absurd h (hc ac receiver template)) fun h => absurd h (ht ac receiver template)
  lends _ _ _ := Nat.one_pos

/-- The verifier accepts the function, and its run comes to the tail call with one value in the
frame, where the arm stops the program: two values were to be kept. -/
theorem tailCallKeep_leaves_frame :
    Accepts (programOf keepsTooMuch) keepsTooMuch ∧
      Reaches Unit Unit (programOf keepsTooMuch) frameOf 5 [.unit, .unit] ∧
      decode keepsTooMuch.code 5 = some (.tailCallKeep 0 2, 8) ∧
      ¬ Inside (programOf keepsTooMuch) frameOf (.tailCallKeep 0 2) [.unit, .unit] ∧
      ∀ (R : Runtime Unit Unit) (s : Unit),
        exec (programOf keepsTooMuch) R frameOf (.tailCallKeep 0 2) 8 [.unit, .unit] s = none := by
  have hs : Reaches Unit Unit (programOf keepsTooMuch) frameOf 0 [.unit, .unit, .unit] := .start rfl
  have hpp : Reaches Unit Unit (programOf keepsTooMuch) frameOf 1 [.unit, .unit] :=
    @Reaches.step _ _ _ _ 0 1 1 _ _ .pop default () () (.go 1 [.unit, .unit]) hs rfl
      (meets_of_plain nofun nofun nofun) rfl ⟨rfl, rfl⟩
  have he : Reaches Unit Unit (programOf keepsTooMuch) frameOf 2 [.unit] :=
    @Reaches.step _ _ _ _ 1 2 2 _ _ .pop default () () (.go 2 [.unit]) hpp rfl
      (meets_of_plain nofun nofun nofun) rfl ⟨rfl, rfl⟩
  have hps : Reaches Unit Unit (programOf keepsTooMuch) frameOf 5 [.unit, .unit] :=
    @Reaches.step _ _ _ _ 2 5 5 _ _ (.constant 0) default () () (.go 5 [.unit, .unit]) he
      rfl (meets_of_plain nofun nofun nofun) rfl ⟨rfl, rfl⟩
  refine ⟨⟨20, rfl⟩, hps, rfl, fun hi => ?_, fun R s => rfl⟩
  exact absurd hi.reads (by decide : ¬ 2 + (0 + 1) ≤ 1)

/-- The theorem at a write to the parameter, with the value on the stack that the instruction before
it has left. -/
theorem verified_run_stays_inside_setsParameter :
    Starts setsParameter 3 ∧
      Inside (programOf setsParameter) frameOf (.setLocal 0) [.unit, .unit, .unit] := by
  have hs : Reaches Unit Unit (programOf setsParameter) frameOf 3 [.unit, .unit, .unit] :=
    @Reaches.step _ _ _ _ 0 3 3 _ _ (.constant 0) default () () (.go 3 [.unit, .unit, .unit])
      (@Reaches.start _ _ _ _ [.unit, .unit] rfl) rfl (meets_of_plain nofun nofun nofun) rfl
      ⟨rfl, rfl⟩
  obtain ⟨-, hst, instr, next, hd, hi⟩ :=
    @verified_run_stays_inside Unit Unit (programOf setsParameter) frameOf
      [.unit, .unit, .unit] 3 ⟨20, rfl⟩ rfl nofun hs
  have hin : some (Instr.setLocal 0, 6) = some (instr, next) := hd
  cases hin
  exact ⟨hst, (hi default () (meets_of_plain nofun nofun nofun)).1⟩

end Silt.Vm

import Silt.Bytecode.Decode
import Silt.Lib.Dataflow

/-!
# The bytecode verifier

The check of one function's code by abstract interpretation of the height of its frame.  The code
is decoded from its first byte to its last; what is known of the frame at each instruction starts
as the function's parameters at the first one, and goes from an instruction to the ones after it
along a work list, until nothing changes.  Where paths arrive with different heights the frame is
known to hold the smallest of them, and is *ragged*.

## Main definitions

* `Verify.check` : the rules for one instruction, and the frame it leaves.
* `Verify.arrive` : what an instruction knows after one more path to it.
* `Verify.settle` : the work list, for at most so many looks at an instruction.
* `Accepts` : the verifier accepts a function.

## Main results

* `Accepts.certificate` : an accepted function has a table of frames that every instruction keeps.
-/

namespace Silt.Bytecode

open List Option Bool

/-- Why a function's code is malformed, and the offset of the instruction that is wrong. -/
structure VerifyError where
  offset : Nat
  what : String
  deriving DecidableEq

namespace Verify

/-- What is known about the frame where an instruction starts: the number of values it holds on
every path there, and whether some path arrives with more. -/
structure Frame where
  height : Nat
  ragged : Bool
  deriving DecidableEq

/-- An instruction of the code, with where it starts and where it ends. -/
structure Placed where
  offset : Nat
  instr : Instr Nat
  next : Nat

variable (env : Env) (f : Function)

/-- The row of the builtin `id` that `op` names: a function that is built. -/
def builtin (op : String) (id : Nat) : Except String Row :=
  match env.builtin id with
  | some row =>
    if row.enabled && !row.isConstant then .ok row
    else .error s!"`{op}` names the builtin {row.qualified}, which is no function of this build"
  | none => .error s!"`{op}` names the builtin {id}, and there is none"

/-- Whether the value is a constant of the kind. -/
def fits (value : Value) : ConstKind → Bool
  | .any =>
    match value with
    -- a function that captures values is made by `MakeClosure` only
    | .vmClosure g upvalues _ => (env.function g).upvalueCount == upvalues.length
    | _ => true
  | .str => match value with | .string _ => true | _ => false
  | .tag => match value with | .variantConstructor _ => true | _ => false
  | .type => match value with | .typeDescriptor _ => true | _ => false
  | .func => match value with | .vmClosure _ _ _ => true | _ => false
  | .int => match value with | .int _ => true | _ => false
  | .float => match value with | .float _ => true | _ => false

/-- The constant `k` is in the pool, and of the kind the operand says. -/
def constant (op : String) (k : Nat) (kind : ConstKind) : Except String Unit :=
  match f.constants[k]? with
  | none => .error s!"`{op}` names constant {k} of {f.constants.length}"
  | some value =>
    match kind, value with
    -- a builtin function as a value is one that can be called
    | .any, .builtinFn id => (builtin env op id).map fun _ => ()
    | _, _ =>
      if fits env value kind then .ok ()
      else .error
        s!"`{op}` names constant {k} as {kind.name}, and it is {env.debug value}"

/-- A captured value is in the frame, or among the function's upvalues. -/
def capture (op : String) (frame : Frame) (c : UpvalueDesc) : Except String Unit :=
  if c.isLocal then
    if c.index < frame.height then .ok ()
    else .error s!"`{op}` captures slot {c.index} of a frame of {frame.height}"
  else
    if c.index < f.upvalueCount then .ok ()
    else .error s!"`{op}` captures upvalue {c.index} of {f.upvalueCount}"

/-- A literal segment is a string constant. -/
def segment (op : String) : Segment → Except String Unit
  | .literal k => constant env f op k .str
  | .value => .ok ()

/-- The operand names something that exists. -/
def operand (op : String) (frame : Frame) : Operand Nat → Except String Unit
  | .plain | .target _ => .ok ()
  | .slot slot =>
    if slot < frame.height then .ok ()
    else .error s!"`{op}` names slot {slot} of a frame of {frame.height}"
  | .upvalue index =>
    if index < f.upvalueCount then .ok ()
    else .error s!"`{op}` names upvalue {index} of {f.upvalueCount}"
  | .const k kind => constant env f op k kind
  | .builtin id => (builtin env op id).map fun _ => ()
  | .strs names => names.forM fun k => constant env f op k .str
  | .captures captures => captures.forM (capture f op frame)
  | .segments segments =>
    let values := segments.items.count .value
    if values = segments.values then segments.items.forM (segment env f op)
    else .error
      s!"`{op}` says {segments.values} of its segments are values, and {values} are"

/-- The number of upvalues of the function that the constant `k` is. -/
def capturesOf (k : Nat) : Nat :=
  match f.constants[k]? with
  | some (.vmClosure g _ _) => (env.function g).upvalueCount
  | _ => 0

/-- Whether the constant `k` is a dictionary. -/
def isDict (k : Nat) : Bool :=
  match f.constants[k]? with
  | some (.dict _ _) => true
  | _ => false

/-- The receiver of a call through a dictionary is one of its arguments, or there is none. -/
def receiverAt (op : String) (argc receiver : Nat) : Except String Unit :=
  if argc ≤ receiver ∧ receiver ≠ 255 then
    .error s!"`{op}` checks the receiver at argument {receiver + 1} of {argc}"
  else .ok ()

/-- The receiver of a method call is one of its arguments. -/
def receiverOf (op : String) (argc receiver : Nat) : Except String Unit :=
  if argc = 0 then .error s!"`{op}` has no receiver"
  else if argc ≤ receiver then
    .error s!"`{op}` finds its method by argument {receiver + 1} of {argc}"
  else .ok ()

/-- What single instructions ask beyond their operands. -/
def rules (op : String) : Instr Nat → Except String Unit
  | .makeClosure k captures =>
    let upvalues := capturesOf env f k
    if upvalues ≠ captures.length then
      .error
        s!"`{op}` captures {captures.length} values for a function that has {upvalues} upvalues"
    else .ok ()
  | .callMethod _ argc _ receiver | .tailCallMethod _ argc _ receiver =>
    receiverOf op argc receiver
  | .tailCallKeep _ keep =>
    if f.arity < keep then
      .error s!"`{op}` keeps {keep} values of a function of {f.arity} parameters"
    else .ok ()
  | .frameDict =>
    if f.dictSlot then .ok ()
    else .error s!"`{op}` in a function a call leaves no dictionary to"
  | .callDict _ argc receiver | .tailCallDict _ argc receiver | .callChecked argc receiver _
  | .tailCallChecked argc receiver _ => receiverAt op argc receiver
  | .makeDict k _ =>
    if isDict f k then .ok ()
    else .error s!"`{op}` makes the dictionary of a constant that is none"
  | .callBuiltin id argc =>
    match builtin env op id with
    | .ok row =>
      if argc ≠ row.arity then
        .error s!"`{op}` calls {row.qualified} with {argc} arguments, and it takes {row.arity}"
      else .ok ()
    | .error _ => .ok ()
  | _ => .ok ()

/-- The instructions that may run where the paths into them leave different heights. -/
def mayRunRagged : Instr Nat → Bool
  | .getLocal _ | .constant _ | .slide _ | .jump _ | .ret | .panic => true
  | _ => false

/-- The frame after an instruction of this effect. -/
def leave (op : String) (effect : Effect) (frame : Frame) : Except String Frame :=
  if frame.height < effect.pops then
    .error s!"`{op}` takes {effect.pops} values off a frame of {frame.height}"
  else
    let popped := frame.height - effect.pops
    match effect.cut with
    | none => .ok ⟨popped + effect.pushes, frame.ragged⟩
    | some cut =>
      if popped < cut then .error s!"`{op}` cuts a frame of {popped} values back to {cut}"
      else .ok ⟨cut + effect.pushes, false⟩

/-- Check an instruction that starts with `frame`, and give the frame it leaves. -/
def check (frame : Frame) (instr : Instr Nat) : Except String Frame := do
  let op := instr.name
  if frame.ragged && !mayRunRagged instr then
    throw s!"`{op}` runs where the paths into it leave different heights"
  instr.operands.forM (operand env f op frame)
  rules env f op instr
  leave op instr.effect frame

/-- The instructions from offset `i` on, one after another.  Each takes a byte at least, so as many
looks as the code has bytes reach its end. -/
def instrsFrom (code : List UInt8) : Nat → Nat → Except VerifyError (List Placed)
  | 0, _ => .ok []
  | fuel + 1, i =>
    if i < code.length then
      match decode code i with
      | none => .error ⟨i, "no instruction is encoded here"⟩
      | some (instr, next) => (instrsFrom code fuel next).map (⟨i, instr, next⟩ :: ·)
    else .ok []

/-- The instructions of the function, the last of which goes on to no next one. -/
def instrs : Except VerifyError (List Placed) := do
  let placed ← instrsFrom f.code f.code.length 0
  match placed.getLast? with
  | none => throw ⟨0, "the function has no code"⟩
  | some last =>
    if last.instr.effect.flow.goesOn then throw ⟨last.offset, "the code runs off its end"⟩
    return placed

/-- What is known of the frame of each instruction, by its place among them. -/
abbrev Frames := List (Option Frame)

/-- What is known of the frame of the instruction `index`. -/
def known (frames : Frames) (index : Nat) : Option Frame := (frames[index]?).join

/-- What is known where two paths meet. -/
def Frame.merge (frame other : Frame) : Frame :=
  ⟨min frame.height other.height,
    frame.ragged || other.ragged || frame.height != other.height⟩

/-- What the instruction `target` knows with one more path to it, which leaves `frame`. -/
def merged (frames : Frames) (target : Nat) (frame : Frame) : Frame :=
  match known frames target with
  | none => frame
  | some have_ => have_.merge frame

/-- Tell the instruction `target` that control arrives with `frame`. -/
def arrive (frames : Frames) (target : Nat) (frame : Frame) : Frames :=
  frames.set target (some (merged frames target frame))

/-- Whether that is news to it. -/
def news (frames : Frames) (target : Nat) (frame : Frame) : Bool :=
  known frames target ≠ some (merged frames target frame)

/-- The state of the work list: what is known, the instructions whose frame changed, and the one
being followed on. -/
structure Work where
  frames : Frames
  work : List Nat
  current : Option Nat

/-- The instruction that starts at the offset. -/
def startingAt (placed : List Placed) (offset : Nat) : Option Nat :=
  placed.findIdx? (·.offset == offset)

/-- Tell the target of the instruction `p` of the frame it leaves, if it may go there. -/
def toTarget (placed : List Placed) (p : Placed) (after : Frame) (s : Work) :
    Except VerifyError Work :=
  if p.instr.effect.flow.jumps then
    let offset := p.instr.target?.getD 0
    match startingAt placed offset with
    | none => .error ⟨p.offset, s!"control goes to {offset}, where no instruction starts"⟩
    | some target => .ok
      { s with
        frames := arrive s.frames target after
        work := if news s.frames target after then target :: s.work else s.work }
  else .ok s

/-- Tell the instruction after `index`, if control may go on to it, and follow it on if that is
news. -/
def toNext (index : Nat) (p : Placed) (after : Frame) (s : Work) : Work :=
  if p.instr.effect.flow.goesOn then
    { s with
      frames := arrive s.frames (index + 1) after
      current := if news s.frames (index + 1) after then some (index + 1) else none }
  else { s with current := none }

/-- One look at the instruction `index`. -/
def look (placed : List Placed) (index : Nat) (s : Work) : Except VerifyError Work :=
  match placed[index]?, known s.frames index with
  | some p, some frame => do
    let after ← (check env f frame p.instr).mapError (⟨p.offset, ·⟩)
    let s ← toTarget placed p after s
    return toNext index p after s
  -- an instruction that is followed on is one of the code's and has a frame
  | _, _ => .ok { s with current := none }

/-- The work list, for at most so many looks. -/
def settle (placed : List Placed) : Nat → Work → Option (Except VerifyError Frames)
  | 0, _ => none
  | fuel + 1, s =>
    match s.current, s.work with
    | some index, _ =>
      match look env f placed index s with
      | .error e => some (.error e)
      | .ok s => settle placed fuel s
    | none, index :: work => settle placed fuel { s with work, current := some index }
    | none, [] => some (.ok s.frames)

/-- The work list at the start: the first instruction, with the function's parameters. -/
def start (placed : List Placed) : Work :=
  ⟨(List.replicate placed.length none).set 0 (some ⟨f.arity, false⟩), [0], none⟩

end Verify

/-- The check of the code of a function, with at most `fuel` looks; none if they do not do. -/
def verify (env : Env) (f : Function) (fuel : Nat) : Option (Except VerifyError Unit) :=
  match Verify.instrs f with
  | .error e => some (.error e)
  | .ok placed =>
    (Verify.settle env f placed fuel (Verify.start f placed)).map fun r => r.map fun _ => ()

/-- The verifier accepts the function. -/
def Accepts (env : Env) (f : Function) : Prop := ∃ fuel, verify env f fuel = some (.ok ())

/-! ### What an accepted function's frames say

The heights a frame may have where the verifier knows of it, and the invariant of the work list:
every instruction that is not on it has told the ones after it of its frame. -/

namespace Verify

open Lib.Dataflow

variable {frame : Frame} {target index i : Nat} {p : Placed} {code : List UInt8}

variable {env : Env} {f : Function} {placed : List Placed} {frames : Frames}

/-- A frame of this height is one that is known: of the height, or, if paths differ, of no
less. -/
def Frame.Admits (frame : Frame) (height : Nat) : Prop :=
  frame.height ≤ height ∧ (frame.ragged = false → height = frame.height)

theorem Frame.admits_merge_left {height : Nat} (other : Frame) (h : frame.Admits height) :
    (frame.merge other).Admits height := by
  obtain ⟨hle, heq⟩ := h
  refine ⟨Nat.le_trans (Nat.min_le_left _ _) hle, fun hr => ?_⟩
  simp only [Frame.merge, or_eq_false_iff, bne_eq_false_iff_eq] at hr ⊢
  have := heq hr.1.1
  omega

theorem Frame.admits_merge_right {height : Nat} (other : Frame) (h : frame.Admits height) :
    (other.merge frame).Admits height := by
  obtain ⟨hle, heq⟩ := h
  refine ⟨Nat.le_trans (Nat.min_le_right _ _) hle, fun hr => ?_⟩
  simp only [Frame.merge, or_eq_false_iff, bne_eq_false_iff_eq] at hr ⊢
  have := heq hr.1.2
  omega

/-- What an instruction that leaves `after` says of its target, if it may go there. -/
def tellsTarget (placed : List Placed) (p : Placed) (after : Frame) : Option (List (Nat × Frame)) :=
  if p.instr.effect.flow.jumps then
    (startingAt placed (p.instr.target?.getD 0)).map fun target => [(target, after)]
  else some []

/-- What the instruction `index`, starting with `frame`, says of the ones after it: none if the
verifier refuses it. -/
def tells (env : Env) (f : Function) (placed : List Placed) (index : Nat) (frame : Frame) :
    Option (List (Nat × Frame)) := do
  let p ← placed[index]?
  let after ← (check env f frame p.instr).toOption
  let jumped ← tellsTarget placed p after
  return jumped ++ if p.instr.effect.flow.goesOn then [(index + 1, after)] else []

theorem known_arrive_self (frame : Frame) (h : target < frames.length) :
    known (arrive frames target frame) target = some (merged frames target frame) := by
  simp [known, arrive, h]

theorem known_arrive_of_ne (frame : Frame) (h : index ≠ target) :
    known (arrive frames target frame) index = known frames index := by
  simp [known, arrive, getElem?_set_ne h.symm]

theorem length_arrive (target : Nat) (frame : Frame) :
    (arrive frames target frame).length = frames.length :=
  length_set

theorem known_arrive_of_not_news (h : news frames target frame = false) (index : Nat) :
    known (arrive frames target frame) index = known frames index := by
  have hk : known frames target = some (merged frames target frame) := by
    simpa [news] using h
  by_cases hi : index = target
  · subst hi
    have hlt : index < frames.length := by
      by_contra hge
      simp [known, getElem?_eq_none (by omega : frames.length ≤ index)] at hk
    rw [known_arrive_self frame hlt, hk]
  · exact known_arrive_of_ne frame hi

theorem grows_arrive (frame : Frame) (h : target < frames.length) :
    Grows Frame.Admits (known frames) (known (arrive frames target frame)) := by
  refine grows_of_weaker _ (known_arrive_self frame h)
    (fun index hi => known_arrive_of_ne frame hi) fun have_ height hk ha => ?_
  rw [merged, hk]
  exact Frame.admits_merge_left frame ha

theorem told_arrive (frame : Frame) (h : target < frames.length) :
    Told Frame.Admits (known (arrive frames target frame)) target frame := by
  intro height ha
  refine ⟨_, known_arrive_self frame h, ?_⟩
  unfold merged
  cases known frames target with
  | none => exact ha
  | some have_ => exact Frame.admits_merge_right have_ ha

/-- A step of the work list: what is known grows, and an instruction that knows something new is
left to look at. -/
structure Spreads (frames : Frames) (pending : Nat → Prop) (frames' : Frames) : Prop where
  length : frames'.length = frames.length
  grows : Grows Frame.Admits (known frames) (known frames')
  kept : ∀ index, ¬ pending index → known frames' index = known frames index

theorem spreads_refl (frames : Frames) (pending : Nat → Prop) : Spreads frames pending frames :=
  ⟨rfl, Grows.refl _ _, fun _ _ => rfl⟩

theorem spreads_arrive (frame : Frame) (h : target < frames.length) {pending : Nat → Prop}
    (hnw : news frames target frame = true → pending target) :
    Spreads frames pending (arrive frames target frame) := by
  refine ⟨length_arrive target frame, grows_arrive frame h, fun index hi => ?_⟩
  cases hn : news frames target frame with
  | false => exact known_arrive_of_not_news hn index
  | true =>
    refine known_arrive_of_ne frame fun heq => hi ?_
    exact heq ▸ hnw hn

theorem startingAt_lt {offset : Nat} (h : startingAt placed offset = some target) :
    target < placed.length := by
  obtain ⟨hlt, -⟩ := findIdx?_eq_some_iff_getElem.mp h
  exact hlt

theorem startingAt_eq_some {offset : Nat} (h : startingAt placed offset = some target) :
    ∃ p, placed[target]? = some p ∧ p.offset = offset := by
  obtain ⟨hlt, ho, -⟩ := findIdx?_eq_some_iff_getElem.mp h
  exact ⟨_, getElem?_eq_getElem hlt, by simpa using ho⟩

theorem toTarget_spec {after : Frame} {s s' : Work} (h : toTarget placed p after s = .ok s')
    (hl : s.frames.length = placed.length) :
    Spreads s.frames (· ∈ s'.work) s'.frames ∧ (∀ index ∈ s.work, index ∈ s'.work) ∧
      (p.instr.effect.flow.jumps = true →
        ∃ target, startingAt placed (p.instr.target?.getD 0) = some target ∧
          Told Frame.Admits (known s'.frames) target after) := by
  unfold toTarget at h
  by_cases hj : p.instr.effect.flow.jumps = true
  · rw [if_pos hj] at h
    cases ht : startingAt placed (p.instr.target?.getD 0) with
    | none => simp [ht] at h
    | some target =>
      simp only [ht, Except.ok.injEq] at h
      subst h
      have hlt : target < s.frames.length := hl ▸ startingAt_lt ht
      refine ⟨spreads_arrive after hlt fun hn => ?_, fun index hi => ?_,
        fun _ => ⟨target, rfl, told_arrive after hlt⟩⟩
      · simp [hn]
      grind
  · rw [if_neg hj, Except.ok.injEq] at h
    subst h
    exact ⟨spreads_refl _ _, fun _ h => h, fun h => absurd h hj⟩

theorem toNext_spec {p : Placed} {after : Frame} {s : Work} {index : Nat}
    (hn : p.instr.effect.flow.goesOn = true → index + 1 < s.frames.length) :
    Spreads s.frames (fun i => (toNext index p after s).current = some i)
        (toNext index p after s).frames ∧
      (toNext index p after s).work = s.work ∧
      (p.instr.effect.flow.goesOn = true →
        Told Frame.Admits (known (toNext index p after s).frames) (index + 1) after) := by
  unfold toNext
  by_cases hg : p.instr.effect.flow.goesOn = true
  · rw [if_pos hg]
    refine ⟨spreads_arrive after (hn hg) fun hnw => ?_, rfl, fun _ => told_arrive after (hn hg)⟩
    simp [hnw]
  · rw [if_neg hg]
    exact ⟨spreads_refl _ _, rfl, fun h => absurd h hg⟩

/-- An instruction that the verifier accepts, and whose target and next instruction have been told
of the frame it leaves, has told all it has to. -/
theorem exists_tells {after : Frame} {table : Nat → Option Frame} (hp : placed[index]? = some p)
    (hc : check env f frame p.instr = .ok after)
    (hjm : p.instr.effect.flow.jumps = true →
      ∃ target, startingAt placed (p.instr.target?.getD 0) = some target ∧
        Told Frame.Admits table target after)
    (hn : p.instr.effect.flow.goesOn = true → Told Frame.Admits table (index + 1) after) :
    ∃ out, tells env f placed index frame = some out ∧
      ∀ q ∈ out, Told Frame.Admits table q.1 q.2 := by
  have hg : ∀ q ∈ (if p.instr.effect.flow.goesOn then [(index + 1, after)] else []),
      Told Frame.Admits table q.1 q.2 := by
    grind
  simp only [tells, hp, hc, Except.toOption, bind_eq_bind, bind_some]
  by_cases hj : p.instr.effect.flow.jumps = true
  · obtain ⟨target, ht, htl⟩ := hjm hj
    simp only [tellsTarget, hj, if_true, ht, map_some, bind_some]
    refine ⟨_, rfl, fun q hq => ?_⟩
    grind
  · simp only [tellsTarget, hj, false_eq_true, if_false, bind_some]
    exact ⟨_, rfl, hg⟩

/-- What an instruction that the verifier accepts has told the ones after it. -/
theorem tells_eq_some {out : List (Nat × Frame)} (h : tells env f placed index frame = some out) :
    ∃ p after, placed[index]? = some p ∧ check env f frame p.instr = .ok after ∧
      (p.instr.effect.flow.goesOn = true → (index + 1, after) ∈ out) ∧
      (p.instr.effect.flow.jumps = true →
        ∃ target, startingAt placed (p.instr.target?.getD 0) = some target ∧
          (target, after) ∈ out) := by
  simp only [tells, bind_eq_bind, bind_eq_some_iff] at h
  obtain ⟨p, hp, after, hc, jumped, hj, ho⟩ := h
  obtain rfl := Option.some.inj ho
  refine ⟨p, after, hp, ?_, fun hg => ?_, fun hjm => ?_⟩
  · cases hr : check env f frame p.instr with
    | error e => simp [hr, Except.toOption] at hc
    | ok after' => simpa [hr, Except.toOption] using hc
  · exact mem_append_right _ (by simp [hg])
  · rw [tellsTarget, if_pos hjm, map_eq_some_iff] at hj
    grind

/-- The invariant of the work list. -/
structure Work.Inv (env : Env) (f : Function) (placed : List Placed) (s : Work) : Prop where
  length : s.frames.length = placed.length
  /-- The first instruction knows the frame a call starts with. -/
  entry : Knows Frame.Admits (known s.frames) 0 f.arity
  /-- An instruction that is not to be looked at again has told the ones after it. -/
  settled : ∀ index, index ∉ s.work → s.current ≠ some index →
    Settled Frame.Admits (tells env f placed) (known s.frames) index

/-- The last instruction goes on to no next one. -/
def EndsWell (placed : List Placed) : Prop :=
  ∀ index p, placed[index]? = some p → p.instr.effect.flow.goesOn = true →
    index + 1 < placed.length

theorem Work.Inv.look {s s' : Work} (he : EndsWell placed) (hiv : s.Inv env f placed)
    (hcr : s.current = some index) (h : Verify.look env f placed index s = .ok s') :
    s'.Inv env f placed := by
  unfold Verify.look at h
  split at h
  case h_2 hnn =>
    -- no such instruction, or none that control reaches: nothing to tell
    rw [Except.ok.injEq] at h
    subst h
    refine ⟨hiv.length, hiv.entry, fun i hi _ => ?_⟩
    by_cases hin : i = index
    · subst hin
      intro frame hf
      cases hp : placed[i]? with
      | some p => exact absurd hf (hnn p frame hp)
      | none =>
        have hlt : ¬ i < s.frames.length := by
          rw [hiv.length]
          simpa using hp
        simp [known, getElem?_eq_none (by omega : s.frames.length ≤ i)] at hf
    · exact hiv.settled i hi (by rw [hcr]; simpa using fun h => hin h.symm)
  case h_1 p frame hp hf =>
    cases hc : check env f frame p.instr with
    | error what => simp [hc, Except.mapError, bind, Except.bind] at h
    | ok after =>
      cases ht : toTarget placed p after s with
      | error e => simp [hc, ht, Except.mapError, bind, Except.bind] at h
      | ok s₁ =>
        simp only [hc, ht, Except.mapError, bind, Except.bind, pure, Except.pure,
          Except.ok.injEq] at h
        subst h
        obtain ⟨hs₁, hw₁, htl₁⟩ := toTarget_spec ht hiv.length
        have hn : p.instr.effect.flow.goesOn = true → index + 1 < s₁.frames.length := by
          intro hgs
          rw [hs₁.length, hiv.length]
          exact he index p hp hgs
        obtain ⟨hs₂, hw₂, htl₂⟩ := @toNext_spec p after s₁ index hn
        have hg := hs₁.grows.trans hs₂.grows
        refine ⟨by rw [hs₂.length, hs₁.length, hiv.length], ?_, fun i hi hcu => ?_⟩
        · exact hg 0 f.arity hiv.entry
        · rw [hw₂] at hi
          have hs : known (toNext index p after s₁).frames i = known s.frames i := by
            rw [hs₂.kept i hcu, hs₁.kept i hi]
          by_cases hin : i = index
          · subst hin
            intro d hd
            rw [hs, hf, Option.some.injEq] at hd
            subst hd
            refine exists_tells hp hc (fun hj => ?_) htl₂
            obtain ⟨target, ht, htl⟩ := htl₁ hj
            exact ⟨target, ht, htl.of_grows hs₂.grows⟩
          · refine (hiv.settled i (fun hm => hi (hw₁ i hm)) ?_).of_grows hg hs
            rw [hcr]
            simpa using fun h => hin h.symm

/-- A work list that has run to its end leaves every instruction settled. -/
theorem Work.Inv.settle (he : EndsWell placed) {frames : Frames} : ∀ {fuel : Nat} {s : Work},
    s.Inv env f placed → Verify.settle env f placed fuel s = some (.ok frames) →
    (⟨frames, [], none⟩ : Work).Inv env f placed
  | 0, _, _, h => nomatch h
  | fuel + 1, s, hin, h => by
    obtain ⟨known', work, current⟩ := s
    unfold Verify.settle at h
    match current, work with
    | some index, work =>
      dsimp only at h
      cases hl : Verify.look env f placed index ⟨known', work, some index⟩ with
      | error e => simp [hl] at h
      | ok s =>
        rw [hl] at h
        exact Work.Inv.settle he (hin.look he rfl hl) h
    | none, index :: work =>
      have hp : (⟨known', work, some index⟩ : Work).Inv env f placed := by
        refine ⟨hin.length, hin.entry, fun i hi hc => hin.settled i (fun hm => ?_) nofun⟩
        grind
      exact Work.Inv.settle he hp h
    | none, [] => grind

theorem inv_start (hp : placed ≠ []) : (start f placed).Inv env f placed := by
  have hps : 0 < placed.length := length_pos_iff.mpr hp
  refine ⟨by simp [start], ⟨⟨f.arity, false⟩, ?_, ⟨Nat.le_refl _, fun _ => rfl⟩⟩, ?_⟩
  · simp [start, known, hps]
  · intro index hi _ frame hf
    have hne : (0 : Nat) ≠ index := fun h => hi (by simp [start, ← h])
    simp only [start, known, getElem?_set_ne hne, getElem?_replicate] at hf
    split at hf <;> simp at hf

/-! ### The instructions of the code -/

/-- The instructions follow one another from the offset on. -/
inductive Laid (code : List UInt8) : Nat → List Placed → Prop
  | nil {i : Nat} : Laid code i []
  | cons {i next : Nat} {instr : Instr Nat} {rest : List Placed}
      (hdecode : decode code i = some (instr, next)) (hrest : Laid code next rest) :
      Laid code i (⟨i, instr, next⟩ :: rest)

theorem laid_instrsFrom {code : List UInt8} : ∀ {fuel i : Nat} {placed : List Placed},
    instrsFrom code fuel i = .ok placed → Laid code i placed
  | 0, i, placed, h => by
    obtain rfl : [] = placed := by simpa [instrsFrom] using h
    exact .nil
  | fuel + 1, i, placed, h => by
    unfold instrsFrom at h
    split at h
    · cases hd : decode code i with
      | none => simp [hd] at h
      | some found =>
        obtain ⟨instr, next⟩ := found
        cases hr : instrsFrom code fuel next with
        | error e => simp [hd, hr, Except.map] at h
        | ok rest =>
          simp only [hd, hr, Except.map, Except.ok.injEq] at h
          subst h
          exact .cons hd (laid_instrsFrom hr)
    · obtain rfl : [] = placed := by simpa using h
      exact .nil

theorem Laid.decode (h : Laid code i placed) (hp : placed[index]? = some p) :
    Bytecode.decode code p.offset = some (p.instr, p.next) := by
  induction h generalizing index with
  | nil => simp at hp
  | cons hd hr ih => grind

theorem Laid.offset_zero (h : Laid code i placed) (hp : placed[0]? = some p) : p.offset = i := by
  cases h with
  | nil => simp at hp
  | cons hd hr =>
    obtain rfl := by simpa using hp
    rfl

theorem Laid.offset_succ {q : Placed} (h : Laid code i placed) (hp : placed[index]? = some p)
    (hq : placed[index + 1]? = some q) : q.offset = p.next := by
  induction h generalizing index with
  | nil => simp at hp
  | cons hd hr ih =>
    cases index with
    | zero =>
      obtain rfl := by simpa using hp
      exact hr.offset_zero (by simpa using hq)
    | succ index => exact ih (by simpa using hp) (by simpa using hq)

theorem instrs_spec (h : instrs f = .ok placed) :
    placed ≠ [] ∧ Laid f.code 0 placed ∧ EndsWell placed := by
  unfold instrs at h
  cases hpl : instrsFrom f.code f.code.length 0 with
  | error e => simp [hpl, bind, Except.bind] at h
  | ok found =>
    simp only [hpl, bind, Except.bind] at h
    cases hl : found.getLast? with
    | none => simp [hl, throw, throwThe, MonadExceptOf.throw] at h
    | some last =>
      simp only [hl] at h
      split at h
      · simp [throw, throwThe, MonadExceptOf.throw] at h
      · rename_i hg
        simp only [pure, Except.pure, Except.ok.injEq] at h
        subst h
        refine ⟨fun hn => by simp [hn] at hl, laid_instrsFrom hpl, ?_⟩
        intro index p hp hp'
        grind

end Verify

open Lib.Dataflow Verify in
/-- An accepted function has a table of frames: it has the frame a call starts with at the first
instruction, every instruction passes the check with its frame, and the ones it goes on to have
the frame it leaves. -/
theorem Accepts.certificate {env : Env} {f : Function} (h : Accepts env f) :
    ∃ (placed : List Placed) (frames : Frames), instrs f = .ok placed ∧
      frames.length = placed.length ∧ Knows Frame.Admits (known frames) 0 f.arity ∧
      ∀ index, Settled Frame.Admits (tells env f placed) (known frames) index := by
  obtain ⟨fuel, hv⟩ := h
  unfold verify at hv
  cases hi : instrs f with
  | error e => simp [hi] at hv
  | ok placed =>
    simp only [hi, map_eq_some_iff] at hv
    obtain ⟨result, hs, hr⟩ := hv
    cases result with
    | error e => simp [Except.map] at hr
    | ok frames =>
      obtain ⟨hne, -, he⟩ := instrs_spec hi
      have hin := (inv_start hne).settle he hs
      exact ⟨placed, frames, rfl, hin.length, hin.entry,
        fun index => hin.settled index not_mem_nil nofun⟩

end Silt.Bytecode

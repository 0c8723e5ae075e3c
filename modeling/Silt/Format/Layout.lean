import Mathlib.Logic.Function.Iterate
import Silt.Format.Render

/-!
# How documents are laid out

A group is measured once, when the loop comes to it: on one line, with what follows it up to the
first place where a line can break.  What follows is taken as broken wherever it is not decided yet.
These guesses do no harm: while a line holds a break that was laid out flat, what is left of the
document up to its next break fits the line (`Room`), and this stays so at every step.

The documents are those without comments and without text that spans lines (`Plain`).

## Main definitions

* `Plain`, `PlainDoc` : documents of groups, breaks and texts of one line.
* `layoutAt` : the state of the loop after some steps.
* `Room` : what waits fits the line, up to its first break.

## Main results

* `Laying.step` : what holds at every step.
* `layout_law` : groups in flat groups are flat, groups with forced breaks are broken, and a line
  that is too wide holds no break that was laid out flat.
-/

namespace Silt.Format

open List

variable {doc : Doc} {stack : List Cmd} {width : Nat} {text done line : List Char} {r : Renderer}
  {s : Renderer × List Cmd}

/-! ### Documents without comments -/

/-- A document of groups, breaks and texts of one line. -/
inductive Plain : Doc → Prop
  | nil : Plain .nil
  | text {t : List Char} (h : '\n' ∉ t) : Plain (.text t)
  | line : Plain .line
  | softLine : Plain .softLine
  | hardLine : Plain .hardLine
  | grouped {doc : Doc} (h : Plain doc) : Plain doc.grouped
  | nest {doc : Doc} (h : Plain doc) : Plain (.nest doc)
  | concat {docs : List Doc} (h : ∀ doc ∈ docs, Plain doc) : Plain (.concat docs)
  | ifBreak {broken flat : List Char} (hbroken : '\n' ∉ broken) (hflat : '\n' ∉ flat) :
      Plain (.ifBreak (.text broken) (.text flat))

/-- A document without comments. -/
structure PlainDoc where
  doc : Doc
  plain : Plain doc

/-- A forced break is somewhere in the document. -/
inductive HoldsHardLine : Doc → Prop
  | hardLine : HoldsHardLine .hardLine
  | group {doc : Doc} {forced : Bool} (h : HoldsHardLine doc) : HoldsHardLine (.group doc forced)
  | nest {doc : Doc} (h : HoldsHardLine doc) : HoldsHardLine (.nest doc)
  | concat {doc : Doc} {docs : List Doc} (hmem : doc ∈ docs) (h : HoldsHardLine doc) :
      HoldsHardLine (.concat docs)

theorem anyForcesBreak_eq (d : List Doc) : Doc.anyForcesBreak d = d.any Doc.forcesBreak := by
  induction d with
  | nil => rfl
  | cons doc d ih => rw [Doc.anyForcesBreak, any_cons, ih]

/-- A group of a plain document knows its forced breaks. -/
theorem forcesBreak_of_holds (hp : Plain doc) (h : HoldsHardLine doc) : doc.forcesBreak = true := by
  induction hp with
  | nil | text | line | softLine | ifBreak => cases h
  | hardLine => rfl
  | grouped hdc ih =>
    cases h with
    | group h => exact ih h
  | nest hdc ih =>
    cases h with
    | nest h => exact ih h
  | concat hd ih =>
    cases h with
    | concat hmem h =>
      rw [Doc.forcesBreak, anyForcesBreak_eq, any_eq_true]
      exact ⟨_, hmem, ih _ hmem h⟩

/-! ### The steps of the loop -/

/-- One round of the loop. -/
def Renderer.step : Renderer × List Cmd → Renderer × List Cmd
  | (r, []) => (r, [])
  | (r, cmd :: stack) => ((r.visit cmd stack).1, (r.visit cmd stack).2 ++ stack)

/-- The state of the loop after so many rounds. -/
def layoutAt (doc : Doc) (width n : Nat) : Renderer × List Cmd :=
  Renderer.step^[n] ({ width }, [⟨0, .brk, doc⟩])

theorem iterate_step_nil (n : Nat) (r : Renderer) : Renderer.step^[n] (r, []) = (r, []) := by
  induction n with
  | zero => rfl
  | succ n ih => rw [Function.iterate_succ_apply, Renderer.step, ih]

theorem renderAll_eq (fuel : Nat) (stack : List Cmd) (r : Renderer) :
    renderAll fuel stack r = (Renderer.step^[fuel] (r, stack)).1 := by
  induction fuel generalizing stack r with
  | zero => rfl
  | succ fuel ih =>
    cases stack with
    | nil => rw [renderAll, iterate_step_nil]
    | cons cmd stack => rw [renderAll, Function.iterate_succ_apply, Renderer.step, ih]

theorem render_eq (doc : Doc) (width : Nat) :
    render doc width = (layoutAt doc width doc.size).1.finish := by
  rw [render, renderAll_eq, layoutAt]

theorem stackSize_cons (cmd : Cmd) (stack : List Cmd) :
    stackSize (cmd :: stack) = cmd.doc.size + stackSize stack := rfl

theorem stackSize_append (stack stack' : List Cmd) :
    stackSize (stack ++ stack') = stackSize stack + stackSize stack' := by
  rw [stackSize, map_append, sum_append, stackSize, stackSize]

theorem iterate_step_of_le {n : Nat} (r : Renderer) (h : stackSize stack ≤ n) :
    (Renderer.step^[n] (r, stack)).2 = [] := by
  induction n generalizing stack r with
  | zero =>
    cases stack with
    | nil => rfl
    | cons cmd stack =>
      have := stackSize_visit_lt r cmd stack
      rw [stackSize_cons] at h
      omega
  | succ n ih =>
    cases stack with
    | nil => rw [iterate_step_nil]
    | cons cmd stack =>
      have := stackSize_visit_lt r cmd stack
      rw [stackSize_cons] at h
      exact ih _ (by rw [stackSize_append]; omega)

/-! ### Whether what waits fits -/

/-- What waits, up to its first break, fits what is left of the line. -/
def Room (width : Nat) (stack : List Cmd) (left : Int) : Prop :=
  measureRest width stack ⟨left, -1, -1⟩ = true

theorem measureRest_eq_true {m : Measure} :
    measureRest width stack m = true ↔ Room width stack m.left := by
  cases stack <;> exact Iff.rfl

/-- What a measure leaves of the line, taken at any depth. -/
def atDepth (depth left : Int) : Measure := ⟨left, depth, -1⟩

theorem check_of_neg {depth left : Int} (h : left < 0) :
    (atDepth depth left).check = .error false :=
  if_pos h

theorem check_of_nonneg {depth left : Int} (h : 0 ≤ left) :
    (atDepth depth left).check = .ok (atDepth depth left) :=
  if_neg (Int.not_lt.mpr h)

theorem check_then (depth left : Int) (f : Measure → Except Bool Measure) :
    ((atDepth depth left).check >>= f) =
      (atDepth depth left).check >>= fun _ => f (atDepth depth left) := by
  by_cases hl : left < 0
  · rw [check_of_neg hl]
    rfl
  · rw [check_of_nonneg (Int.not_lt.mp hl)]
    rfl

theorem check_atDepth (left : Int) :
    ∃ w : Except Bool Int, ∀ depth, (atDepth depth left).check = w.map (atDepth depth) := by
  by_cases hl : left < 0
  · exact ⟨.error false, fun depth => check_of_neg hl⟩
  · exact ⟨.ok left, fun depth => check_of_nonneg (Int.not_lt.mp hl)⟩

theorem check_bind {left : Int} {f : Int → Measure → Except Bool Measure}
    (h : ∃ w : Except Bool Int, ∀ depth, -1 ≤ depth →
      f depth (atDepth depth left) = w.map (atDepth depth)) :
    ∃ w : Except Bool Int, ∀ depth, -1 ≤ depth →
      ((atDepth depth left).check >>= f depth) = w.map (atDepth depth) := by
  by_cases hl : left < 0
  · refine ⟨.error false, fun depth _ => ?_⟩
    rw [check_of_neg hl]
    rfl
  · obtain ⟨w, hw⟩ := h
    refine ⟨w, fun depth hd => ?_⟩
    rw [← hw depth hd, check_of_nonneg (Int.not_lt.mp hl)]
    rfl

theorem measureAll_atDepth {mode : Mode} {d : List Doc}
    (h : ∀ doc ∈ d, ∀ left, ∃ w : Except Bool Int, ∀ depth, -1 ≤ depth →
      measure width mode doc (atDepth depth left) = w.map (atDepth depth)) (left : Int) :
    ∃ w : Except Bool Int, ∀ depth, -1 ≤ depth →
      measureAll width mode d (atDepth depth left) = w.map (atDepth depth) := by
  induction d generalizing left with
  | nil => exact ⟨.ok left, fun _ _ => rfl⟩
  | cons doc d ih =>
    obtain ⟨w, hw⟩ := h doc mem_cons_self left
    cases w with
    | error a =>
      refine ⟨.error a, fun depth hd => ?_⟩
      rw [measureAll, hw depth hd]
      rfl
    | ok left' =>
      obtain ⟨w, hw'⟩ := ih (fun doc hdc => h doc (mem_cons_of_mem _ hdc)) left'
      refine ⟨w, fun depth hd => ?_⟩
      rw [measureAll, hw depth hd]
      exact hw' depth hd

theorem not_waiting (depth left : Int) :
    ¬ (0 ≤ (atDepth depth left).depth ∧
      (atDepth depth left).depth ≤ (atDepth depth left).suffixDepth) := by
  dsimp only [atDepth]
  omega

/-- Without comments, a measure does not depend on how deep in groups it is taken. -/
theorem measure_atDepth (h : Plain doc) (width : Nat) (mode : Mode) (left : Int) :
    ∃ w : Except Bool Int, ∀ depth, -1 ≤ depth →
      measure width mode doc (atDepth depth left) = w.map (atDepth depth) := by
  induction h generalizing mode left with
  | nil =>
    obtain ⟨w, hw⟩ := check_atDepth left
    exact ⟨w, fun depth _ => by rw [measure, hw]⟩
  | @text t ht =>
    obtain ⟨w, hw⟩ := check_atDepth (left - t.length)
    refine ⟨w, fun depth _ => ?_⟩
    rw [measure, Measure.text, if_neg ht]
    exact hw depth
  | line =>
    cases mode with
    | brk => exact ⟨.error true, fun depth _ => by rw [measure]; rfl⟩
    | flat =>
      obtain ⟨w, hw⟩ := check_atDepth (left - 1)
      refine ⟨w, fun depth _ => ?_⟩
      rw [measure, if_neg nofun, if_neg (not_waiting depth left)]
      exact hw depth
  | softLine =>
    cases mode with
    | brk => exact ⟨.error true, fun depth _ => by rw [measure]; rfl⟩
    | flat =>
      obtain ⟨w, hw⟩ := check_atDepth left
      refine ⟨w, fun depth _ => ?_⟩
      rw [measure, if_neg nofun, if_neg (not_waiting depth left)]
      exact hw depth
  | hardLine => exact ⟨.error true, fun depth _ => by rw [measure]; rfl⟩
  | @grouped doc hdo ih =>
    obtain ⟨w, hw⟩ := ih (if doc.forcesBreak then .brk else mode) left
    by_cases hlf : left < 0
    · refine ⟨.error false, fun depth _ => ?_⟩
      have hc : (atDepth depth left).enter.check = .error false := by
        unfold Measure.enter
        split <;> simp [Measure.check, atDepth, hlf]
      rw [Doc.grouped, measure, hc]
      rfl
    · refine ⟨w, fun depth hd => ?_⟩
      -- The depth inside is one more, unless no group is open.
      obtain ⟨inside, hi, he, hl⟩ : ∃ inside, -1 ≤ inside ∧ (atDepth depth left).enter =
          atDepth inside left ∧ ∀ l, (atDepth inside l).leave = atDepth depth l := by
        by_cases h0 : 0 ≤ depth
        · refine ⟨depth + 1, by omega, ?_, fun l => ?_⟩
          · simp [Measure.enter, atDepth, h0]
          · have : 0 ≤ depth + 1 := by omega
            simp [Measure.leave, atDepth, this]
            omega
        · refine ⟨depth, hd, ?_, fun l => ?_⟩
          · simp [Measure.enter, atDepth, h0]
          · simp [Measure.leave, atDepth, h0]
      have hc : (atDepth depth left).enter.check = .ok (atDepth inside left) := by
        rw [he, Measure.check, if_neg]
        exact hlf
      rw [Doc.grouped, measure, hc]
      show (measure width _ doc (atDepth inside left) >>= fun m => .ok m.leave) = _
      rw [hw inside hi]
      cases w with
      | error a => rfl
      | ok l => exact congrArg Except.ok (hl l)
  | @nest doc hdo ih =>
    exact check_bind (ih mode left)
  | @concat d hdc ih =>
    exact check_bind (measureAll_atDepth (fun doc hdo => ih doc hdo mode) left)
  | @ifBreak broken flat hb hf =>
    simp only [measure]
    apply check_bind
    cases mode with
    | brk =>
      obtain ⟨w, hw⟩ := check_atDepth (left - broken.length)
      refine ⟨w, fun depth _ => ?_⟩
      rw [if_pos rfl, Measure.text, if_neg hb]
      exact hw depth
    | flat =>
      obtain ⟨w, hw⟩ := check_atDepth (left - flat.length)
      refine ⟨w, fun depth _ => ?_⟩
      rw [if_neg nofun, Measure.text, if_neg hf]
      exact hw depth

/-- A measure says that there is room, or leaves some for the rest. -/
def Leaves (width : Nat) (stack : List Cmd) : Except Bool Int → Prop
  | .error answer => answer = true
  | .ok left => Room width stack left

section Room

variable {width indent : Nat} {mode : Mode} {stack : List Cmd} {left : Int}

theorem room_of_measure {cmd : Cmd} {w : Except Bool Int}
    (h : measure width cmd.mode cmd.doc (atDepth (-1) left) = w.map (atDepth (-1))) :
    Room width (cmd :: stack) left ↔ Leaves width stack w := by
  rw [Room, measureRest]
  dsimp only
  rw [← atDepth, h]
  cases w with
  | error a => exact Iff.rfl
  | ok left' => exact measureRest_eq_true

theorem room_replaced {cmd : Cmd} {p : List Cmd} {left' : Int} {w : Except Bool Int}
    (h : measure width cmd.mode cmd.doc (atDepth (-1) left) =
      (atDepth (-1) left').check >>= fun _ => w.map (atDepth (-1)))
    (hp : Room width (p ++ stack) left' ↔ Leaves width stack w) :
    Room width (cmd :: stack) left ↔ 0 ≤ left' ∧ Room width (p ++ stack) left' := by
  by_cases hl : left' < 0
  · rw [check_of_neg hl] at h
    rw [@room_of_measure width stack left cmd (.error false) h]
    constructor
    · intro hf
      cases hf
    · intro hle
      omega
  · rw [check_of_nonneg (Int.not_lt.mp hl)] at h
    rw [room_of_measure h, hp]
    exact ⟨fun hr => ⟨Int.not_lt.mp hl, hr⟩, And.right⟩

theorem room_of_check {cmd : Cmd} {left' : Int}
    (h : measure width cmd.mode cmd.doc (atDepth (-1) left) = (atDepth (-1) left').check) :
    Room width (cmd :: stack) left ↔ 0 ≤ left' ∧ Room width stack left' := by
  apply @room_replaced width stack left cmd [] left' (.ok left')
  · rw [h]
    exact (bind_pure _).symm.trans (check_then (-1) left' pure)
  · exact Iff.rfl

theorem room_nil :
    Room width (⟨indent, mode, .nil⟩ :: stack) left ↔ 0 ≤ left ∧ Room width stack left := by
  apply room_of_check
  rfl

theorem room_text {t : List Char} (ht : '\n' ∉ t) :
    Room width (⟨indent, mode, .text t⟩ :: stack) left ↔
      0 ≤ left - t.length ∧ Room width stack (left - t.length) := by
  apply room_of_check
  exact if_neg ht

theorem room_line :
    Room width (⟨indent, .flat, .line⟩ :: stack) left ↔
      0 ≤ left - 1 ∧ Room width stack (left - 1) := by
  apply room_of_check
  rfl

theorem room_softLine :
    Room width (⟨indent, .flat, .softLine⟩ :: stack) left ↔ 0 ≤ left ∧ Room width stack left := by
  apply room_of_check
  rfl

theorem room_nest {doc : Doc} {indent' : Nat} (h : Plain doc) :
    Room width (⟨indent, mode, .nest doc⟩ :: stack) left ↔
      0 ≤ left ∧ Room width ([⟨indent', mode, doc⟩] ++ stack) left := by
  obtain ⟨w, hw⟩ := measure_atDepth h width mode left
  apply room_replaced
  · show ((atDepth (-1) left).check >>= measure width mode doc) = _
    rw [check_then, hw (-1) (Int.le_refl _)]
  · exact room_of_measure (hw (-1) (Int.le_refl _))

theorem leaves_of_measureAll {d : List Doc} (h : ∀ doc ∈ d, Plain doc) {w : Except Bool Int}
    (hw : measureAll width mode d (atDepth (-1) left) = w.map (atDepth (-1))) :
    Room width (d.map (⟨indent, mode, ·⟩) ++ stack) left ↔ Leaves width stack w := by
  induction d generalizing left with
  | nil =>
    cases w with
    | error a => cases hw
    | ok left' =>
      have hl : left = left' := congrArg Measure.left (Except.ok.inj hw)
      rw [← hl]
      exact Iff.rfl
  | cons doc d ih =>
    obtain ⟨v, hv⟩ := measure_atDepth (h doc mem_cons_self) width mode left
    have hv := hv (-1) (Int.le_refl _)
    change (measure width mode doc _ >>= measureAll width mode d) = _ at hw
    rw [hv] at hw
    rw [map_cons, cons_append]
    cases v with
    | error a =>
      cases w with
      | error a' =>
        obtain rfl : a = a' := Except.error.inj hw
        exact @room_of_measure width _ left ⟨indent, mode, doc⟩ (.error a) hv
      | ok left' => cases hw
    | ok left' =>
      rw [@room_of_measure width _ left ⟨indent, mode, doc⟩ (.ok left') hv]
      exact ih (fun doc hd => h doc (mem_cons_of_mem _ hd)) hw

theorem room_concat {d : List Doc} (h : ∀ doc ∈ d, Plain doc) :
    Room width (⟨indent, mode, .concat d⟩ :: stack) left ↔
      0 ≤ left ∧ Room width (d.map (⟨indent, mode, ·⟩) ++ stack) left := by
  obtain ⟨w, hw⟩ := @measureAll_atDepth width mode d
    (fun doc hd => measure_atDepth (h doc hd) width mode) left
  have hw := hw (-1) (Int.le_refl _)
  apply room_replaced
  · show ((atDepth (-1) left).check >>= measureAll width mode d) = _
    rw [check_then, hw]
  · exact leaves_of_measureAll h hw

theorem room_ifBreak {broken flat : List Char} (hb : '\n' ∉ broken) (hf : '\n' ∉ flat) :
    Room width (⟨indent, mode, .ifBreak (.text broken) (.text flat)⟩ :: stack) left ↔
      0 ≤ left ∧
        Room width ([⟨indent, mode, if mode = .brk then .text broken else .text flat⟩] ++ stack)
          left := by
  have hp : Plain (if mode = .brk then .text broken else .text flat) := by
    split
    · exact .text hb
    · exact .text hf
  obtain ⟨w, hw⟩ := measure_atDepth hp width mode left
  have hw := hw (-1) (Int.le_refl _)
  apply room_replaced
  · rw [← hw]
    cases mode <;> exact check_then (-1) left _
  · exact room_of_measure hw

theorem room_grouped {doc : Doc} (h : Plain doc) :
    Room width (⟨indent, mode, doc.grouped⟩ :: stack) left ↔
      0 ≤ left ∧
        Room width ([⟨indent, if doc.forcesBreak then .brk else mode, doc⟩] ++ stack) left := by
  obtain ⟨w, hw⟩ := measure_atDepth h width (if doc.forcesBreak then .brk else mode) left
  have hw := hw (-1) (Int.le_refl _)
  apply room_replaced (w := w)
  · show ((atDepth (-1) left).check >>= fun m => measure width _ doc m >>= fun m => .ok m.leave) = _
    rw [check_then, hw]
    cases w <;> rfl
  · exact room_of_measure hw

theorem Room.mono {left' : Int} (h : Room width stack left) (hle : left ≤ left')
    (hpl : ∀ cmd ∈ stack, Plain cmd.doc) : Room width stack left' := by
  induction hn : stackSize stack using Nat.strongRecOn generalizing stack left left' with
  | _ n ih =>
    cases stack with
    | nil => rfl
    | cons cmd stack =>
      obtain ⟨indent, mode, doc⟩ := cmd
      have hr : ∀ cmd ∈ stack, Plain cmd.doc := fun cmd hc =>
        hpl cmd (mem_cons_of_mem _ hc)
      have hs : stackSize (⟨indent, mode, doc⟩ :: stack) = doc.size + stackSize stack := rfl
      -- What the document is replaced by is smaller.
      have hps {p : List Cmd} (hlt : stackSize p < doc.size) (hp : ∀ cmd ∈ p, Plain cmd.doc)
          {l l' : Int} (hl : l ≤ l') (h : 0 ≤ l ∧ Room width (p ++ stack) l) : 0 ≤ l' ∧ Room width
          (p ++ stack) l' := by
        refine ⟨Int.le_trans h.1 hl, ih _ ?_ h.2 hl ?_ rfl⟩
        · rw [stackSize_append]
          omega
        grind
      have hnn {l l' : Int} (hl : l ≤ l') (h : 0 ≤ l ∧ Room width stack l) :
          0 ≤ l' ∧ Room width stack l' :=
        @hps [] (by cases doc <;> simp [stackSize, Doc.size]) (by simp) l l' hl h
      have ho {m : Mode} {i : Nat} {inner : Doc} (hlt : inner.size < doc.size)
          (hi : Plain inner) (h : 0 ≤ left ∧ Room width ([⟨i, m, inner⟩] ++ stack) left) :
          0 ≤ left' ∧ Room width ([⟨i, m, inner⟩] ++ stack) left' := by
        refine hps ?_ ?_ hle h
        · simpa [stackSize] using hlt
        · intro cmd hc
          rw [mem_singleton.mp hc]
          exact hi
      cases hpl _ mem_cons_self with
      | nil => exact room_nil.mpr (hnn hle (room_nil.mp h))
      | text ht => exact (room_text ht).mpr (hnn (by omega) ((room_text ht).mp h))
      | line =>
        cases mode with
        | brk => rfl
        | flat => exact room_line.mpr (hnn (by omega) (room_line.mp h))
      | softLine =>
        cases mode with
        | brk => rfl
        | flat => exact room_softLine.mpr (hnn hle (room_softLine.mp h))
      | hardLine => rfl
      | grouped hdc =>
        exact (room_grouped hdc).mpr (ho (Nat.lt_succ_self _) hdc ((room_grouped hdc).mp h))
      | nest hdc =>
        exact (@room_nest _ _ _ _ _ _ indent hdc).mpr
          (ho (Nat.lt_succ_self _) hdc ((room_nest hdc).mp h))
      | concat hd =>
        refine (room_concat hd).mpr (hps ?_ ?_ hle ((room_concat hd).mp h))
        · rw [sizes_eq]
          exact Nat.lt_succ_self _
        grind
      | ifBreak hb hf =>
        refine (room_ifBreak hb hf).mpr (ho ?_ ?_ ((room_ifBreak hb hf).mp h))
        · split <;> simp [Doc.size]
        · split
          · exact .text hb
          · exact .text hf

end Room

/-! ### Lines -/

/-- The text is nothing, or ends with a line break. -/
def Closed (text : List Char) : Prop := ∀ c ∈ text.getLast?, c = '\n'

theorem closed_nil : Closed [] := nofun

theorem closed_newline (text : List Char) : Closed (text ++ ['\n']) := by
  intro c hc
  rw [getLast?_concat] at hc
  exact (Option.some.inj hc).symm

theorem lastLine_append {more : List Char} (h : '\n' ∉ more) :
    lastLine (text ++ more) = lastLine text ++ more := by
  rw [lastLine, lastLine, List.rtakeWhile, List.rtakeWhile, reverse_append,
    takeWhile_append_of_pos, reverse_append, reverse_reverse]
  grind

theorem lastLine_of_closed (h : Closed text) : lastLine text = [] := by
  rcases eq_nil_or_concat text with rfl | ⟨init, c, rfl⟩
  · rfl
  · obtain rfl := h c (by simp)
    simp [lastLine, List.rtakeWhile]

/-- Trimming leaves what ends with a line break. -/
theorem trimEnd_append {more : List Char} (h : Closed text) :
    trimEnd ' ' (text ++ more) = text ++ trimEnd ' ' more := by
  have ht : text.reverse.dropWhile (· == ' ') = text.reverse := by
    rcases eq_nil_or_concat text with rfl | ⟨init, c, rfl⟩
    · rfl
    · obtain rfl := h c (by simp)
      simp
  rw [trimEnd, trimEnd, List.rdropWhile, List.rdropWhile, reverse_append, dropWhile_append]
  grind

theorem trimEnd_subset {c : Char} (h : c ∈ trimEnd ' ' text) : c ∈ text := by
  have hp := rdropWhile_prefix (· == ' ') text
  exact hp.subset h

theorem length_trimEnd_le (text : List Char) : (trimEnd ' ' text).length ≤ text.length := by
  have hp := rdropWhile_prefix (· == ' ') text
  exact hp.length_le

/-! ### The output without comments -/

/-- No comment waits, and the column is that of the output. -/
structure Calm (r : Renderer) : Prop where
  suffixes : r.suffixes = []
  lineIsClosed : r.lineIsClosed = false
  afterComment : r.afterComment = false
  start : r.atLineStart = true → Closed r.out
  column : r.atLineStart = false → (lastLine r.out).length ≤ r.col

/-- What is left of the current line. -/
def Renderer.left (r : Renderer) : Int :=
  r.width - (if r.atLineStart then r.indent else r.col : Nat)

theorem calm_newline (h : Calm r) (indent : Nat) :
    Calm (r.newline indent) ∧ (r.newline indent).width = r.width ∧
      (r.newline indent).out = trimEnd ' ' r.out ++ ['\n'] := by
  have hn : r.newline indent = { r with
      suffixes := [], out := trimEnd ' ' r.out ++ ['\n'], atLineStart := true, indent := indent,
      col := 0, lineIsClosed := false, afterComment := false } := by
    rw [Renderer.newline, h.suffixes]
    rfl
  rw [hn]
  exact ⟨⟨rfl, rfl, rfl, fun _ => closed_newline _, by rintro ⟨⟩⟩, rfl, rfl⟩

theorem openLine_of_calm (h : Calm r) (indent : Nat) :
    r.openLine indent =
      if r.atLineStart then
        { r with out := r.out ++ spaces r.indent, col := r.indent, atLineStart := false }
      else r := by
  have hr : r.reopen indent = r := by simp [Renderer.reopen, h.lineIsClosed]
  rw [Renderer.openLine, hr]

theorem calm_openLine (h : Calm r) (indent : Nat) :
    Calm (r.openLine indent) ∧ (r.openLine indent).width = r.width ∧
      (r.openLine indent).atLineStart = false ∧ (r.openLine indent).left = r.left ∧
      ∃ more, '\n' ∉ more ∧ (r.openLine indent).out = r.out ++ more := by
  have hsp : '\n' ∉ spaces r.indent := by
    intro hmem
    exact absurd (eq_of_mem_replicate hmem) (by decide)
  rw [openLine_of_calm h]
  cases hs : r.atLineStart with
  | false =>
    refine ⟨h, rfl, hs, rfl, [], by simp, ?_⟩
    simp
  | true =>
    refine ⟨⟨h.suffixes, h.lineIsClosed, h.afterComment, nofun, ?_⟩, rfl, rfl, ?_, _, hsp, rfl⟩
    · intro _
      rw [if_pos rfl, lastLine_append hsp, lastLine_of_closed (h.start hs)]
      simp [spaces]
    · simp [Renderer.left, hs]

theorem calm_push (h : Calm r) (hst : r.atLineStart = false) {t : List Char} (ht : '\n' ∉ t) :
    Calm (r.push t) ∧ (r.push t).left = r.left - t.length := by
  refine ⟨⟨h.suffixes, h.lineIsClosed, h.afterComment, ?_, ?_⟩, ?_⟩
  · intro hs
    exact absurd (hst.symm.trans hs) nofun
  · intro _
    have hc := h.column hst
    rw [Renderer.push]
    simp only [if_neg ht, lastLine_append ht, length_append]
    omega
  · rw [Renderer.left, Renderer.left, Renderer.push]
    simp only [hst, if_neg ht]
    simp
    omega

/-- Text on the line: a space at its start is not worth a line of its own. -/
theorem calm_text (h : Calm r) {t : List Char} (ht : '\n' ∉ t) (indent : Nat) :
    Calm (r.text t indent) ∧ (r.text t indent).width = r.width ∧
      r.left - t.length ≤ (r.text t indent).left ∧
      ∃ more, '\n' ∉ more ∧ (r.text t indent).out = r.out ++ more := by
  obtain ⟨t', ht', hle, htr⟩ : ∃ t', '\n' ∉ t' ∧ t'.length ≤ t.length ∧
      (if r.atLineStart || r.lineIsClosed then trimStart ' ' t else t) = t' := by
    refine ⟨_, ?_, ?_, rfl⟩
    · split
      · exact fun hmem => ht (dropWhile_subset _ hmem)
      · exact ht
    · split
      · exact length_dropWhile_le _ _
      · exact Nat.le_refl _
  rw [Renderer.text]
  simp only [htr]
  by_cases hn : t' = []
  · grind
  · rw [if_neg hn, if_neg ht']
    obtain ⟨ho, hw, hs, hl, more, hm, hout⟩ := calm_openLine h indent
    have ha : (r.openLine indent).afterComment = false := ho.afterComment
    simp only [ha, Bool.false_and, Bool.false_eq_true, if_false]
    have heq : { r.openLine indent with afterComment := false } = r.openLine indent := by
      rw [← ha]
    rw [heq]
    obtain ⟨hc, hp⟩ := calm_push ho hs ht'
    refine ⟨hc, hw, by omega, more ++ t', ?_, ?_⟩
    · simp [hm, ht']
    · rw [Renderer.push, ← append_assoc, ← hout]

/-! ### One round -/

/-- What holds at every round: what waits is plain, what is to be flat comes first, holds no forced
break and fits the line. -/
structure Laying (width : Nat) (s : Renderer × List Cmd) : Prop where
  calm : Calm s.1
  sameWidth : s.1.width = width
  plain : ∀ cmd ∈ s.2, Plain cmd.doc
  front : s.2.Pairwise fun a b => b.mode = .flat → a.mode = .flat
  unforced : ∀ cmd ∈ s.2, cmd.mode = .flat → cmd.doc.forcesBreak = false
  room : ∀ cmd ∈ s.2, cmd.mode = .flat → Room width s.2 s.1.left

/-- There is room for what waits, and the line is not too wide. -/
def Roomy (width : Nat) (s : Renderer × List Cmd) : Prop :=
  0 ≤ s.1.left ∧ Room width s.2 s.1.left

theorem fits_iff {r : Renderer} {doc : Doc} (h : Plain doc) (indent : Nat) (stack : List Cmd) :
    r.fits doc stack = true ↔ Room r.width (⟨indent, .flat, doc⟩ :: stack) r.left := by
  obtain ⟨w, hw⟩ := measure_atDepth h r.width .flat r.left
  rw [@room_of_measure r.width stack r.left ⟨indent, .flat, doc⟩ w (hw (-1) (Int.le_refl _))]
  rw [Renderer.fits, ← Renderer.left, ← atDepth, hw 0 (by omega)]
  cases w with
  | error a => exact Iff.rfl
  | ok left => exact measureRest_eq_true

/-- What a round does to the output: it goes on with the line, and what had room has room after it;
or it ends the line. -/
def Goes (width : Nat) (s s' : Renderer × List Cmd) : Prop :=
  ((∃ more, '\n' ∉ more ∧ s'.1.out = s.1.out ++ more) ∧ (Roomy width s → Roomy width s')) ∨
    s'.1.out = trimEnd ' ' s.1.out ++ ['\n']

section Step

variable {width : Nat} {r : Renderer} {cmd : Cmd} {stack : List Cmd}

section

variable (h : Laying width (r, cmd :: stack))

include h

theorem Laying.flat_of_mem {c : Cmd} (hc : c ∈ stack) (hf : c.mode = .flat) : cmd.mode = .flat :=
  (pairwise_cons.mp h.front).1 c hc hf

theorem Laying.replaced (p : List Cmd) (mode : Mode) (hm : ∀ c ∈ p, c.mode = mode)
    (hfl : cmd.mode = .flat → mode = .flat) (hp : ∀ c ∈ p, Plain c.doc)
    (hu : mode = .flat → ∀ c ∈ p, c.doc.forcesBreak = false)
    (hr : mode = .flat → Room width (p ++ stack) r.left) : Laying width (r, p ++ stack) := by
  have hs := (pairwise_cons.mp h.front).2
  have hm' {c : Cmd} (hc : c ∈ p ++ stack) (hf : c.mode = .flat) : mode = .flat := by
    rcases mem_append.mp hc with hc | hc
    · exact (hm c hc).symm.trans hf
    · exact hfl (h.flat_of_mem hc hf)
  refine ⟨h.calm, h.sameWidth, ?_, ?_, ?_, ?_⟩
  · intro c hc
    rcases mem_append.mp hc with hc | hc
    · exact hp c hc
    · exact h.plain c (mem_cons_of_mem _ hc)
  · refine pairwise_append.mpr ⟨?_, hs, ?_⟩
    · apply pairwise_of_forall_mem_list
      intro a ha b hb hf
      rw [hm a ha, ← hm b hb, hf]
    grind
  · intro c hc hf
    rcases mem_append.mp hc with hc' | hc'
    · exact hu (hm' hc hf) c hc'
    · exact h.unforced c (mem_cons_of_mem _ hc') hf
  · intro c hc hf
    exact hr (hm' hc hf)

theorem Laying.wrote {r' : Renderer} {n : Nat}
    (hcl : Calm r') (hw : r'.width = r.width) (hl : r.left - n ≤ r'.left)
    (hrm : Room width (cmd :: stack) r.left → 0 ≤ r.left - n ∧ Room width stack (r.left - n)) :
    Laying width (r', stack) ∧ (Roomy width (r, cmd :: stack) → Roomy width (r', stack)) := by
  have hp : ∀ c ∈ stack, Plain c.doc := fun c hc => h.plain c (mem_cons_of_mem _ hc)
  refine ⟨⟨hcl, hw.trans h.sameWidth, hp, (pairwise_cons.mp h.front).2,
    fun c hc => h.unforced c (mem_cons_of_mem _ hc), ?_⟩, ?_⟩
  · intro c hc hf
    exact (hrm (h.room c (mem_cons_of_mem _ hc) hf)).2.mono hl hp
  · rintro ⟨-, hr⟩
    exact ⟨Int.le_trans (hrm hr).1 hl, (hrm hr).2.mono hl hp⟩

theorem Laying.ended (hb : cmd.mode = .brk) (indent : Nat) :
    Laying width (r.newline indent, stack) ∧
      Goes width (r, cmd :: stack) (r.newline indent, stack) := by
  obtain ⟨hcl, hw, hout⟩ := calm_newline h.calm indent
  have hn {c : Cmd} (hc : c ∈ stack) (hf : c.mode = .flat) : False := by
    rw [h.flat_of_mem hc hf] at hb
    cases hb
  refine ⟨⟨hcl, hw.trans h.sameWidth, fun c hc => h.plain c (mem_cons_of_mem _ hc),
    (pairwise_cons.mp h.front).2, fun c hc hf => (hn hc hf).elim,
    fun c hc hf => (hn hc hf).elim⟩, .inr hout⟩

end

/-- The mode of a group: a group in a flat one is flat. -/
theorem Laying.group_mode {indent : Nat} {doc : Doc}
    (h : Laying width (r, ⟨indent, .flat, doc.grouped⟩ :: stack)) (hd : Plain doc) :
    doc.forcesBreak = false ∧ r.fits doc stack = true := by
  have hu : doc.forcesBreak = false := h.unforced _ mem_cons_self rfl
  have hr := (room_grouped hd).mp (h.room _ mem_cons_self rfl)
  rw [hu] at hr
  refine ⟨hu, (fits_iff hd indent stack).mpr ?_⟩
  rw [h.sameWidth]
  exact hr.2

theorem Laying.grouped {indent : Nat} {mode : Mode} {doc : Doc}
    (h : Laying width (r, ⟨indent, mode, doc.grouped⟩ :: stack)) (hd : Plain doc) :
    Laying width (Renderer.step (r, ⟨indent, mode, doc.grouped⟩ :: stack)) ∧
      Goes width (r, ⟨indent, mode, doc.grouped⟩ :: stack)
        (Renderer.step (r, ⟨indent, mode, doc.grouped⟩ :: stack)) := by
  have hs : Renderer.step (r, ⟨indent, mode, doc.grouped⟩ :: stack) =
      (r, [⟨indent, if doc.forcesBreak || !r.fits doc stack then .brk else .flat, doc⟩] ++ stack) :=
    rfl
  rw [hs]
  by_cases hb : (doc.forcesBreak || !r.fits doc stack) = true
  · rw [if_pos hb]
    have hm : mode = .brk := by
      cases mode with
      | brk => rfl
      | flat =>
        obtain ⟨hu, hft⟩ := h.group_mode hd
        simp [hu, hft] at hb
    refine ⟨h.replaced _ .brk (by simp) (fun hf => ?_) (by simpa using hd) nofun nofun,
      .inl ⟨⟨[], by simp, (append_nil _).symm⟩, ?_⟩⟩
    · rw [hm] at hf
      cases hf
    · rintro ⟨hl, hr⟩
      have := (room_grouped hd).mp hr
      rw [hm, ite_self] at this
      exact this
  · rw [if_neg hb]
    simp only [Bool.or_eq_true, Bool.not_eq_true', not_or, Bool.not_eq_true,
      Bool.not_eq_false] at hb
    have hr : Room width ([⟨indent, .flat, doc⟩] ++ stack) r.left := by
      have := (fits_iff hd indent stack).mp hb.2
      rwa [h.sameWidth] at this
    refine ⟨h.replaced _ .flat (by simp) (fun _ => rfl) (by simpa using hd)
      (fun _ => by simpa using hb.1) (fun _ => hr),
      .inl ⟨⟨[], by simp, (append_nil _).symm⟩, ?_⟩⟩
    rintro ⟨hl, -⟩
    exact ⟨hl, hr⟩

theorem Laying.opened (h : Laying width (r, cmd :: stack)) (p : List Cmd)
    (hm : ∀ c ∈ p, c.mode = cmd.mode) (hp : ∀ c ∈ p, Plain c.doc)
    (hu : cmd.doc.forcesBreak = false → ∀ c ∈ p, c.doc.forcesBreak = false)
    (hrm : Room width (cmd :: stack) r.left ↔ 0 ≤ r.left ∧ Room width (p ++ stack) r.left) :
    Laying width (r, p ++ stack) ∧ Goes width (r, cmd :: stack) (r, p ++ stack) := by
  refine ⟨h.replaced p cmd.mode hm id hp ?_ ?_,
    .inl ⟨⟨[], by simp, (append_nil _).symm⟩, fun hr => hrm.mp hr.2⟩⟩
  · intro hf
    exact hu (h.unforced cmd mem_cons_self hf)
  · intro hf
    exact (hrm.mp (h.room cmd mem_cons_self hf)).2

theorem Laying.step {s : Renderer × List Cmd} (h : Laying width s) :
    Laying width (Renderer.step s) ∧ Goes width s (Renderer.step s) := by
  obtain ⟨r, stack⟩ := s
  cases stack with
  | nil => exact ⟨h, .inl ⟨⟨[], by simp, (append_nil _).symm⟩, id⟩⟩
  | cons cmd stack =>
    obtain ⟨indent, mode, doc⟩ := cmd
    have hp := h.plain _ mem_cons_self
    cases hp with
    | nil =>
      exact h.opened [] (by simp) (by simp) (by simp) room_nil
    | text ht =>
      obtain ⟨hcl, hw, hlf, hout⟩ := calm_text h.calm ht indent
      obtain ⟨hl, hr⟩ := h.wrote hcl hw hlf (room_text ht).mp
      exact ⟨hl, .inl ⟨hout, hr⟩⟩
    | line =>
      cases mode with
      | brk => exact h.ended rfl indent
      | flat =>
        have hs : '\n' ∉ [' '] := by decide
        obtain ⟨hcl, hw, hlf, hout⟩ := calm_text h.calm hs indent
        obtain ⟨hl, hr⟩ := h.wrote hcl hw hlf room_line.mp
        exact ⟨hl, .inl ⟨hout, hr⟩⟩
    | softLine =>
      cases mode with
      | brk => exact h.ended rfl indent
      | flat => exact h.opened [] (by simp) (by simp) (by simp) room_softLine
    | hardLine =>
      have hb : mode = .brk := by
        cases mode with
        | brk => rfl
        | flat => exact absurd (h.unforced _ mem_cons_self rfl) (by simp [Doc.forcesBreak])
      exact h.ended hb indent
    | grouped hdc => exact h.grouped hdc
    | nest hdc =>
      apply h.opened [⟨indent + INDENT, mode, _⟩]
      · simp
      · simpa using hdc
      · simp [Doc.forcesBreak]
      · exact room_nest hdc
    | @concat d hd =>
      apply h.opened (d.map fun doc => ⟨indent, mode, doc⟩)
      · simp
      · simpa using hd
      · intro hu
        rw [Doc.forcesBreak, anyForcesBreak_eq, any_eq_false] at hu
        simpa using hu
      · exact room_concat hd
    | @ifBreak broken flat hbr hf =>
      apply h.opened [⟨indent, mode, if mode = .brk then .text broken else .text flat⟩]
      · simp
      · intro c hc
        rw [mem_singleton.mp hc]
        split
        · exact .text hbr
        · exact .text hf
      · intro _ c hc
        rw [mem_singleton.mp hc]
        split <;> rfl
      · exact room_ifBreak hbr hf

end Step

/-! ### Whole runs -/

theorem laying_start (h : Plain doc) (width : Nat) :
    Laying width ({ width }, [⟨0, .brk, doc⟩]) where
  calm := ⟨rfl, rfl, rfl, fun _ => closed_nil, nofun⟩
  sameWidth := rfl
  plain := by simpa using h
  front := pairwise_singleton _ _
  unforced := by simp
  room := by simp

theorem laying_iterate (h : Laying width s) (n : Nat) : Laying width (Renderer.step^[n] s) := by
  induction n generalizing s with
  | zero => exact h
  | succ n ih => exact ih h.step.1

theorem laying_layoutAt (d : PlainDoc) (width n : Nat) : Laying width (layoutAt d.doc width n) :=
  laying_iterate (laying_start d.plain width) n

/-- The line that starts behind `done` is not too wide: it is the current line and has room for
what waits, or it has ended. -/
inductive Narrow (width : Nat) (done : List Char) (s : Renderer × List Cmd) : Prop
  | current (line : List Char) (hline : '\n' ∉ line) (hout : s.1.out = done ++ line)
      (hroomy : Roomy width s)
  | ended (line rest : List Char) (hline : '\n' ∉ line) (hle : line.length ≤ width)
      (hout : s.1.out = done ++ line ++ '\n' :: rest)

theorem length_le_of_roomy (h : Laying width s) (hr : Roomy width s) (hd : Closed done)
    (hln : '\n' ∉ line) (hout : s.1.out = done ++ line) : line.length ≤ width := by
  have hl : lastLine s.1.out = line := by
    rw [hout, lastLine_append hln, lastLine_of_closed hd, nil_append]
  have hlf := hr.1
  rw [Renderer.left, h.sameWidth] at hlf
  cases hs : s.1.atLineStart with
  | true =>
    rw [lastLine_of_closed (h.calm.start hs)] at hl
    rw [← hl]
    exact Nat.zero_le _
  | false =>
    have hc := h.calm.column hs
    grind

theorem trimEnd_ended (done line rest : List Char) :
    trimEnd ' ' (done ++ line ++ '\n' :: rest) = done ++ line ++ '\n' :: trimEnd ' ' rest := by
  have h := @trimEnd_append (done ++ line ++ ['\n']) rest (closed_newline _)
  simpa using h

theorem Narrow.step (h : Laying width s) (hd : Closed done) (hs : Narrow width done s) :
    Narrow width done (Renderer.step s) := by
  cases hs with
  | current line hl hout hr =>
    rcases h.step.2 with ⟨⟨more, hm, hout'⟩, hk⟩ | hout'
    · refine .current (line ++ more) ?_ ?_ (hk hr)
      · rw [mem_append]
        exact not_or.mpr ⟨hl, hm⟩
      · rw [hout', hout, append_assoc]
    · have hle := length_le_of_roomy h hr hd hl hout
      refine .ended (trimEnd ' ' line) [] (fun hmem => hl (trimEnd_subset hmem))
        ((length_trimEnd_le _).trans hle) ?_
      rw [hout', hout, trimEnd_append hd]
  | ended line rest hl hle hout =>
    rcases h.step.2 with ⟨⟨more, -, hout'⟩, -⟩ | hout'
    · refine .ended line (rest ++ more) hl hle ?_
      rw [hout', hout]
      simp
    · refine .ended line (trimEnd ' ' rest ++ ['\n']) hl hle ?_
      rw [hout', hout, trimEnd_ended]
      simp

theorem narrow_iterate (h : Laying width s) (hd : Closed done) (hs : Narrow width done s)
    (n : Nat) : Narrow width done (Renderer.step^[n] s) := by
  induction n generalizing s with
  | zero => exact hs
  | succ n ih => exact ih h.step.1 (hs.step h hd)

/-! ### The lines of the output -/

theorem exists_lastLine (text : List Char) :
    ∃ done line, text = done ++ line ∧ Closed done ∧ '\n' ∉ line := by
  induction text using List.reverseRecOn with
  | nil => exact ⟨[], [], rfl, closed_nil, by simp⟩
  | append_singleton text c ih =>
    by_cases hc : c = '\n'
    · subst hc
      exact ⟨text ++ ['\n'], [], (append_nil _).symm, closed_newline text, by simp⟩
    grind

/-- Of two beginnings of a text that end with a line break, the one with as many is the other. -/
theorem eq_of_count {a b : List Char} (ha : a <+: text) (hb : b <+: text) (hca : Closed a)
    (hcb : Closed b) (hc : a.count '\n' = b.count '\n') : a = b := by
  -- What one has more than the other ends with a line break, if it is anything.
  have hm {a b : List Char} (hab : a <+: b) (hcb : Closed b)
      (hc : a.count '\n' = b.count '\n') : a = b := by
    obtain ⟨more, rfl⟩ := hab
    rcases eq_nil_or_concat more with rfl | ⟨init, c, rfl⟩
    · exact (append_nil _).symm
    · obtain rfl := hcb c (by simp)
      grind
  rcases prefix_or_prefix_of_prefix ha hb with hab | hba
  · exact hm hab hcb hc
  · exact (hm hba hca hc.symm).symm

/-- Two beginnings of a text up to its first line break are equal. -/
theorem eq_of_lines {line' rest rest' : List Char} (hl : '\n' ∉ line) (hl' : '\n' ∉ line')
    (h : line ++ '\n' :: rest = line' ++ '\n' :: rest') : line = line' := by
  have ht {line rest : List Char} (hl : '\n' ∉ line) :
      (line ++ '\n' :: rest).takeWhile (· != '\n') = line := by
    rw [takeWhile_append_of_pos]
    · simp
    grind
  rw [← ht hl, h, ht hl']

theorem trimEnd_newline_le (text : List Char) : trimEnd '\n' text ++ ['\n'] <+: text ++ ['\n'] := by
  induction text using List.reverseRecOn with
  | nil => exact prefix_refl _
  | append_singleton text c ih =>
    by_cases hc : c = '\n'
    · subst hc
      have ht : trimEnd '\n' (text ++ ['\n']) = trimEnd '\n' text := by
        simp [trimEnd, List.rdropWhile]
      rw [ht]
      exact ih.trans (prefix_append _ _)
    · have ht : trimEnd '\n' (text ++ [c]) = text ++ [c] := by
        simp [trimEnd, List.rdropWhile, hc]
      simp [ht]

/-- The line breaks at the end made one leave the lines before them. -/
theorem closeEnd_le {out : List Char} (h : Closed out) : Renderer.closeEnd out <+: out := by
  rw [Renderer.closeEnd]
  split
  · exact nil_prefix
  · rcases eq_nil_or_concat out with rfl | ⟨init, c, rfl⟩
    · rename_i hne
      exact absurd rfl hne
    · obtain rfl := h c (by simp)
      have ht : trimEnd '\n' (init ++ ['\n']) = trimEnd '\n' init := by
        simp [trimEnd, List.rdropWhile]
      simp only [concat_eq_append, ht]
      exact trimEnd_newline_le init

theorem closed_closeEnd (out : List Char) : Closed (Renderer.closeEnd out) := by
  rw [Renderer.closeEnd]
  split
  · exact closed_nil
  · exact closed_newline _

theorem narrow_finish (h : Laying width s) (hd : Closed done) (hs : Narrow width done s) :
    ∃ out, s.1.finish = Renderer.closeEnd out ∧ Closed out ∧
      (out = done ∨ ∃ line rest, '\n' ∉ line ∧ line.length ≤ width ∧
        out = done ++ line ++ '\n' :: rest) := by
  rw [Renderer.finish, h.calm.suffixes]
  cases hst : s.1.atLineStart with
  | true =>
    have hc := h.calm.start hst
    refine ⟨s.1.out, rfl, hc, ?_⟩
    cases hs with
    | current line hln hout hr =>
      have hl := lastLine_of_closed hc
      rw [hout, lastLine_append hln, lastLine_of_closed hd, nil_append] at hl
      rw [hl, append_nil] at hout
      exact .inl hout
    | ended line rest hln hle hout => exact .inr ⟨line, rest, hln, hle, hout⟩
  | false =>
    obtain ⟨-, -, hn⟩ := calm_newline h.calm 0
    refine ⟨(s.1.newline 0).out, rfl, hn ▸ closed_newline _, .inr ?_⟩
    cases hs with
    | current line hln hout hr =>
      have hle := length_le_of_roomy h hr hd hln hout
      refine ⟨trimEnd ' ' line, [], fun hmem => hln (trimEnd_subset hmem),
        (length_trimEnd_le _).trans hle, ?_⟩
      rw [hn, hout, trimEnd_append hd]
    | ended line rest hln hle hout =>
      refine ⟨line, trimEnd ' ' rest ++ ['\n'], hln, hle, ?_⟩
      rw [hn, hout, trimEnd_ended]
      simp

/-- A break laid out flat is on a line that has room. -/
theorem roomy_of_flat (h : Laying width s) {cmd : Cmd} (hs : s.2 = cmd :: stack)
    (hm : cmd.mode = .flat) (hd : cmd.doc = .line ∨ cmd.doc = .softLine) : Roomy width s := by
  have hr := h.room cmd (by simp [hs]) hm
  refine ⟨?_, hr⟩
  rw [hs] at hr
  obtain ⟨indent, mode, doc⟩ := cmd
  subst hm
  rcases hd with rfl | rfl
  · have := (room_line.mp hr).1
    omega
  · exact (room_softLine.mp hr).1

/-- A line of a text, with what stands before and behind it. -/
structure IsLine (text before line after : List Char) : Prop where
  split : text = before ++ line ++ after
  before : Closed before
  line : '\n' ∉ line
  after : after = [] ∨ after.head? = some '\n'

/-- The line of a flat break in the output is not too wide. -/
theorem length_le_of_flat (d : PlainDoc) (width : Nat) {before after : List Char}
    (hln : IsLine (render d.doc width) before line after) {n : Nat} {cmd : Cmd}
    (hs : (layoutAt d.doc width n).2 = cmd :: stack) (hmd : cmd.mode = .flat)
    (hdc : cmd.doc = .line ∨ cmd.doc = .softLine)
    (hc : (layoutAt d.doc width n).1.out.count '\n' = before.count '\n') : line.length ≤ width := by
  -- The state of the flat break is before the end of the run.
  have hn : n ≤ d.doc.size := by
    by_contra hlt
    have hnl : (layoutAt d.doc width n).2 = [] := by
      apply iterate_step_of_le
      rw [stackSize_cons]
      simp only [stackSize, map_nil, sum_nil]
      omega
    rw [hnl] at hs
    cases hs
  have hly := laying_layoutAt d width n
  obtain ⟨done, cur, hout, hd, hcr⟩ := exists_lastLine (layoutAt d.doc width n).1.out
  have hnr : Narrow width done (layoutAt d.doc width d.doc.size) := by
    have hr : layoutAt d.doc width d.doc.size =
        Renderer.step^[d.doc.size - n] (layoutAt d.doc width n) := by
      rw [layoutAt, layoutAt, ← Function.iterate_add_apply, Nat.sub_add_cancel hn]
    rw [hr]
    exact narrow_iterate hly hd (.current cur hcr hout (roomy_of_flat hly hs hmd hdc)) _
  obtain ⟨out, hf, hcl, hl⟩ := narrow_finish (laying_layoutAt d width d.doc.size) hd hnr
  have hc' : done.count '\n' = before.count '\n' := by
    rw [← hc, hout, count_append, count_eq_zero.mpr hcr, Nat.add_zero]
  by_contra hw
  have hne : line ≠ [] := by
    rintro rfl
    exact hw (Nat.zero_le _)
  -- The line ends with a line break.
  obtain ⟨after', rfl⟩ : ∃ after', after = '\n' :: after' := by
    rcases hln.after with rfl | hh
    · have he := closed_closeEnd out
      rw [← hf, ← render_eq, hln.split, append_nil] at he
      have hmem : line.getLast hne ∈ (before ++ line).getLast? := by
        grind
      exact absurd (he _ hmem ▸ getLast_mem hne) hln.line
    · cases after with
      | nil => cases hh
      | cons c after' => exact ⟨after', by rw [Option.some.inj hh]⟩
  obtain ⟨more, hm⟩ : render d.doc width <+: out := by
    rw [render_eq, hf]
    exact closeEnd_le hcl
  rw [hln.split] at hm
  rcases hl with rfl | ⟨line', rest, hln', hle, rfl⟩
  · grind
  · have heq : before = done := by
      have hb : before <+: done ++ line' ++ '\n' :: rest :=
        ⟨line ++ '\n' :: (after' ++ more), by rw [← hm]; simp⟩
      have hd' : done <+: done ++ line' ++ '\n' :: rest :=
        ⟨line' ++ '\n' :: rest, by rw [append_assoc]⟩
      exact eq_of_count hb hd' hln.before hd hc'.symm
    subst heq
    have ht : line ++ '\n' :: (after' ++ more) = line' ++ '\n' :: rest := by
      simp_all
    exact hw (eq_of_lines hln.line hln' ht ▸ hle)

/-- The layout of a document.  A group in a group that is laid out flat is laid out flat; a group
that holds a forced break is broken; and a line of the output that is wider than the width has no
break on it that was laid out flat. -/
theorem layout_law (d : PlainDoc) (width : Nat) :
    (∀ n r indent inner forced stack,
      layoutAt d.doc width n = (r, ⟨indent, .flat, .group inner forced⟩ :: stack) →
      Renderer.step (layoutAt d.doc width n) = (r, ⟨indent, .flat, inner⟩ :: stack)) ∧
    (∀ n r indent mode inner forced stack,
      layoutAt d.doc width n = (r, ⟨indent, mode, .group inner forced⟩ :: stack) →
      HoldsHardLine inner →
      Renderer.step (layoutAt d.doc width n) = (r, ⟨indent, .brk, inner⟩ :: stack)) ∧
    ∀ before line after, IsLine (render d.doc width) before line after → width < line.length →
      ∀ n cmd stack, (layoutAt d.doc width n).2 = cmd :: stack → cmd.mode = .flat →
        cmd.doc = .line ∨ cmd.doc = .softLine →
        (layoutAt d.doc width n).1.out.count '\n' ≠ before.count '\n' := by
  refine ⟨?_, ?_, ?_⟩
  · intro n r indent inner forced stack hs
    have hl := laying_layoutAt d width n
    rw [hs] at hl ⊢
    have hp := hl.plain _ mem_cons_self
    cases hp with
    | grouped hi =>
      obtain ⟨hu, hf⟩ := hl.group_mode hi
      simp [Renderer.step, Renderer.visit, hu, hf]
  · intro n r indent mode inner forced stack hs hh
    have hl := laying_layoutAt d width n
    rw [hs] at hl ⊢
    have hp := hl.plain _ mem_cons_self
    cases hp with
    | grouped hi =>
      simp [Renderer.step, Renderer.visit, forcesBreak_of_holds hi hh]
  · intro before line after hln hw n cmd stack hs hm hd hc
    exact absurd (length_le_of_flat d width hln hs hm hd hc) (Nat.not_le.mpr hw)

/-- Two texts in a group, with a forced break between them. -/
def twoLines : PlainDoc where
  doc := .grouped (.concat [.text ['a'], .hardLine, .text ['b']])
  plain := .grouped (.concat (by
    simpa using ⟨Plain.text (by decide), Plain.hardLine, Plain.text (by decide)⟩))

theorem layout_law_twoLines :
    Renderer.step (layoutAt twoLines.doc 80 0) =
      ({ width := 80 }, [⟨0, .brk, .concat [.text ['a'], .hardLine, .text ['b']]⟩]) :=
  (layout_law twoLines 80).2.1 0 _ _ _ _ _ _ rfl (.concat (by simp) .hardLine)

end Silt.Format

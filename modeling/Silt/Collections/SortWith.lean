import Silt.Lib.MergeRuns

/-!
# Sorting with a comparison of the program

`list.sort_with` calls a function of the program for each pair that it compares, so the sort is cut
open at every comparison: it keeps the merge under way in its fields and goes on with the answer
(`SortWith.resume`).  The answers may contradict each other, or depend on anything; `ask` gives the
answer to each call, by its number and its arguments.

Places are looked up with their bounds: a place outside of a vector would be an error of its own.

## Main results

* `SortWith.loop_spec` : what the loop comes to.
* `sort_with_sound` : the sort ends and gives the elements of the list; if the answers are those of
  an order, in that order, equal elements as they stood.
-/

namespace Silt.Collections

open List

open Silt.Runs

variable {α : Type}

/-- What the comparison returned: an `Int`, or another value, as it is shown. -/
inductive SortWith.Input
  | int (order : Int64)
  | other (shown : String)

/-- How the sort can fail.  The last two are a panic of a lookup and a loop that takes more rounds
than the model gives it: neither happens. -/
inductive SortWith.Fault
  | message (text : String)
  | outside
  | unfinished

/-- What the machine does next. -/
inductive SortWith.Step (α : Type)
  | done (items : List α)
  | call (a b : α)

/-- A sort under way.  Runs of `width` elements of `source` are merged pairwise into `into`.  The
merge under way has `left` and `mid`, the next element and the end of the left run, and `right` and
`stop`, those of the right run. -/
structure SortWith (α : Type) where
  source : List α
  into : List α
  width : ℕ
  left : ℕ
  mid : ℕ
  right : ℕ
  stop : ℕ
  comparing : Bool

namespace SortWith

/-- Set up the merge of the two runs that start at `start`. -/
def startMerge (s : SortWith α) (start : ℕ) : SortWith α :=
  let n := s.source.length
  { s with
    left := start
    mid := min (start + s.width) n
    right := min (start + s.width) n
    stop := min (start + 2 * s.width) n }

def new (items : List α) : SortWith α :=
  startMerge ⟨items, [], 1, 0, 0, 0, 0, false⟩ 0

/-- The element at a place. -/
def item (xs : List α) (place : ℕ) : Except Fault α :=
  match xs[place]? with
  | some x => .ok x
  | none => .error .outside

/-- The elements between two places. -/
def between (xs : List α) (lo hi : ℕ) : List α :=
  (xs.drop lo).take (hi - lo)

def slice (xs : List α) (lo hi : ℕ) : Except Fault (List α) :=
  if lo ≤ hi ∧ hi ≤ xs.length then .ok (between xs lo hi) else .error .outside

/-- Take in the answer to the comparison that was running. -/
def answered (s : SortWith α) (input : Input) : Except Fault (SortWith α) :=
  if s.comparing then
    match input with
    | .other shown =>
      .error (.message s!"list.sort_with: the comparison returned {shown}, not an Int")
    | .int order =>
      if 0 < order then do
        let taken ← item s.source s.right
        .ok { s with comparing := false, into := s.into ++ [taken], right := s.right + 1 }
      else do
        let taken ← item s.source s.left
        .ok { s with comparing := false, into := s.into ++ [taken], left := s.left + 1 }
  else .ok s

/-- One round of the loop: what it leaves, and what the machine does next if the loop is left. -/
def round (s : SortWith α) : Except Fault (SortWith α × Option (Step α)) :=
  let n := s.source.length
  if n ≤ s.width then .ok ({ s with source := [] }, some (.done s.source))
  else if s.left < s.mid ∧ s.right < s.stop then do
    let a ← item s.source s.left
    let b ← item s.source s.right
    .ok ({ s with comparing := true }, some (.call a b))
  else do
    -- One run is used up: the rest of the other follows as it is.
    let lefts ← slice s.source s.left s.mid
    let rights ← slice s.source s.right s.stop
    let into := s.into ++ lefts ++ rights
    if s.stop < n then .ok (startMerge { s with into } s.stop, none)
    else .ok (startMerge { s with source := into, into := [], width := s.width * 2 } 0, none)

def loop : ℕ → SortWith α → Except Fault (SortWith α × Step α)
  | 0, _ => .error .unfinished
  | rounds + 1, s => do
    match ← s.round with
    | (s', some step) => .ok (s', step)
    | (s', none) => loop rounds s'

/-- Go on with the answer.  Three rounds of the loop are enough: the merge that ends, one more run
without a partner, and the first merge of the next pass. -/
def resume (s : SortWith α) (input : Input) : Except Fault (SortWith α × Step α) := do
  loop 3 (← s.answered input)

/-- The machine runs the sort: it calls the comparison where the sort asks for it, for the
`count`-th time, and goes on with what that returned. -/
def drive (ask : ℕ → α → α → Input) : ℕ → ℕ → SortWith α → Input → Except Fault (List α)
  | 0, _, _, _ => .error .unfinished
  | fuel + 1, count, s, input => do
    match ← s.resume input with
    | (_, .done out) => .ok out
    | (s', .call a b) => drive ask fuel (count + 1) s' (ask count a b)

end SortWith

/-- `list.sort_with` with the answers of the comparison. -/
def sortWith (ask : ℕ → α → α → SortWith.Input) (items : List α) (fuel : ℕ) :
    Except SortWith.Fault (List α) :=
  SortWith.drive ask fuel 0 (.new items) (.other "()")

namespace SortWith

variable {xs : List α} {lo hi : ℕ} {a b : α}

/-! ### The merge under way -/

/-- What is left of the left run. -/
def lefts (s : SortWith α) : List α := between s.source s.left s.mid

/-- What is left of the right run. -/
def rights (s : SortWith α) : List α := between s.source s.right s.stop

/-- What the pass has not come to. -/
def rest (s : SortWith α) : List α := s.source.drop s.stop

/-- The answers are those of an order: the right one goes first only where it is less. -/
def AnswersBy (ask : ℕ → α → α → Input) (le : α → α → Bool) : Prop :=
  ∀ count a b, ∃ order, ask count a b = .int order ∧ (0 < order ↔ le a b = false)

/-- What holds of a sort under way: the places are in bounds, the elements are all there, and under
an order the pass and all passes come to what the merges of runs come to. -/
structure Merging (ask : ℕ → α → α → Input) (items : List α) (s : SortWith α) : Prop where
  width_pos : 0 < s.width
  left_le : s.left ≤ s.mid
  mid_le : s.mid ≤ s.right
  right_le : s.right ≤ s.stop
  stop_le : s.stop ≤ s.source.length
  perm : (s.into ++ (s.lefts ++ s.rights ++ s.rest)).Perm s.source
  source_perm : s.source.Perm items
  pass : ∀ le, AnswersBy ask le →
    s.into ++ (s.lefts.merge s.rights le ++ mergePass le s.width s.rest) =
      mergePass le s.width s.source
  passes : ∀ le, AnswersBy ask le → mergeFrom le s.width s.source = mergeFrom le 1 items

/-- A comparison of the next elements of the two runs is running. -/
structure Waiting (s : SortWith α) (a b : α) : Prop where
  comparing : s.comparing = true
  left_lt : s.left < s.mid
  right_lt : s.right < s.stop
  left : s.source[s.left]? = some a
  right : s.source[s.right]? = some b

/-- A bound on the comparisons to come. -/
def cost (s : SortWith α) : ℕ :=
  (s.source.length - s.width) * s.source.length + (s.source.length - s.into.length)

theorem between_eq_cons {x : α} (h : lo < hi) (hx : xs[lo]? = some x) :
    between xs lo hi = x :: between xs (lo + 1) hi := by
  have hd : xs.drop lo = x :: xs.drop (lo + 1) := by
    obtain ⟨hlt, rfl⟩ := List.getElem?_eq_some_iff.mp hx
    exact List.drop_eq_getElem_cons hlt
  have hs : hi - lo = (hi - (lo + 1)) + 1 := by omega
  rw [between, hd, hs, take_succ_cons, between]

theorem between_of_le (h : hi ≤ lo) : between xs lo hi = [] := by
  rw [between, Nat.sub_eq_zero_of_le h, take_zero]

theorem length_between (h : hi ≤ xs.length) : (between xs lo hi).length = hi - lo := by
  rw [between, length_take, length_drop]
  omega

section StartMerge

variable (s : SortWith α) (start : ℕ)

theorem lefts_startMerge : (s.startMerge start).lefts = run s.width start s.source := by
  rw [lefts, startMerge, between, run, take_eq_take_iff, length_drop]
  dsimp only
  omega

theorem rights_startMerge :
    (s.startMerge start).rights = run s.width (start + s.width) s.source := by
  rw [rights, startMerge, between, run]
  dsimp only
  rcases Nat.le_total (start + s.width) s.source.length with h | h
  · rw [Nat.min_eq_left h, take_eq_take_iff, length_drop]
    omega
  simp_all

theorem rest_startMerge : (s.startMerge start).rest = s.source.drop (start + 2 * s.width) := by
  rw [rest, startMerge]
  simp_all

end StartMerge

variable {ask : ℕ → α → α → Input} {items : List α} {s : SortWith α}

theorem merging_startMerge {start : ℕ} (hw : 0 < s.width) (hs : start ≤ s.source.length)
    (hpr : (s.into ++ s.source.drop start).Perm s.source) (hit : s.source.Perm items)
    (hps : ∀ le, AnswersBy ask le →
      s.into ++ mergePass le s.width (s.source.drop start) = mergePass le s.width s.source)
    (hp : ∀ le, AnswersBy ask le → mergeFrom le s.width s.source = mergeFrom le 1 items) :
    Merging ask items (s.startMerge start) where
  width_pos := hw
  left_le := Nat.le_min.mpr ⟨Nat.le_add_right _ _, hs⟩
  mid_le := Nat.le_refl _
  right_le := by
    dsimp only [startMerge]
    omega
  stop_le := Nat.min_le_right _ _
  perm := by
    have hr := run_append_run s.width (s.source.drop start)
    rw [run_drop, run_drop, drop_drop, Nat.add_zero] at hr
    rw [lefts_startMerge, rights_startMerge, rest_startMerge, hr]
    exact hpr
  source_perm := hit
  pass le hle := by
    have hm : mergePass le s.width (s.source.drop start) = _ := mergePass_eq hw _
    rw [run_drop, run_drop, drop_drop, Nat.add_zero] at hm
    rw [lefts_startMerge, rights_startMerge, rest_startMerge]
    exact hm ▸ hps le hle
  passes := hp

theorem merging_new (items : List α) : Merging ask items (new items) :=
  merging_startMerge Nat.one_pos (Nat.zero_le _) (List.Perm.refl _) (List.Perm.refl _)
    (fun _ _ => rfl) fun _ _ => rfl

section

variable (h : Merging ask items s)

include h

theorem Merging.length_lefts : s.lefts.length = s.mid - s.left :=
  length_between (h.mid_le.trans (h.right_le.trans h.stop_le))

theorem Merging.length_rights : s.rights.length = s.stop - s.right := length_between h.stop_le

theorem Merging.length_eq :
    s.into.length + (s.lefts.length + s.rights.length + s.rest.length) = s.source.length := by
  rw [← h.perm.length_eq, length_append, length_append, length_append]

theorem Merging.cost_pos (hs : Waiting s a b) : 0 < s.cost := by
  have hln := h.length_eq
  rw [h.length_lefts] at hln
  have hl := hs.left_lt
  rw [cost]
  omega

end

/-! ### An answer -/

theorem item_eq {place : ℕ} {x : α} (h : xs[place]? = some x) : item xs place = .ok x := by
  rw [item, h]

theorem answered_spec (h : Merging ask items s) (hs : Waiting s a b) {order : Int64}
    (hle : ∀ le, AnswersBy ask le → (0 < order ↔ le a b = false)) :
    ∃ s', s.answered (.int order) = .ok s' ∧ Merging ask items s' ∧ s'.cost < s.cost := by
  have hl : s.lefts = a :: between s.source (s.left + 1) s.mid := between_eq_cons hs.left_lt hs.left
  have hr : s.rights = b :: between s.source (s.right + 1) s.stop :=
    between_eq_cons hs.right_lt hs.right
  have hln := h.length_eq
  rw [h.length_lefts, h.length_rights] at hln
  have hrg := hs.right_lt
  by_cases ho : 0 < order
  case pos =>
    refine ⟨{ s with comparing := false, into := s.into ++ [b], right := s.right + 1 }, ?_, ?_, ?_⟩
    · rw [answered, if_pos hs.comparing]
      simp only [if_pos ho, item_eq hs.right]
      rfl
    · refine ⟨h.width_pos, h.left_le, h.mid_le.trans (Nat.le_succ _), hs.right_lt, h.stop_le, ?_,
        h.source_perm, ?_, h.passes⟩
      · refine List.Perm.trans ?_ h.perm
        rw [hr]
        rw [append_assoc]
        apply List.Perm.append_left
        simp only [append_assoc, cons_append, nil_append]
        exact perm_middle.symm
      · intro le hby
        have hp := h.pass le hby
        rw [hl, hr, cons_merge_cons, (hle le hby).mp ho] at hp
        rw [← hp, ← hl]
        simp [lefts, rights, rest]
    · dsimp only [cost]
      rw [length_append, length_singleton]
      omega
  case neg =>
    refine ⟨{ s with comparing := false, into := s.into ++ [a], left := s.left + 1 }, ?_, ?_, ?_⟩
    · rw [answered, if_pos hs.comparing]
      simp only [if_neg ho, item_eq hs.left]
      rfl
    · refine ⟨h.width_pos, hs.left_lt, h.mid_le, h.right_le, h.stop_le, ?_, h.source_perm, ?_,
        h.passes⟩
      · refine List.Perm.trans ?_ h.perm
        rw [hl]
        dsimp only [lefts, rights, rest]
        simp
      · intro le hby
        have hle : le a b = true := by simpa using mt (hle le hby).mpr ho
        have hp := h.pass le hby
        rw [hl, hr, cons_merge_cons, if_pos hle] at hp
        rw [← hp, ← hr]
        simp [lefts, rights, rest]
    · dsimp only [cost]
      rw [length_append, length_singleton]
      omega

/-! ### The loop -/

/-- How many rounds the loop takes at most. -/
def rounds (s : SortWith α) : ℕ :=
  if s.source.length ≤ s.width ∨ (s.left < s.mid ∧ s.right < s.stop) then 1
  else if s.source.length ≤ s.stop then 2
  else 3

theorem rounds_eq_one
    (h : s.source.length ≤ s.width ∨ (s.left < s.mid ∧ s.right < s.stop)) : s.rounds = 1 :=
  if_pos h

theorem rounds_le_two (h : s.source.length ≤ s.stop) : s.rounds ≤ 2 := by
  rw [rounds]
  split <;> omega

theorem rounds_pos (s : SortWith α) : 0 < s.rounds := by
  rw [rounds]
  split
  · omega
  · split <;> omega

theorem rounds_le (s : SortWith α) : s.rounds ≤ 3 := by
  rw [rounds]
  split
  · omega
  · split <;> omega

/-- What a step of the machine may be: the result, or the next comparison. -/
inductive Steps (ask : ℕ → α → α → Input) (items : List α) (bound : ℕ) :
    SortWith α × Step α → Prop
  | done {s : SortWith α} {out : List α} (perm : out.Perm items)
      (eq : ∀ le, AnswersBy ask le → out = mergeFrom le 1 items) :
        Steps ask items bound (s, .done out)
  | call {s : SortWith α} {a b : α} (merging : Merging ask items s) (waiting : Waiting s a b)
      (cost_le : s.cost ≤ bound) : Steps ask items bound (s, .call a b)

/-- What one round comes to. -/
inductive Rounds (ask : ℕ → α → α → Input) (items : List α) (s : SortWith α) :
    SortWith α × Option (Step α) → Prop
  | left {s' : SortWith α} {step : Step α} (steps : Steps ask items s.cost (s', step)) :
      Rounds ask items s (s', some step)
  | again {s' : SortWith α} (merging : Merging ask items s') (cost_le : s'.cost ≤ s.cost)
      (rounds_lt : s'.rounds < s.rounds) : Rounds ask items s (s', none)

theorem slice_eq (h : lo ≤ hi) (h' : hi ≤ xs.length) : slice xs lo hi = .ok (between xs lo hi) :=
  if_pos ⟨h, h'⟩

theorem merge_eq_append (he : ¬(s.left < s.mid ∧ s.right < s.stop)) (le : α → α → Bool) :
    s.lefts.merge s.rights le = s.lefts ++ s.rights := by
  rcases not_and_or.mp he with hl | hr
  · have : s.lefts = [] := between_of_le (by omega)
    rw [this, nil_merge, nil_append]
  · have : s.rights = [] := between_of_le (by omega)
    rw [this, merge_right, append_nil]

theorem Merging.next (h : Merging ask items s) (hw : ¬s.source.length ≤ s.width)
    (he : ¬(s.left < s.mid ∧ s.right < s.stop)) (hs : s.stop < s.source.length) :
    Rounds ask items s
      (startMerge { s with into := s.into ++ s.lefts ++ s.rights } s.stop, none) := by
  refine .again ?_ ?_ ?_
  · refine merging_startMerge ?_ h.stop_le ?_ h.source_perm ?_ h.passes
    · exact h.width_pos
    · simpa [rest] using h.perm
    · intro le hby
      rw [← h.pass le hby, merge_eq_append he]
      simp [rest]
  · dsimp only [cost, startMerge]
    rw [length_append, length_append]
    omega
  · have hp := h.width_pos
    have hr : s.rounds = 3 := by
      rw [rounds, if_neg (not_or.mpr ⟨hw, he⟩), if_neg (Nat.not_le.mpr hs)]
    rw [hr]
    by_cases hrg : s.stop + s.width < s.source.length
    · rw [rounds_eq_one (.inr ?_)]
      · omega
      · dsimp only [startMerge]
        omega
    · refine Nat.lt_succ_of_le (rounds_le_two ?_)
      dsimp only [startMerge]
      omega

theorem Merging.nextPass (h : Merging ask items s) (hw : ¬s.source.length ≤ s.width)
    (he : ¬(s.left < s.mid ∧ s.right < s.stop)) (hs : ¬s.stop < s.source.length) :
    Rounds ask items s
      (startMerge { s with
        source := s.into ++ s.lefts ++ s.rights, into := [], width := s.width * 2 } 0, none) := by
  have hpo := h.width_pos
  have hrs : s.rest = [] := drop_eq_nil_of_le (Nat.not_lt.mp hs)
  have hp : (s.into ++ s.lefts ++ s.rights).Perm s.source := by
    simpa [hrs] using h.perm
  have hl := hp.length_eq
  refine .again ?_ ?_ ?_
  · apply merging_startMerge (Nat.mul_pos hpo Nat.two_pos) (Nat.zero_le _) (List.Perm.refl _)
      (hp.trans h.source_perm) (fun _ _ => rfl)
    intro le hby
    have hps := h.pass le hby
    rw [merge_eq_append he, hrs, mergePass_nil, append_nil, ← append_assoc] at hps
    rw [hps, Nat.mul_comm, ← mergeFrom_of_lt hpo (Nat.not_le.mp hw)]
    exact h.passes le hby
  · dsimp only [cost, startMerge]
    rw [hl, length_nil, Nat.sub_zero, ← Nat.succ_mul]
    refine le_trans (Nat.mul_le_mul_right _ ?_) (Nat.le_add_right _ _)
    omega
  · have hr : s.rounds = 2 := by
      rw [rounds, if_neg (not_or.mpr ⟨hw, he⟩), if_pos (Nat.not_lt.mp hs)]
    rw [hr, rounds_eq_one ?_]
    · omega
    · dsimp only [startMerge]
      omega

theorem round_spec (h : Merging ask items s) :
    ∃ next, s.round = .ok next ∧ Rounds ask items s next := by
  by_cases hw : s.source.length ≤ s.width
  case pos =>
    refine ⟨_, if_pos hw, .left (.done h.source_perm fun le hby => ?_)⟩
    rw [← h.passes le hby, mergeFrom_of_le hw]
  case neg =>
    have hle := h.stop_le
    have hm := h.mid_le
    have hr := h.right_le
    by_cases he : s.left < s.mid ∧ s.right < s.stop
    case pos =>
      obtain ⟨a, ha⟩ : ∃ a, s.source[s.left]? = some a := ⟨_, getElem?_eq_getElem (by omega)⟩
      obtain ⟨b, hb⟩ : ∃ b, s.source[s.right]? = some b := ⟨_, getElem?_eq_getElem (by omega)⟩
      refine ⟨({ s with comparing := true }, some (.call a b)), ?_, .left (.call ?_ ?_ ?_)⟩
      · rw [round, if_neg hw, if_pos he, item_eq ha, item_eq hb]
        rfl
      · exact ⟨h.width_pos, h.left_le, hm, hr, hle, h.perm, h.source_perm, h.pass, h.passes⟩
      · exact ⟨rfl, he.1, he.2, ha, hb⟩
      · exact Nat.le_refl _
    case neg =>
      by_cases hs : s.stop < s.source.length
      case pos =>
        refine ⟨_, ?_, h.next hw he hs⟩
        rw [round, if_neg hw, if_neg he, slice_eq h.left_le (by omega), slice_eq hr hle]
        exact if_pos hs
      case neg =>
        refine ⟨_, ?_, h.nextPass hw he hs⟩
        rw [round, if_neg hw, if_neg he, slice_eq h.left_le (by omega), slice_eq hr hle]
        exact if_neg hs

theorem loop_spec {count : ℕ} (h : Merging ask items s) (hc : s.rounds ≤ count) :
    ∃ next, loop count s = .ok next ∧ Steps ask items s.cost next := by
  induction count generalizing s with
  | zero => exact absurd s.rounds_pos (Nat.not_lt.mpr hc)
  | succ count ih =>
    obtain ⟨next, heq, hn⟩ := round_spec h
    cases hn with
    | left steps =>
      refine ⟨_, ?_, steps⟩
      rw [loop, heq]
      rfl
    | @again s' m cost_le rounds_lt =>
      obtain ⟨next, hl, hs⟩ := ih m (by omega)
      refine ⟨next, ?_, ?_⟩
      · rw [loop, heq]
        exact hl
      · cases hs with
        | done perm eq => exact .done perm eq
        | call m waiting cost_le' => exact .call m waiting (cost_le'.trans cost_le)

/-! ### The whole run -/

/-- How a run ends. -/
inductive Ends (ask : ℕ → α → α → Input) (items : List α) : Except Fault (List α) → Prop
  | sorted {out : List α} (perm : out.Perm items)
      (eq : ∀ le, AnswersBy ask le → out = mergeFrom le 1 items) : Ends ask items (.ok out)
  | failed {count : ℕ} {a b : α} {shown : String} (answer : ask count a b = .other shown) :
      Ends ask items (.error
        (.message s!"list.sort_with: the comparison returned {shown}, not an Int"))

theorem drive_of_waiting {fuel count : ℕ} (h : Merging ask items s) (hs : Waiting s a b)
    (hf : s.cost ≤ fuel) : Ends ask items (drive ask fuel (count + 1) s (ask count a b)) := by
  induction fuel generalizing s a b count with
  | zero => exact absurd (h.cost_pos hs) (Nat.not_lt.mpr hf)
  | succ fuel ih =>
    cases has : ask count a b with
    | other shown =>
      rw [drive, resume, answered, if_pos hs.comparing]
      exact .failed has
    | int order =>
      have hby (le : α → α → Bool) (hle : AnswersBy ask le) : 0 < order ↔ le a b = false := by
        obtain ⟨order', heq, hif⟩ := hle count a b
        rw [has] at heq
        cases heq
        exact hif
      obtain ⟨s', ha, hm, hc⟩ := answered_spec h hs hby
      obtain ⟨next, hl, hst⟩ := loop_spec hm s'.rounds_le
      have hr : s.resume (.int order) = .ok next := by
        rw [resume, ha]
        exact hl
      rw [drive, hr]
      cases hst with
      | done perm eq => exact .sorted perm eq
      | call m waiting cost_le => exact ih m waiting (by omega)

theorem sortWith_ends (ask : ℕ → α → α → Input) (items : List α) (more : ℕ) :
    Ends ask items (sortWith ask items (items.length * items.length + 1 + more)) := by
  obtain ⟨next, hl, hs⟩ := loop_spec (@merging_new α ask items) (rounds_le _)
  have hr : (new items).resume (.other "()") = .ok next := hl
  have hf : items.length * items.length + 1 + more =
      (items.length * items.length + more) + 1 := by omega
  rw [sortWith, hf, drive, hr]
  cases hs with
  | done perm eq => exact .sorted perm eq
  | call m waiting cost_le =>
    refine drive_of_waiting m waiting (cost_le.trans ?_)
    have hc : (new items).cost = (items.length - 1) * items.length + items.length := rfl
    rw [hc, ← Nat.succ_mul]
    grind

end SortWith

/-- `list.sort_with` ends, whatever the comparison answers, with the elements of the list, or with
the error of an answer that is not an `Int`.  If the answers are those of a total preorder, the
result is in its order, and elements that compare equal are in the order they had. -/
theorem sort_with_sound (ask : ℕ → α → α → SortWith.Input) (items : List α) (more : ℕ) :
    let result := sortWith ask items (items.length * items.length + 1 + more)
    ((∃ out, result = .ok out ∧ out.Perm items) ∨
      ∃ count a b shown, ask count a b = .other shown ∧ result = .error (.message
        s!"list.sort_with: the comparison returned {shown}, not an Int")) ∧
    ∀ le, TotalPreorder le → SortWith.AnswersBy ask le →
      ∃ out, result = .ok out ∧ out.Perm items ∧ out.Pairwise (fun a b => le a b = true) ∧
        ∀ a, out.filter (fun b => le a b && le b a) = items.filter fun b => le a b && le b a := by
  intro result
  have he : SortWith.Ends ask items result := SortWith.sortWith_ends ask items more
  generalize result = result at he ⊢
  refine ⟨?_, ?_⟩
  · cases he with
    | sorted perm eq => exact .inl ⟨_, rfl, perm⟩
    | failed answer => exact .inr ⟨_, _, _, _, answer, rfl⟩
  · intro le hle hby
    cases he with
    | sorted perm eq =>
      refine ⟨_, rfl, perm, ?_⟩
      rw [eq le hby]
      exact mergeFrom_spec hle Nat.one_pos (sorted_one items)
    | failed answer =>
      obtain ⟨order, heq, -⟩ := hby _ _ _
      rw [answer] at heq
      cases heq

end Silt.Collections

import Mathlib.Algebra.Group.Int.Defs
import Mathlib.Data.List.Sort
import Silt.Lib.Elementwise

/-!
# Integer ranges

The search for a value that no pattern matches splits a column of integer patterns by their ranges.
This file has the parts of `typechecker/exhaustiveness.rs` that look at the ranges alone: the first
integer outside of them, the one to show in a message, and the intervals that no range divides.

## Main results

* `Silt.Typechecker.firstGap_spec`: the integers before the first gap are in a range, and it is in
  none.
* `Silt.Typechecker.outside_spec`: the integer to show is in no range.
* `Silt.Typechecker.exists_interval`, `Silt.Typechecker.interval_spec`: the intervals between the
  cuts.
-/

namespace Silt.Typechecker

open List

variable {l : List Int}

/-- A range of integers, its first and its last. -/
abbrev Range := Int × Int

variable {ranges : List Range}

/-- The order in which ranges are sorted. -/
def Range.le (a b : Range) : Prop := a.1 < b.1 ∨ a.1 = b.1 ∧ a.2 ≤ b.2

instance : DecidableRel Range.le := fun _ _ => inferInstanceAs (Decidable (_ ∨ _))

/-- The integer is in the range. -/
def Range.Has (range : Range) (n : Int) : Prop := range.1 ≤ n ∧ n ≤ range.2

/-- The range holds the whole interval. -/
def Range.holds (range interval : Range) : Bool :=
  range.1 ≤ interval.1 && interval.2 ≤ range.2

/-- Sort the ranges. -/
def sortRanges (ranges : List Range) : List Range := ranges.insertionSort Range.le

/-- The first integer from `next` on that is not known to be in one of the sorted ranges. -/
def firstGap (next : Int) : List Range → Int
  | [] => next
  | (lo, hi) :: ranges => if lo > next then next else firstGap (max next (hi + 1)) ranges

/-- The first integer from `up` on in none of the ranges, sorted upwards. -/
def firstUp (up : Int) : List Range → Int
  | [] => up
  | (lo, hi) :: ranges => firstUp (if lo ≤ up ∧ up ≤ hi then hi + 1 else up) ranges

/-- The first integer from `down` on in none of the ranges, sorted downwards. -/
def firstDown (down : Int) : List Range → Int
  | [] => down
  | (lo, hi) :: ranges => firstDown (if lo ≤ down ∧ down ≤ hi then lo - 1 else down) ranges

/-- An integer in none of the sorted ranges: the one nearest to zero, a positive one before a
negative one. -/
def outside (ranges : List Range) : Int64 :=
  let up := firstUp 0 ranges
  if up ≤ Int64.maxValue.toInt then .ofInt up else .ofInt (firstDown (-1) ranges.reverse)

/-- Leave out what repeats the element before it. -/
def dedup : List Int → List Int
  | [] => []
  | [a] => [a]
  | a :: b :: rest => if a = b then dedup (b :: rest) else a :: dedup (b :: rest)

/-- The places where a range begins or has just ended, in order. -/
def cuts (ranges : List Range) : List Int :=
  dedup ((ranges.flatMap fun range => [range.1, range.2 + 1]).insertionSort (· ≤ ·))

/-- The intervals between the cuts. -/
def intervals (ranges : List Range) : List Range :=
  ((cuts ranges).zip (cuts ranges).tail).map fun window => (window.1, window.2 - 1)

/-! ### Sorted ranges -/

instance : Std.Total Range.le where
  total a b := by
    unfold Range.le
    omega

instance : IsTrans Range Range.le where
  trans a b c := by
    unfold Range.le
    omega

theorem mem_sortRanges {range : Range} : range ∈ sortRanges ranges ↔ range ∈ ranges :=
  (perm_insertionSort Range.le ranges).mem_iff

theorem pairwise_sortRanges (ranges : List Range) :
    (sortRanges ranges).Pairwise fun a b => a.1 ≤ b.1 := by
  refine (pairwise_insertionSort Range.le ranges).imp fun {a b} h => ?_
  unfold Range.le at h
  omega

/-- The integers from `next` to the first gap are in a range, and the gap is in none. -/
theorem firstGap_spec (hs : ranges.Pairwise fun a b => a.1 ≤ b.1) (next : Int) :
    next ≤ firstGap next ranges ∧ (∀ n, next ≤ n → n < firstGap next ranges → ∃ range ∈ ranges,
      range.Has n) ∧ ∀ range ∈ ranges, ¬range.Has (firstGap next ranges) := by
  induction ranges generalizing next with
  | nil =>
    refine ⟨le_rfl, fun n hle hlt => ?_, by simp⟩
    exact absurd hlt (Int.not_lt.mpr hle)
  | cons range ranges ih =>
    obtain ⟨lo, hi⟩ := range
    obtain ⟨hf, hs⟩ := pairwise_cons.mp hs
    rw [firstGap]
    split_ifs with hg
    · refine ⟨le_rfl, fun n hle hlt => absurd hlt (Int.not_lt.mpr hle), ?_⟩
      rintro range (_ | ⟨_, hm⟩) ⟨hlo, -⟩
      · exact absurd hlo (Int.not_le.mpr hg)
      · exact absurd (le_trans (hf range hm) hlo) (Int.not_le.mpr hg)
    · obtain ⟨hle, hin, ho⟩ := ih hs (max next (hi + 1))
      refine ⟨by omega, fun n hn hlt => ?_, ?_⟩
      · by_cases hhi : n ≤ hi
        · exact ⟨(lo, hi), by simp, by constructor <;> simp only <;> omega⟩
        grind
      · rintro range (_ | ⟨_, hm⟩) hh
        · have hh := hh.2
          omega
        · exact ho range hm hh

theorem firstUp_eq {up : Int} (h : ∀ range ∈ ranges, up < range.1) : firstUp up ranges = up := by
  induction ranges with
  | nil => rfl
  | cons range ranges ih =>
    obtain ⟨lo, hi⟩ := range
    have hlo : up < lo := h (lo, hi) (by simp)
    rw [firstUp, if_neg (by omega)]
    exact ih fun range hm => h range (mem_cons_of_mem _ hm)

/-- On sorted ranges the way up ends at the first gap. -/
theorem firstUp_eq_firstGap (hs : ranges.Pairwise fun a b => a.1 ≤ b.1) (up : Int) :
    firstUp up ranges = firstGap up ranges := by
  induction ranges generalizing up with
  | nil => rfl
  | cons range ranges ih =>
    obtain ⟨lo, hi⟩ := range
    obtain ⟨hf, hs⟩ := pairwise_cons.mp hs
    rw [firstUp, firstGap]
    split_ifs with hin hg hg
    · omega
    · rw [ih hs, max_eq_right (by omega)]
    · exact firstUp_eq fun range hm => lt_of_lt_of_le hg (hf range hm)
    · rw [ih hs, max_eq_left (by omega)]

theorem firstDown_le (ranges : List Range) (d : Int) : firstDown d ranges ≤ d := by
  induction ranges generalizing d with
  | nil => exact le_rfl
  | cons range ranges ih =>
    obtain ⟨lo, hi⟩ := range
    rw [firstDown]
    grind

/-- The way down either stays where it is, or passes the begin of a range. -/
theorem firstDown_eq_or_lt (ranges : List Range) (d : Int) :
    firstDown d ranges = d ∨ ∃ range ∈ ranges, firstDown d ranges < range.1 := by
  induction ranges generalizing d with
  | nil => exact .inl rfl
  | cons range ranges ih =>
    obtain ⟨lo, hi⟩ := range
    rw [firstDown]
    split_ifs with hin
    · have hle := firstDown_le ranges (lo - 1)
      exact .inr ⟨(lo, hi), by simp, by simp only; omega⟩
    grind

theorem firstDown_spec (hs : ranges.Pairwise fun a b => b.1 ≤ a.1) (d : Int) :
    (∀ n, n ≤ d → firstDown d ranges < n → ∃ range ∈ ranges, range.Has n) ∧
      ∀ range ∈ ranges, ¬range.Has (firstDown d ranges) := by
  induction ranges generalizing d with
  | nil => exact ⟨fun n hle hlt => absurd hlt (Int.not_lt.mpr hle), by simp⟩
  | cons range ranges ih =>
    obtain ⟨lo, hi⟩ := range
    obtain ⟨hf, hs⟩ := pairwise_cons.mp hs
    rw [firstDown]
    split_ifs with hin
    · obtain ⟨hc, ho⟩ := ih hs (lo - 1)
      refine ⟨fun n hn hlt => ?_, ?_⟩
      · by_cases hlo : lo ≤ n
        · exact ⟨(lo, hi), by simp, hlo, le_trans hn hin.2⟩
        grind
      · rintro range (_ | ⟨_, hm⟩) hh
        · have hlo : lo ≤ firstDown (lo - 1) ranges := hh.1
          have hle := firstDown_le ranges (lo - 1)
          omega
        · exact ho range hm hh
    · obtain ⟨hc, ho⟩ := ih hs d
      refine ⟨fun n hn hlt => ?_, ?_⟩
      · grind
      · rintro range (_ | ⟨_, hm⟩) ⟨hlo, hhi⟩
        · simp only at hlo hhi
          rcases firstDown_eq_or_lt ranges d with heq | ⟨range, hm, hlt⟩
          · omega
          · have hb : range.1 ≤ lo := hf range hm
            omega
        · exact ho range hm ⟨hlo, hhi⟩

/-- When the ranges leave an integer out, the one to show is in none of them. -/
theorem outside_spec (hs : ranges.Pairwise fun a b => a.1 ≤ b.1)
    (hg : ∃ n : Int64, ∀ range ∈ ranges, ¬range.Has n.toInt) :
    ∀ range ∈ ranges, ¬range.Has (outside ranges).toInt := by
  obtain ⟨gap, hg⟩ := hg
  obtain ⟨hup, hc, ho⟩ := firstGap_spec hs 0
  have hmn := gap.le_toInt
  have hmx := gap.toInt_lt
  have hl : Int64.maxValue.toInt = 2 ^ 63 - 1 := by decide
  rw [outside, firstUp_eq_firstGap hs]
  split_ifs with hle
  · rw [Int64.toInt_ofInt_of_le (by omega) (by omega)]
    exact ho
  · have hr : ranges.reverse.Pairwise fun a b => b.1 ≤ a.1 := pairwise_reverse.mpr hs
    obtain ⟨hb, hf⟩ := firstDown_spec hr (-1)
    have hd := firstDown_le ranges.reverse (-1)
    -- All integers from zero up are in a range, so the gap is below zero and not passed.
    have hng : gap.toInt < 0 := by
      grind
    have hrc : gap.toInt ≤ firstDown (-1) ranges.reverse := by
      grind
    rw [Int64.toInt_ofInt_of_le (by omega) (by omega)]
    exact fun range hm => hf range (mem_reverse.mpr hm)

/-! ### The intervals between the cuts -/

theorem mem_dedup {a : Int} : a ∈ dedup l ↔ a ∈ l := by
  fun_induction dedup l with
  | case1 | case2 => rfl
  | case3 a rest ih | case4 a b rest hne ih => simp [ih]

theorem pairwise_dedup (h : l.Pairwise (· ≤ ·)) : (dedup l).Pairwise (· < ·) := by
  fun_induction dedup l with
  | case1 => exact .nil
  | case2 => simp
  | case3 a rest ih => exact ih (pairwise_cons.mp h).2
  | case4 a b rest hne ih =>
    obtain ⟨hf, hr⟩ := pairwise_cons.mp h
    refine pairwise_cons.mpr ⟨fun c hc => ?_, ih hr⟩
    have hb : a ≤ b := hf b (by simp)
    rcases mem_cons.mp (mem_dedup.mp hc) with rfl | hc
    · omega
    · have hle : b ≤ c := (pairwise_cons.mp hr).1 c hc
      omega

theorem mem_cuts {cut : Int} :
    cut ∈ cuts ranges ↔ ∃ range ∈ ranges, cut = range.1 ∨ cut = range.2 + 1 := by
  rw [cuts, mem_dedup, (perm_insertionSort _ _).mem_iff, mem_flatMap]
  simp

theorem pairwise_cuts (ranges : List Range) : (cuts ranges).Pairwise (· < ·) :=
  pairwise_dedup (pairwise_insertionSort _ _)

/-- Between two elements of a list that ascends strictly and follow each other there is no other. -/
theorem window_spec (h : l.Pairwise (· < ·)) {w : Int × Int} (hw : w ∈ l.zip l.tail) :
    w.1 < w.2 ∧ ∀ c ∈ l, c ≤ w.1 ∨ w.2 ≤ c := by
  obtain ⟨pre, post, rfl⟩ := exists_of_mem_zip_tail hw
  obtain ⟨-, hr, hc⟩ := pairwise_append.mp h
  obtain ⟨hf, hr⟩ := pairwise_cons.mp hr
  refine ⟨hf _ mem_cons_self, fun c hm => ?_⟩
  simp only [mem_append, mem_cons] at hm
  rcases hm with hm | rfl | rfl | hm
  · exact .inl (le_of_lt (hc c hm _ mem_cons_self))
  · exact .inl le_rfl
  · exact .inr le_rfl
  · exact .inr (le_of_lt ((pairwise_cons.mp hr).1 c hm))

theorem exists_window {n first last : Int} (hf : first ∈ l) (hl : last ∈ l) (hle : first ≤ n)
    (hlt : n < last) (h : l.Pairwise (· < ·)) : ∃ w ∈ l.zip l.tail, w.1 ≤ n ∧ n < w.2 := by
  induction l generalizing first with
  | nil => simp at hf
  | cons a l ih =>
    obtain ⟨ha, hr⟩ := pairwise_cons.mp h
    have hal : a ≤ n := by
      grind
    have hl : last ∈ l := by
      rcases mem_cons.mp hl with rfl | hm
      · omega
      · exact hm
    cases l with
    | nil => simp at hl
    | cons b l =>
      by_cases hb : n < b
      · exact ⟨(a, b), by simp, hal, hb⟩
      grind

theorem exists_interval {n first last : Int} (hf : first ∈ cuts ranges) (hl : last ∈ cuts ranges)
    (hle : first ≤ n) (hlt : n < last) : ∃ iv ∈ intervals ranges, iv.Has n := by
  obtain ⟨w, hm, hlo, hhi⟩ := exists_window hf hl hle hlt (pairwise_cuts ranges)
  refine ⟨_, mem_map_of_mem hm, hlo, ?_⟩
  omega

theorem interval_spec {iv : Range} (h : iv ∈ intervals ranges) :
    iv.1 ≤ iv.2 ∧ ∀ range ∈ ranges, ∀ n, iv.Has n → (range.holds iv = true ↔ range.Has n) := by
  obtain ⟨w, hm, rfl⟩ := mem_map.mp h
  obtain ⟨hlt, hb⟩ := window_spec (pairwise_cuts ranges) hm
  refine ⟨by simp only; omega, fun range hr n ⟨hlo, hhi⟩ => ?_⟩
  have hbg := hb range.1 (mem_cuts.mpr ⟨range, hr, .inl rfl⟩)
  have he := hb (range.2 + 1) (mem_cuts.mpr ⟨range, hr, .inr rfl⟩)
  simp only [Range.holds, Range.Has, Bool.and_eq_true, decide_eq_true_eq] at hlo hhi ⊢
  omega

/-- An interval begins at a cut and ends before one. -/
theorem cuts_of_interval {iv : Range} (h : iv ∈ intervals ranges) :
    iv.1 ∈ cuts ranges ∧ iv.2 + 1 ∈ cuts ranges := by
  obtain ⟨w, hm, rfl⟩ := mem_map.mp h
  obtain ⟨hf, hl⟩ := of_mem_zip hm
  exact ⟨hf, by simpa using mem_of_mem_tail hl⟩

end Silt.Typechecker

import Mathlib.Data.List.Sort

/-!
# Sorting by merging runs

A list is read as runs of one width, the last perhaps shorter.  One pass merges the runs two by two
(`Runs.mergePass`), and the width doubles until one run is left (`Runs.mergeFrom`).  Of elements
that are equal in the order, those of the left run come first, so the order of equal elements stays
(`Runs.SameClasses`).

## Main results

* `Runs.Sorted.mergePass` : a pass makes sorted runs of twice the width.
* `Runs.mergeFrom_spec` : the result is sorted, and stable.
-/

namespace Silt.Runs

open List Bool

variable {α : Type*} {le : α → α → Bool} {width : ℕ} {xs ys : List α}

/-- An order in which any two elements compare. -/
structure TotalPreorder (le : α → α → Bool) : Prop where
  trans : ∀ a b c, le a b = true → le b c = true → le a c = true
  total : ∀ a b, (le a b || le b a) = true

/-- The run of a width that starts at a place. -/
def run (width start : ℕ) (xs : List α) : List α :=
  (xs.drop start).take width

/-- Every run is in order. -/
def Sorted (le : α → α → Bool) (width : ℕ) (xs : List α) : Prop :=
  ∀ i, (run width (i * width) xs).Pairwise fun a b => le a b = true

/-- The runs of the list merged two by two. -/
def mergePass (le : α → α → Bool) (width : ℕ) (xs : List α) : List α :=
  if _h : width = 0 ∨ xs = [] then xs
  else (run width 0 xs).merge (run width width xs) le ++ mergePass le width (xs.drop (2 * width))
termination_by xs.length
decreasing_by
  have := length_pos_of_ne_nil (not_or.mp _h).2
  have := (not_or.mp _h).1
  rw [length_drop]
  omega

/-- The elements of each class of equal ones are the same, in the same order. -/
def SameClasses (le : α → α → Bool) (xs ys : List α) : Prop :=
  ∀ a, xs.filter (fun b => le a b && le b a) = ys.filter fun b => le a b && le b a

/-! ### One pass -/

theorem mergePass_nil : mergePass le width ([] : List α) = [] := by
  rw [mergePass, dif_pos (.inr rfl)]

theorem mergePass_eq (h : 0 < width) (xs : List α) :
    mergePass le width xs =
      (run width 0 xs).merge (run width width xs) le ++
        mergePass le width (xs.drop (2 * width)) := by
  by_cases hn : xs = []
  · subst hn
    simp [mergePass_nil, run]
  · rw [mergePass, dif_neg (not_or.mpr ⟨Nat.ne_of_gt h, hn⟩)]

theorem run_append_run (width : ℕ) (xs : List α) :
    run width 0 xs ++ run width width xs ++ xs.drop (2 * width) = xs := by
  have hd : xs.drop (2 * width) = (xs.drop width).drop width := by
    rw [drop_drop, Nat.two_mul]
  rw [run, run, drop_zero, hd, append_assoc, take_append_drop, take_append_drop]

theorem length_run (width start : ℕ) (xs : List α) :
    (run width start xs).length = min width (xs.length - start) := by
  rw [run, length_take, length_drop]

/-- What is shown of the first runs and of the rest holds of the list. -/
theorem pass_induction {motive : List α → Prop} (h : 0 < width) (nil : motive [])
    (pass : ∀ xs, xs ≠ [] → motive (xs.drop (2 * width)) → motive xs) (xs : List α) :
    motive xs := by
  induction hn : xs.length using Nat.strong_induction_on generalizing xs with
  | h n ih =>
    by_cases hnl : xs = []
    · exact hnl ▸ nil
    · have hp := length_pos_of_ne_nil hnl
      exact pass xs hnl (ih _ (by rw [length_drop]; omega) _ rfl)

theorem mergePass_perm (h : 0 < width) (xs : List α) : (mergePass le width xs).Perm xs := by
  induction xs using pass_induction h with
  | nil => rw [mergePass_nil]
  | pass xs hn ih =>
    rw [mergePass_eq h]
    refine ((merge_perm_append le).append ih).trans ?_
    rw [run_append_run]

theorem length_mergePass (h : 0 < width) (xs : List α) :
    (mergePass le width xs).length = xs.length :=
  (mergePass_perm h xs).length_eq

/-- The first run of a pass is the first two runs merged, and the others are of the rest. -/
theorem take_drop_mergePass (h : 0 < width) (xs : List α) :
    (mergePass le width xs).take (2 * width) = (run width 0 xs).merge (run width width xs) le ∧
      (mergePass le width xs).drop (2 * width) = mergePass le width (xs.drop (2 * width)) := by
  have hl := length_merge le (run width 0 xs) (run width width xs)
  rw [length_run, length_run, Nat.sub_zero] at hl
  rw [mergePass_eq h]
  by_cases hle : 2 * width ≤ xs.length
  · have hf : ((run width 0 xs).merge (run width width xs) le).length = 2 * width := by omega
    exact ⟨take_left' hf, drop_left' hf⟩
  · have hr : xs.drop (2 * width) = [] := drop_eq_nil_of_le (by omega)
    rw [hr, mergePass_nil, append_nil]
    exact ⟨take_of_length_le (by omega), drop_eq_nil_of_le (by omega)⟩

theorem drop_mergePass (h : 0 < width) (i : ℕ) (xs : List α) :
    (mergePass le width xs).drop (i * (2 * width)) =
      mergePass le width (xs.drop (i * (2 * width))) := by
  induction i generalizing xs with
  | zero => rw [Nat.zero_mul, drop_zero, drop_zero]
  | succ i ih =>
    have hs : (i + 1) * (2 * width) = 2 * width + i * (2 * width) := by
      rw [Nat.succ_mul, Nat.add_comm]
    rw [hs, ← drop_drop, (take_drop_mergePass h xs).2, ih, drop_drop]

theorem run_drop (width start by' : ℕ) (xs : List α) :
    run width start (xs.drop by') = run width (by' + start) xs := by
  rw [run, run, drop_drop]

theorem Sorted.mergePass (hle : TotalPreorder le) (h : 0 < width) (hxs : Sorted le width xs) :
    Sorted le (2 * width) (mergePass le width xs) := by
  intro i
  rw [run, drop_mergePass h, (take_drop_mergePass h _).1, run_drop, run_drop]
  have hl : i * (2 * width) + 0 = (2 * i) * width := by
    rw [Nat.add_zero, Nat.mul_comm 2 i, Nat.mul_assoc]
  have hr : i * (2 * width) + width = (2 * i + 1) * width := by
    rw [Nat.add_mul, Nat.one_mul, Nat.mul_comm 2 i, Nat.mul_assoc]
  rw [hl, hr]
  exact pairwise_merge hle.trans hle.total _ _ (hxs _) (hxs _)

/-! ### The order of equal elements -/

theorem SameClasses.refl (le : α → α → Bool) (xs : List α) : SameClasses le xs xs := fun _ => rfl

theorem SameClasses.trans {zs : List α} (h : SameClasses le xs ys) (h' : SameClasses le ys zs) :
    SameClasses le xs zs :=
  fun a => (h a).trans (h' a)

theorem SameClasses.append {xs' ys' : List α} (h : SameClasses le xs ys)
    (h' : SameClasses le xs' ys') : SameClasses le (xs ++ xs') (ys ++ ys') := by
  intro a
  rw [filter_append, filter_append, h a, h' a]

/-- Elements of the right run go before those of the left one only where they are less. -/
theorem sameClasses_merge (hle : TotalPreorder le) (hxs : xs.Pairwise fun a b => le a b = true)
    (ys : List α) : SameClasses le (xs.merge ys le) (xs ++ ys) := by
  induction xs generalizing ys with
  | nil => rw [nil_merge, nil_append]; exact .refl _ _
  | cons x xs ihx =>
    induction ys with
    | nil => rw [merge_right, append_nil]; exact .refl _ _
    | cons y ys ihy =>
      intro a
      rw [cons_merge_cons]
      split
      case isTrue hxy =>
        have := ihx hxs.tail (y :: ys) a
        rw [filter_cons, this, cons_append, filter_cons]
      case isFalse hxy =>
        rw [filter_cons, ihy a]
        split
        case isFalse hya =>
          rw [filter_append, filter_append, filter_cons (x := y), if_neg hya]
        case isTrue hya =>
          -- An element of the left run of the same class would not be above `y`.
          have hn : (x :: xs).filter (fun b => le a b && le b a) = [] := by
            rw [filter_eq_nil_iff]
            intro b hb hba
            rw [and_eq_true] at hya hba
            have hby : le b y = true := hle.trans _ _ _ hba.2 hya.1
            rcases mem_cons.mp hb with rfl | hm
            · exact hxy hby
            · exact hxy (hle.trans _ _ _ (rel_of_pairwise_cons hxs hm) hby)
          grind

theorem Sorted.drop (hxs : Sorted le width xs) (i : ℕ) : Sorted le width (xs.drop (i * width)) := by
  intro j
  rw [run_drop, ← Nat.add_mul]
  exact hxs _

theorem sameClasses_mergePass (hle : TotalPreorder le) (h : 0 < width)
    (hxs : Sorted le width xs) : SameClasses le (mergePass le width xs) xs := by
  induction xs using pass_induction h with
  | nil => rw [mergePass_nil]; exact .refl _ _
  | pass xs hn ih =>
    have hf : (run width 0 xs).Pairwise fun a b => le a b = true := by
      simpa using hxs 0
    have hc := (sameClasses_merge hle hf (run width width xs)).append (ih (hxs.drop 2))
    rw [run_append_run] at hc
    rw [mergePass_eq h]
    exact hc

/-! ### All passes -/

/-- Passes over the list until it is one run. -/
def mergeFrom (le : α → α → Bool) (width : ℕ) (xs : List α) : List α :=
  if _h : width = 0 ∨ xs.length ≤ width then xs
  else mergeFrom le (2 * width) (mergePass le width xs)
termination_by xs.length - width
decreasing_by
  rw [length_mergePass (Nat.pos_of_ne_zero (not_or.mp _h).1)]
  omega

theorem mergeFrom_of_le (h : xs.length ≤ width) : mergeFrom le width xs = xs := by
  rw [mergeFrom, dif_pos (.inr h)]

theorem mergeFrom_of_lt (h : 0 < width) (hlt : width < xs.length) :
    mergeFrom le width xs = mergeFrom le (2 * width) (mergePass le width xs) := by
  rw [mergeFrom, dif_neg]
  omega

/-- The result of all passes is in order, and equal elements are in the order they had. -/
theorem mergeFrom_spec (hle : TotalPreorder le) (h : 0 < width) (hxs : Sorted le width xs) :
    (mergeFrom le width xs).Pairwise (fun a b => le a b = true) ∧
      SameClasses le (mergeFrom le width xs) xs := by
  fun_induction mergeFrom le width xs with
  | case1 width xs he =>
    have hl : xs.length ≤ width := he.resolve_left (Nat.ne_of_gt h)
    refine ⟨?_, .refl _ _⟩
    have hr : run width (0 * width) xs = xs := by
      rw [run, Nat.zero_mul, drop_zero, take_of_length_le hl]
    exact hr ▸ hxs 0
  | case2 width xs hm ih =>
    obtain ⟨hs, hc⟩ := ih (by omega) (hxs.mergePass hle h)
    exact ⟨hs, hc.trans (sameClasses_mergePass hle h hxs)⟩

theorem sorted_one (xs : List α) : Sorted le 1 xs := by
  intro i
  have hl : (run 1 (i * 1) xs).length ≤ 1 := by
    rw [length_run]
    exact Nat.min_le_left _ _
  match run 1 (i * 1) xs, hl with
  | [], _ => exact .nil
  | [a], _ => exact pairwise_singleton _ a

end Silt.Runs

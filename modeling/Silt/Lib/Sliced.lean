import Mathlib.Tactic.Common

/-!
# Runs cut into slices

A machine that takes one tick after another, and its run of a given number of ticks: it is paused
when the ticks are used up, or it has ended before, with some of them left.  A run of `a + b` ticks
is a run of `a` and then one of `b` (`run_add_of_paused`), so the end of a run does not depend on
where it was paused (`ended_unique`).
-/

namespace Silt.Sliced

variable {S R : Type} (tick : S → S ⊕ R)

/-- A run of a number of ticks: paused, or ended with some of the ticks left. -/
inductive Cut (S R : Type) where
  | paused (s : S)
  | ended (r : R) (left : Nat)

/-- The run of `n` ticks from `s`. -/
def run : Nat → S → Cut S R
  | 0, s => .paused s
  | n + 1, s =>
    match tick s with
    | .inl s' => run n s'
    | .inr r => .ended r n

variable {tick}

theorem run_succ_of_inl {n : Nat} {s s' : S} (h : tick s = .inl s') :
    run tick (n + 1) s = run tick n s' := by
  simp only [run, h]

theorem run_succ_of_inr {n : Nat} {s : S} {r : R} (h : tick s = .inr r) :
    run tick (n + 1) s = .ended r n := by
  simp only [run, h]

theorem run_add_of_paused {a b : Nat} {s s' : S} (h : run tick a s = .paused s') :
    run tick (a + b) s = run tick b s' := by
  induction a generalizing s with
  | zero =>
    obtain rfl : s = s' := by simpa only [run, Cut.paused.injEq] using h
    rw [Nat.zero_add]
  | succ a ih =>
    rw [Nat.succ_add]
    cases ht : tick s with
    | inl next =>
      rw [run_succ_of_inl ht] at h ⊢
      exact ih h
    | inr r =>
      rw [run_succ_of_inr ht] at h
      cases h

/-- A run that has ended has ended with more ticks too, and leaves those. -/
theorem run_add_of_ended {a b left : Nat} {s : S} {r : R} (h : run tick a s = .ended r left) :
    run tick (a + b) s = .ended r (left + b) := by
  induction a generalizing s with
  | zero => cases h
  | succ a ih =>
    rw [Nat.succ_add]
    cases ht : tick s with
    | inl next =>
      rw [run_succ_of_inl ht] at h ⊢
      exact ih h
    | inr r' =>
      rw [run_succ_of_inr ht] at h ⊢
      cases h
      rfl

/-- Two runs from one state that have ended have ended alike, after as many ticks. -/
theorem ended_unique {a b left left' : Nat} {s : S} {r r' : R} (ha : run tick a s = .ended r left)
    (hb : run tick b s = .ended r' left') : r = r' ∧ a + left' = b + left := by
  have hab := run_add_of_ended (b := b) ha
  rw [Nat.add_comm a b, run_add_of_ended (b := a) hb] at hab
  injection hab with hr hl
  exact ⟨hr.symm, by omega⟩

end Silt.Sliced

import Mathlib.Algebra.BigOperators.Group.List.Basic
import Mathlib.Tactic.Ring
import Silt.Collections.ListReads

/-!
# Totals of lists

The sum and the product of a list of Ints.  A list that holds its elements adds them up one by one
and stops at a sum that is no Int; a range has a formula.  The two agree where no more than ten
million Ints are added: a sum of consecutive Ints falls while they are negative and then rises, so
it is only far from both of its ends where it crosses zero, and there it is small.

## Main definitions

* `ListValue.sumInts`, `ListValue.productInts` : the totals.
* `sumFrom` : the sum of consecutive integers.

## Main results

* `ListValue.totals_spec` : the totals do not depend on how the list is kept.
-/

namespace Silt.Collections

open Element Sequence List

variable {α V : Type} [Element α] [Sequence V α]

/-- What the Ints of a list come to. -/
inductive IntTotal where
  | total (n : Int)
  | overflow
  | notInts
  deriving DecidableEq

/-- The number, if an `i64` holds it. -/
def checked (n : Int) : Option Int := if -2 ^ 63 ≤ n ∧ n < 2 ^ 63 then some n else none

/-- The number, if an `i128` holds it. -/
def checkedWide (n : Int) : Option Int := if -2 ^ 127 ≤ n ∧ n < 2 ^ 127 then some n else none

def IntTotal.of : Option Int → IntTotal
  | some n => .total n
  | none => .overflow

/-- The sum so far with the elements added to it one by one. -/
def sumHeld (sum : Int) : List α → IntTotal
  | [] => .total sum
  | item :: items =>
    match int? item with
    | none => .notInts
    | some n =>
      match checked (sum + n.toInt) with
      | none => .overflow
      | some next => sumHeld next items

/-- The product so far times the elements; `none` once it is no Int, until there is a 0. -/
def productHeld (product : Option Int) : List α → IntTotal
  | [] => .of product
  | item :: items =>
    match int? item with
    | none => .notInts
    | some n =>
      if n = 0 then .total 0 else productHeld (product.bind fun p => checked (p * n.toInt)) items

/-- The product so far times `count` integers from `n` on. -/
def productRange (product n : Int) : Nat → IntTotal
  | 0 => .total product
  | count + 1 =>
    match checked (product * n) with
    | none => .overflow
    | some next => productRange next (n + 1) count

namespace ListValue

/-- The sum of the elements of a list of Ints. -/
def sumInts (l : ListValue α V) : Option IntTotal :=
  match l with
  | .ints lo hi =>
    let count := hi.toInt - lo.toInt + 1
    let twice := checkedWide ((lo.toInt + hi.toInt) * count)
    some (.of (twice.bind fun twice => checked (twice.tdiv 2)))
  | l => do return sumHeld 0 (← l.runs).collect.flatten

/-- The product of the elements of a list of Ints. -/
def productInts (l : ListValue α V) : Option IntTotal :=
  match l with
  | .ints lo hi =>
    if lo.toInt ≤ 0 ∧ 0 ≤ hi.toInt then some (.total 0)
    else some (productRange 1 lo.toInt (absDiff hi lo + 1))
  | l => do return productHeld (some 1) (← l.runs).collect.flatten

end ListValue

/-! ### Sums -/

/-- The sum of `n` integers from `lo` on. -/
def sumFrom (lo : Int) : Nat → Int
  | 0 => 0
  | n + 1 => lo + sumFrom (lo + 1) n

theorem two_mul_sumFrom (lo : Int) (n : Nat) : 2 * sumFrom lo n = (2 * lo + n - 1) * n := by
  induction n generalizing lo with
  | zero => simp [sumFrom]
  | succ n ih =>
    rw [sumFrom, Int.mul_add, ih]
    push_cast
    ring

theorem sumFrom_nonneg {lo : Int} (h : 0 ≤ lo) (n : Nat) : 0 ≤ sumFrom lo n := by
  induction n generalizing lo with
  | zero => exact le_rfl
  | succ n ih => exact add_nonneg h (ih (by omega))

theorem sumFrom_nonpos {lo : Int} {n : Nat} (h : lo + n ≤ 1) : sumFrom lo n ≤ 0 := by
  induction n generalizing lo with
  | zero => exact le_rfl
  | succ n ih => exact add_nonpos (by omega) (ih (by omega))

theorem checked_eq {n : Int} (h : -2 ^ 63 ≤ n ∧ n < 2 ^ 63) : checked n = some n := if_pos h

variable {ns : List Int64} {a sum p : Int}

/-- The Ints are consecutive, from `a` on. -/
def Consecutive (a : Int) : List Int64 → Prop
  | [] => True
  | n :: ns => n.toInt = a ∧ Consecutive (a + 1) ns

/-- The sums on the way to a sum of consecutive Ints are Ints if it is one: the Ints have one sign,
or they are too few to matter. -/
theorem sumHeld_of_consecutive (hs : -2 ^ 63 ≤ sum ∧ sum < 2 ^ 63) (hns : Consecutive a ns)
    (h : a + ns.length ≤ 1 ∨ 0 ≤ a ∨ a ≤ 0 ∧ -2 ^ 63 ≤ sum + a * ns.length) :
    sumHeld sum (ns.map int : List α) = .of (checked (sum + sumFrom a ns.length)) := by
  induction ns generalizing sum a with
  | nil =>
    simp only [map_nil, length_nil, sumFrom, Int.add_zero, checked_eq hs]
    rfl
  | cons n ns ih =>
    obtain ⟨hn, hns⟩ := hns
    rw [length_cons] at *
    rw [map_cons, sumHeld, int?_int, sumFrom, ← Int.add_assoc]
    dsimp only
    rw [hn]
    have hmul : a * (ns.length + 1 : Nat) = a * ns.length + a ∧
        (a + 1) * ns.length = a * ns.length + ns.length := by
      constructor <;> push_cast <;> ring
    have hle (h : a ≤ 0) : a * ns.length ≤ 0 := Int.mul_nonpos_of_nonpos_of_nonneg h (by omega)
    have hup (h : 0 ≤ a) := sumFrom_nonneg (show 0 ≤ a + 1 by omega) ns.length
    have hdown := @sumFrom_nonpos (a + 1) ns.length
    by_cases hc : -2 ^ 63 ≤ sum + a ∧ sum + a < 2 ^ 63
    · rw [checked_eq hc]
      exact ih hc hns (by omega)
    · rw [checked, if_neg hc, checked, if_neg (by omega)]
      rfl

/-! ### Products -/

@[simp]
theorem productHeld_cons (n : Int64) (xs : List α) (product : Option Int) :
    productHeld product (int n :: xs) =
      if n = 0 then .total 0 else productHeld (product.bind fun p => checked (p * n.toInt)) xs := by
  rw [productHeld, int?_int]

theorem productHeld_of_zero (h : 0 ∈ ns) (p : Option Int) :
    productHeld p (ns.map int : List α) = .total 0 := by
  induction ns generalizing p with
  | nil => cases h
  | cons n ns ih =>
    rw [map_cons, productHeld_cons]
    grind

theorem productHeld_none (h : 0 ∉ ns) : productHeld none (ns.map int : List α) = .overflow := by
  induction ns with
  | nil => rfl
  | cons n ns ih =>
    simp only [mem_cons, not_or] at h
    simp [Ne.symm h.1, ih h.2]

/-- Where no Int is 0, the product is exact if the products on the way are Ints. -/
theorem productHeld_of_checked (h : 0 ∉ ns)
    (hp : ∀ k, -2 ^ 63 ≤ p * ((ns.take k).map Int64.toInt).prod ∧
      p * ((ns.take k).map Int64.toInt).prod < 2 ^ 63) :
    productHeld (some p) (ns.map int : List α) = .total (p * (ns.map Int64.toInt).prod) := by
  induction ns generalizing p with
  | nil => simp [productHeld, IntTotal.of]
  | cons n ns ih =>
    simp only [mem_cons, not_or] at h
    have hc : -2 ^ 63 ≤ p * n.toInt ∧ p * n.toInt < 2 ^ 63 := by simpa using hp 1
    rw [map_cons, productHeld_cons, if_neg (Ne.symm h.1), Option.bind_some, checked_eq hc,
      ih h.2 fun k => ?_, map_cons, prod_cons, Int.mul_assoc]
    simpa [Int.mul_assoc] using hp (k + 1)

theorem productHeld_of_consecutive (h : 0 ∉ ns) (hns : Consecutive a ns) :
    productHeld (some p) (ns.map int : List α) = productRange p a ns.length := by
  induction ns generalizing p a with
  | nil => rfl
  | cons n ns ih =>
    obtain ⟨rfl, hns⟩ := hns
    simp only [mem_cons, not_or] at h
    rw [map_cons, productHeld_cons, if_neg (Ne.symm h.1), Option.bind_some, length_cons,
      productRange]
    cases checked (p * n.toInt) with
    | none => exact productHeld_none h.2
    | some next => exact ih h.2 hns

namespace ListValue

variable {lo hi : Int64} {l : ListValue α V}

/-- The Ints of a range. -/
def between (lo hi : Int64) : List Int64 := (range (absDiff hi lo + 1)).map (nth lo)

theorem toSeq_ints : toSeq (.ints lo hi : ListValue α V) = (between lo hi).map int := by
  simp [toSeq, intsFrom, between]

theorem consecutive_range {f : Nat → Int64} {n : Nat} (h : ∀ i < n, (f i).toInt = a + i) :
    Consecutive a ((range n).map f) := by
  induction n generalizing a f with
  | zero => trivial
  | succ n ih =>
    rw [range_succ_eq_map, map_cons, map_map]
    refine ⟨by simpa using h 0 n.succ_pos, ih fun i hi => ?_⟩
    grind

theorem zero_mem_between (h : lo.toInt ≤ hi.toInt) :
    0 ∈ between lo hi ↔ lo.toInt ≤ 0 ∧ 0 ≤ hi.toInt := by
  simp only [between, mem_map, mem_range, ← Int64.toInt_inj, Int64.toInt_zero]
  constructor
  · rintro ⟨i, hlt, hz⟩
    rw [toInt_nth_of_lt h hlt] at hz
    rw [absDiff] at hlt
    omega
  · rintro ⟨hlo, hhi⟩
    have hlt : (-lo.toInt).toNat < absDiff hi lo + 1 := by
      rw [absDiff]
      omega
    exact ⟨_, hlt, by rw [toInt_nth_of_lt h hlt]; omega⟩

theorem productInts_eq (h : l.WF) : l.productInts = some (productHeld (some 1) l.toSeq) := by
  match l, h with
  | .items _ start n, h | .long _ start n, h =>
    obtain ⟨rs, hrs, hf⟩ := runs_of_held h rfl
    simp [productInts, hrs, hf]
  | .ints lo hi, h =>
    have hc := consecutive_range fun i => toInt_nth_of_lt h.1
    rw [productInts, toSeq_ints]
    simp only [← zero_mem_between h.1]
    split_ifs with hz
    · rw [productHeld_of_zero hz]
    · rw [productHeld_of_consecutive hz hc, between, length_map, length_range]

theorem sumInts_eq (h : l.WF) (hl : l.len ≤ maxCollectionLen) :
    l.sumInts = some (sumHeld 0 l.toSeq) := by
  match l, h with
  | .items _ start n, h | .long _ start n, h =>
    obtain ⟨rs, hrs, hf⟩ := runs_of_held h rfl
    simp [sumInts, hrs, hf]
  | .ints lo hi, h =>
    have hc : Consecutive _ (between lo hi) := consecutive_range fun i => toInt_nth_of_lt h.1
    have hlen : (between lo hi).length = absDiff hi lo + 1 := by simp [between]
    rw [len_eq h, toSeq_ints, length_map] at hl
    rw [sumInts, toSeq_ints]
    generalize between lo hi = ns at *
    have hle : (ns.length : Int) ≤ 10000000 := Int.ofNat_le.mpr hl
    have hcount : hi.toInt - lo.toInt + 1 = ns.length := by
      have := h.1
      rw [hlen, absDiff]
      omega
    have hn : (0 : Int) ≤ ns.length := by omega
    have hfew (h : -10000000 ≤ lo.toInt) := Int.mul_le_mul_of_nonneg_right h hn
    rw [sumHeld_of_consecutive (by decide) hc (by omega), hcount]
    have hends : lo.toInt + hi.toInt = 2 * lo.toInt + ns.length - 1 := by omega
    have hlow := Int.mul_le_mul_of_nonneg_right (show -2 ^ 64 ≤ lo.toInt + hi.toInt by
      have := lo.le_toInt
      have := hi.le_toInt
      omega) hn
    have hhigh := Int.mul_le_mul_of_nonneg_right (show lo.toInt + hi.toInt ≤ 2 ^ 64 by
      have := lo.toInt_lt
      have := hi.toInt_lt
      omega) hn
    rw [checkedWide, if_pos (by omega), Option.bind_some, hends, ← two_mul_sumFrom,
      Int.mul_tdiv_cancel_left _ two_ne_zero, Int.zero_add]

/-- The sum of a list of at most ten million elements and the product of a list are what a loop over
the elements makes.  So a range has the sum and the product of any list of the same elements; and of
every list of Ints the product is 0 if one of them is 0, and is exact if the products of the first
so many are Ints. -/
theorem totals_spec :
    (∀ l : ListValue α V, l.WF →
      (l.len ≤ maxCollectionLen → l.sumInts = some (sumHeld 0 l.toSeq)) ∧
        l.productInts = some (productHeld (some 1) l.toSeq)) ∧
    (∀ (lo hi : Int64) (l : ListValue α V), WF (.ints lo hi : ListValue α V) →
      len (.ints lo hi : ListValue α V) ≤ maxCollectionLen → l.WF →
      l.toSeq = toSeq (.ints lo hi : ListValue α V) →
      ∃ s p, sumInts (.ints lo hi : ListValue α V) = some s ∧ l.sumInts = some s ∧
        productInts (.ints lo hi : ListValue α V) = some p ∧ l.productInts = some p) ∧
    ∀ l : ListValue α V, l.WF → ∀ ns : List Int64, l.toSeq = ns.map int →
      (0 ∈ ns → l.productInts = some (.total 0)) ∧
      (0 ∉ ns → (∀ k, -2 ^ 63 ≤ ((ns.take k).map Int64.toInt).prod ∧
          ((ns.take k).map Int64.toInt).prod < 2 ^ 63) →
        l.productInts = some (.total (ns.map Int64.toInt).prod)) := by
  refine ⟨fun l h => ⟨sumInts_eq h, productInts_eq h⟩,
    fun lo hi l hr hlen h he => ⟨_, _, sumInts_eq hr hlen, ?_, productInts_eq hr, ?_⟩,
    fun l h ns he => ⟨fun hz => ?_, fun hz hk => ?_⟩⟩
  · rw [← he]
    exact sumInts_eq h (by rwa [len_eq h, he, ← len_eq hr])
  · rw [← he]
    exact productInts_eq h
  · rw [productInts_eq h, he, productHeld_of_zero hz]
  · rw [productInts_eq h, he, productHeld_of_checked hz (by simpa using hk), Int.one_mul]

end ListValue

end Silt.Collections

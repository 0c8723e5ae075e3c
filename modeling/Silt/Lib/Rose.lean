import Mathlib.Tactic.Common

/-!
# Trees in lexicographic order

Finite trees with a label at each node (`Rose`), ordered by their labels and then by their parts in
order, a tree with fewer parts before one that goes on (`Rose.cmp`).  It is a total order, and equal
trees are the same tree, if that holds of the labels.
-/

namespace Silt

open Std

/-- A label and the parts in order. -/
inductive Rose (H : Type) where
  | node (label : H) (parts : List (Rose H))

namespace Rose

variable {H : Type} [Ord H]

mutual

/-- The order of two trees: of their labels, then of their parts. -/
def cmp : Rose H → Rose H → Ordering
  | node a as, node b bs => (compare a b).then (cmpAll as bs)

/-- The order of two sequences of trees: that of the first two that differ, and the one that ends
first is the lesser. -/
def cmpAll : List (Rose H) → List (Rose H) → Ordering
  | [], [] => .eq
  | [], _ :: _ => .lt
  | _ :: _, [] => .gt
  | a :: as, b :: bs => (cmp a b).then (cmpAll as bs)

end

instance : Ord (Rose H) := ⟨cmp⟩

@[simp]
theorem cmp_node (a b : H) (as bs : List (Rose H)) :
    cmp (node a as) (node b bs) = (compare a b).then (cmpAll as bs) := by
  rw [cmp]

@[simp]
theorem cmpAll_cons (a b : Rose H) (as bs : List (Rose H)) :
    cmpAll (a :: as) (b :: bs) = (cmp a b).then (cmpAll as bs) := by
  rw [cmpAll]

@[simp]
theorem cmpAll_nil : cmpAll ([] : List (Rose H)) [] = .eq := by
  rw [cmpAll]

mutual

theorem cmp_swap [OrientedOrd H] : ∀ s t : Rose H, cmp s t = (cmp t s).swap
  | node a as, node b bs => by
    rw [cmp_node, cmp_node, Ordering.swap_then, ← cmpAll_swap as bs, ← OrientedCmp.eq_swap]

theorem cmpAll_swap [OrientedOrd H] : ∀ ss ts : List (Rose H), cmpAll ss ts = (cmpAll ts ss).swap
  | [], [] => by simp
  | [], _ :: _ | _ :: _, [] => by simp [cmpAll]
  | s :: ss, t :: ts => by
    rw [cmpAll_cons, cmpAll_cons, Ordering.swap_then, ← cmp_swap s t, ← cmpAll_swap ss ts]

end

mutual

theorem eq_of_cmp [LawfulEqOrd H] : ∀ s t : Rose H, cmp s t = .eq → s = t
  | node a as, node b bs, h => by
    rw [cmp_node, Ordering.then_eq_eq] at h
    rw [LawfulEqCmp.eq_of_compare h.1, eq_of_cmpAll as bs h.2]

theorem eq_of_cmpAll [LawfulEqOrd H] : ∀ ss ts : List (Rose H), cmpAll ss ts = .eq → ss = ts
  | [], [], _ => rfl
  | [], _ :: _, h | _ :: _, [], h => by simp [cmpAll] at h
  | s :: ss, t :: ts, h => by
    rw [cmpAll_cons, Ordering.then_eq_eq] at h
    rw [eq_of_cmp s t h.1, eq_of_cmpAll ss ts h.2]

end

mutual

theorem cmp_self [ReflOrd H] : ∀ s : Rose H, cmp s s = .eq
  | node a as => by
    have hs : compare a a = .eq := ReflCmp.compare_self
    rw [cmp_node, hs, cmpAll_self as]
    rfl

theorem cmpAll_self [ReflOrd H] : ∀ ss : List (Rose H), cmpAll ss ss = .eq
  | [] => cmpAll_nil
  | s :: ss => by
    rw [cmpAll_cons, cmp_self s, cmpAll_self ss]
    rfl

end

mutual

theorem cmp_lt_trans [TransOrd H] [LawfulEqOrd H] : ∀ s t u : Rose H,
    cmp s t = .lt → cmp t u = .lt → cmp s u = .lt
  | node a as, node b bs, node c cs, h, h' => by
    rw [cmp_node, Ordering.then_eq_lt] at h h' ⊢
    rcases h with h | ⟨h, hp⟩ <;> rcases h' with h' | ⟨h', hp'⟩
    · exact .inl (TransCmp.lt_trans h h')
    · exact .inl (LawfulEqCmp.eq_of_compare h' ▸ h)
    · exact .inl (LawfulEqCmp.eq_of_compare h ▸ h')
    · exact .inr ⟨TransCmp.eq_trans h h', cmpAll_lt_trans as bs cs hp hp'⟩

theorem cmpAll_lt_trans [TransOrd H] [LawfulEqOrd H] : ∀ ss ts us : List (Rose H),
    cmpAll ss ts = .lt → cmpAll ts us = .lt → cmpAll ss us = .lt
  | [], [], _, h, _ => by simp at h
  | _, _ :: _, [], _, h' => by simp [cmpAll] at h'
  | [], _ :: _, _ :: _, _, _ => by simp [cmpAll]
  | _ :: _, [], _, h, _ => by simp [cmpAll] at h
  | s :: ss, t :: ts, u :: us, h, h' => by
    rw [cmpAll_cons, Ordering.then_eq_lt] at h h' ⊢
    rcases h with h | ⟨h, hp⟩ <;> rcases h' with h' | ⟨h', hp'⟩
    · exact .inl (cmp_lt_trans s t u h h')
    · exact .inl (eq_of_cmp t u h' ▸ h)
    · exact .inl (eq_of_cmp s t h ▸ h')
    · exact .inr ⟨eq_of_cmp s t h ▸ h', cmpAll_lt_trans ss ts us hp hp'⟩

end

variable [TransOrd H] [LawfulEqOrd H]

instance : TransOrd (Rose H) where
  eq_swap {s t} := cmp_swap s t
  isLE_trans {s t u} h h' := by
    change (cmp s t).isLE at h
    change (cmp t u).isLE at h'
    change (cmp s u).isLE
    rw [Ordering.isLE_iff_eq_lt_or_eq_eq] at h h' ⊢
    rcases h with h | h <;> rcases h' with h' | h'
    · exact .inl (cmp_lt_trans s t u h h')
    · exact .inl (eq_of_cmp t u h' ▸ h)
    · exact .inl (eq_of_cmp s t h ▸ h')
    · exact .inr (eq_of_cmp s t h ▸ h')

instance : LawfulEqOrd (Rose H) where
  compare_self {s} := cmp_self s
  eq_of_compare {s t} h := eq_of_cmp s t h

end Rose

end Silt

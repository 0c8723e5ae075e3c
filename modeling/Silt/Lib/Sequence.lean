import Mathlib.Tactic.Common

/-!
# Persistent sequences

What a persistent sequence promises (`Sequence`): a type whose values stand for lists, with the
operations of a vector that is kept in leaves, each of them said in terms of the list.  A list in
one leaf is one (`OneLeaf`).
-/

namespace Silt

/-- A type of persistent sequences of `α`. -/
class Sequence (V : Type) (α : outParam Type) where
  toList : V → List α
  /-- The runs the elements are kept in. -/
  leaves : V → List (List α)
  flatten_leaves (v : V) : (leaves v).flatten = toList v
  leaves_ne_nil (v : V) : ∀ leaf ∈ leaves v, leaf ≠ []
  /-- Where the leaf of an index begins, and the leaf. -/
  chunkAt : V → Nat → Nat × List α
  chunkAt_spec (v : V) (i : Nat) : i < (toList v).length →
    (chunkAt v i).1 ≤ i ∧ i < (chunkAt v i).1 + (chunkAt v i).2.length ∧
      ((toList v).drop (chunkAt v i).1).take (chunkAt v i).2.length = (chunkAt v i).2
  collect : List α → V
  toList_collect (items : List α) : toList (collect items) = items
  pushFront : α → V → V
  toList_pushFront (a : α) (v : V) : toList (pushFront a v) = a :: toList v
  pushBack : V → α → V
  toList_pushBack (v : V) (a : α) : toList (pushBack v a) = toList v ++ [a]
  append : V → V → V
  toList_append (v w : V) : toList (append v w) = toList v ++ toList w
  skip : V → Nat → V
  toList_skip (v : V) (n : Nat) : n ≤ (toList v).length → toList (skip v n) = (toList v).drop n
  truncate : V → Nat → V
  toList_truncate (v : V) (n : Nat) : n ≤ (toList v).length →
    toList (truncate v n) = (toList v).take n
  set : V → Nat → α → V
  toList_set (v : V) (i : Nat) (a : α) : i < (toList v).length →
    toList (set v i a) = (toList v).set i a
  remove : V → Nat → V
  toList_remove (v : V) (i : Nat) : i < (toList v).length →
    toList (remove v i) = (toList v).eraseIdx i

namespace Sequence

attribute [simp] toList_collect toList_pushFront toList_pushBack toList_append

variable {V α : Type} [Sequence V α]

theorem toList_foldl_pushFront (items : List α) (v : V) :
    toList (items.foldl (fun v a => pushFront a v) v) = items.reverse ++ toList v := by
  induction items generalizing v with
  | nil => rfl
  | cons a items ih => simp [ih]

theorem toList_foldl_pushBack (items : List α) (v : V) :
    toList (items.foldl pushBack v) = toList v ++ items := by
  induction items generalizing v with
  | nil => simp
  | cons a items ih => simp [ih]

end Sequence

/-- A list, kept in one leaf. -/
structure OneLeaf (α : Type) where
  items : List α

instance (α : Type) : Sequence (OneLeaf α) α where
  toList v := v.items
  leaves v := if v.items.isEmpty then [] else [v.items]
  flatten_leaves v := by
    split_ifs with h
    · simpa using h
    · simp
  leaves_ne_nil v leaf h := by
    grind
  chunkAt v _ := (0, v.items)
  chunkAt_spec v i h := ⟨Nat.zero_le i, by simpa using h, by simp⟩
  collect items := ⟨items⟩
  toList_collect _ := rfl
  pushFront a v := ⟨a :: v.items⟩
  toList_pushFront _ _ := rfl
  pushBack v a := ⟨v.items ++ [a]⟩
  toList_pushBack _ _ := rfl
  append v w := ⟨v.items ++ w.items⟩
  toList_append _ _ := rfl
  skip v n := ⟨v.items.drop n⟩
  toList_skip _ _ _ := rfl
  truncate v n := ⟨v.items.take n⟩
  toList_truncate _ _ _ := rfl
  set v i a := ⟨v.items.set i a⟩
  toList_set _ _ _ _ := rfl
  remove v i := ⟨v.items.eraseIdx i⟩
  toList_remove _ _ _ := rfl

end Silt

import Silt.Lib.Rose
import Silt.Collections.Value

/-!
# Values as trees

What a value is to a comparison is a tree: a head, and the trees of what it is made of, a range of
Ints made of its Ints like any list.

## Main definitions

* `Value.head`, `Value.key` : the head of a value as numbers, and its tree.

## Main results

* `cmpHeads_eq` : the order of two heads is that of the numbers.
-/

namespace Silt.Collections

open Std

variable {declared : Nat → List Text}

variable {a b : Value declared}

/-! ### Heads as numbers -/

/-- What tells heads apart, the rank of the kind first. -/
abbrev Head := List (List Int)

/-- A text as numbers. -/
def textCode (s : Text) : List Int := s.map fun byte => (byte.toNat : Int)

namespace Value

/-- What tells the head from those of its kind. -/
def payload : Value declared → Head
  | .leaf .unit | .list _ | .tuple _ | .map _ | .set _ => []
  | .leaf (.bool b) => [[b.toNat]]
  | .leaf (.int n) => [[n.toInt]]
  | .leaf (.float bits) => [[totalOrder bits]]
  | .leaf (.string s) | .leaf (.bytes s) => [textCode s]
  | .leaf (.primitiveDescriptor name) | .leaf (.hostFn name) => [textCode name]
  | .leaf (.channel id) | .leaf (.handle id) | .leaf (.tcpListener id) | .leaf (.tcpStream id) =>
    [[id]]
  | .leaf (.builtinFn id) | .leaf (.typeDescriptor id) => [[id]]
  | .leaf (.variantConstructor type ordinal) | .variant type ordinal _ => [[type, ordinal]]
  | .leaf (.dict index place) => [[index, place]]
  | .vmClosure function _ => [[function]]
  | .record ty _ => [ty.id] :: if ty.id = anonRecord then ty.names.map textCode else []

/-- The head of a value. -/
def head (value : Value declared) : Head := [(value.rank : Int)] :: value.payload

end Value

theorem compare_natCast (a b : Nat) : compare (a : Int) b = compare a b := by
  simp [compare, compareOfLessAndEq]

theorem compare_map {α β : Type} [Ord α] [Ord β] {f : α → β}
    (hf : ∀ a b, compare (f a) (f b) = compare a b) (xs ys : List α) :
    compare (xs.map f) (ys.map f) = compare xs ys := by
  induction xs generalizing ys with
  | nil => cases ys <;> rfl
  | cons x xs ih =>
    cases ys with
    | nil => rfl
    | cons y ys => simp only [List.map_cons, List.compare_cons_cons, hf, ih]

theorem compare_textCode (s t : Text) : compare (textCode s) (textCode t) = compare s t :=
  compare_map (fun a b => by
    rw [compare_natCast, UInt8.compare_eq_toNat_compare_toNat]) s t

theorem compare_single {α : Type} [Ord α] (a b : α) : compare [a] [b] = compare a b := by
  rw [List.compare_cons_cons, List.compare_nil_nil, Ordering.then_eq]

theorem cmpRecordTypes_eq (a b : TypeInfo declared) (as bs : List (Value declared)) :
    Value.cmpRecordTypes a b = compare (Value.record a as).payload (Value.record b bs).payload := by
  simp only [Value.cmpRecordTypes, Value.payload, List.compare_cons_cons, List.compare_nil_nil,
    Ordering.then_eq, compare_natCast]
  by_cases hid : a.id = b.id
  · rw [← hid]
    by_cases ha : a.id = anonRecord
    · simp only [if_pos ha, compare_map compare_textCode]
    · simp only [if_neg ha, List.compare_nil_nil]
  · have hne : compare a.id b.id ≠ .eq := fun h => hid (LawfulEqCmp.eq_of_compare h)
    rcases h : compare a.id b.id with _ | _ | _ <;> simp_all

theorem cmpHeads_of_rank_ne (h : a.rank ≠ b.rank) : Value.cmpHeads a b = compare a.rank b.rank := by
  unfold Value.cmpHeads
  split
  case h_12 =>
    unfold Value.cmpOtherHeads
    split
    case h_13 => rfl
    all_goals exact absurd rfl h
  all_goals exact absurd rfl h

/-- Two values of one kind, or neither of them made of values. -/
inductive Alike : Value declared → Value declared → Prop
  | leaf (a b : Leaf) : Alike (.leaf a) (.leaf b)
  | list (as bs : Elements (Value declared)) : Alike (.list as) (.list bs)
  | tuple (as bs : List (Value declared)) : Alike (.tuple as) (.tuple bs)
  | map (as bs : List (Value declared × Value declared)) : Alike (.map as) (.map bs)
  | set (as bs : List (Value declared)) : Alike (.set as) (.set bs)
  | record (a b : TypeInfo declared) (as bs : List (Value declared)) :
    Alike (.record a as) (.record b bs)
  | variant (a i b j : Nat) (as bs : List (Value declared)) :
    Alike (.variant a i as) (.variant b j bs)
  | vmClosure (a b : Nat) (as bs : List (Value declared)) :
    Alike (.vmClosure a as) (.vmClosure b bs)

theorem Alike.of_rank (h : a.rank = b.rank) : Alike a b := by
  cases a with
  | leaf a =>
    cases b with
    | leaf b => exact .leaf a b
    | _ => cases a <;> simp [Value.rank] at h
  | list _ | tuple _ | map _ | set _ | record _ _ | variant _ _ _ | vmClosure _ _ =>
    cases b with
    | leaf b => cases b <;> simp [Value.rank] at h
    | _ => first | constructor | simp [Value.rank] at h

theorem cmpHeads_of_rank_eq (h : a.rank = b.rank) :
    Value.cmpHeads a b = compare a.payload b.payload := by
  cases Alike.of_rank h with
  | leaf a b =>
    cases a <;> cases b <;> simp [Value.rank] at h <;>
      simp [Value.cmpHeads, Value.cmpOtherHeads, Value.payload, List.compare_cons_cons,
        compare_natCast, compare_textCode]
  | record ty ty' _ _ => exact cmpRecordTypes_eq ty ty' _ _
  | list _ _ | tuple _ _ | map _ _ | set _ _ => rfl
  | variant _ _ _ _ _ _ | vmClosure _ _ _ _ =>
    simp [Value.cmpHeads, Value.cmpOtherHeads, Value.payload, List.compare_cons_cons,
      compare_natCast]

theorem cmpHeads_eq (a b : Value declared) : Value.cmpHeads a b = compare a.head b.head := by
  rw [Value.head, Value.head, List.compare_cons_cons, compare_single, compare_natCast]
  by_cases h : a.rank = b.rank
  · rw [cmpHeads_of_rank_eq h, h, show compare b.rank b.rank = .eq from ReflCmp.compare_self]
    rfl
  · rw [cmpHeads_of_rank_ne h]
    rcases hc : compare a.rank b.rank with _ | _ | _
    · rfl
    · exact absurd (LawfulEqCmp.eq_of_compare hc) h
    · rfl

theorem rank_eq_of_head_eq (h : a.head = b.head) : a.rank = b.rank := by
  simp only [Value.head, List.cons.injEq] at h
  exact Int.natCast_inj.mp h.1.1

/-! ### Values as trees -/

namespace Value

/-- The `n` Ints from `lo` on. -/
def ints (lo : Int64) : Nat → List (Value declared)
  | 0 => []
  | n + 1 => .int lo :: ints (lo + 1) n

/-- The elements of a list that it does not hold. -/
def unheld : Elements (Value declared) → List (Value declared)
  | .held _ => []
  | .ints range => ints range.lo (absDiff range.hi range.lo + 1)

/-- The elements of a list, held or not. -/
def elements (es : Elements (Value declared)) : List (Value declared) := unheld es ++ held es

/-- What a value is made of and does not keep. -/
def unkept : Value declared → List (Value declared)
  | .list es => unheld es
  | _ => []

/-- What a value is made of, in order. -/
def items (value : Value declared) : List (Value declared) := value.unkept ++ value.parts

/-- The tree of a value. -/
def key (value : Value declared) : Rose Head :=
  .node value.head (value.unkept.map (fun n => .node n.head []) ++
    value.parts.attach.map fun part => key part.val)
termination_by value.size
decreasing_by exact size_lt_of_mem_parts part.property

@[simp]
theorem key_leaf (leaf : Leaf) :
    (.leaf leaf : Value declared).key = .node (.leaf leaf : Value declared).head [] := by
  rw [key]
  rfl

theorem map_key_ints (lo : Int64) (n : Nat) :
    (ints lo n : List (Value declared)).map key =
      (ints lo n : List (Value declared)).map fun v => .node v.head [] := by
  induction n generalizing lo with
  | zero => rfl
  | succ n ih => rw [ints, List.map_cons, List.map_cons, ih, key_leaf]

theorem map_key_unkept (value : Value declared) :
    value.unkept.map key = value.unkept.map fun n => .node n.head [] := by
  match value with
  | .list (.ints range) => exact map_key_ints _ _
  | .list (.held _)
  | .leaf _ | .tuple _ | .map _ | .set _ | .record _ _ | .variant _ _ _ | .vmClosure _ _ => rfl

theorem key_eq (value : Value declared) : value.key = .node value.head (value.items.map key) := by
  rw [key, items, List.map_append, map_key_unkept, List.attach_map_val]

end Value

end Silt.Collections

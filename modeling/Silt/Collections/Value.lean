import Mathlib.Data.List.Basic
import Silt.Lib.Rose
import Silt.Collections.ListReads

/-!
# Values, their heads and their parts

The values of the language as the comparison of two values and the hash of one read them.  What a
comparison reads of a value is what is here: of a list its elements as they are stored, in runs or
as the two ends of a range; of a map and a set what their iterators give; of what is told apart by
an id or an address, that id.

The head of a value is its kind, and what tells it from another of the kind before its parts do.

## Main definitions

* `Value` : a value.
* `Value.parts` : the values it is made of, in order.
* `cmpHeads`, `hashHead` : the order of two heads, and what is written of one into a hash.
-/

namespace Silt.Collections

/-- A text, as its bytes. -/
abbrev Text := List UInt8

/-- The id that the types of all anonymous records share. -/
def anonRecord : Nat := 28

/-- A type as values see it.  A type that is not that of an anonymous record has the field names
that were declared for its id. -/
structure TypeInfo (declared : Nat → List Text) where
  id : Nat
  names : List Text
  lawful : id ≠ anonRecord → names = declared id

/-- The Ints from `lo` to `hi`, both included: one at least, and no more than a `usize` counts. -/
structure IntRange where
  lo : Int64
  hi : Int64
  le : lo.toInt ≤ hi.toInt
  most : absDiff hi lo + 1 ≤ maxLen

/-- Elements side by side in memory: one at least. -/
structure Run (α : Type) where
  first : α
  rest : List α

/-- The elements of a run in order. -/
def Run.items {α : Type} (run : Run α) : List α := run.first :: run.rest

/-- The elements of a list as they are stored. -/
inductive Elements (α : Type) where
  | held (runs : List (Run α))
  | ints (range : IntRange)

/-- The values that are not made of values. -/
inductive Leaf where
  | unit
  | bool (b : Bool)
  | int (n : Int64)
  /-- A Float, by its bits read as a signed number. -/
  | float (bits : Int64)
  | string (s : Text)
  | channel (id : Nat)
  | handle (id : Nat)
  | bytes (bytes : List UInt8)
  | tcpListener (id : Nat)
  | tcpStream (id : Nat)
  | builtinFn (id : Nat)
  /-- The constructor of a variant: its type and its place in the type. -/
  | variantConstructor (type ordinal : Nat)
  | typeDescriptor (id : Nat)
  | primitiveDescriptor (name : Text)
  | hostFn (name : Text)
  /-- A dictionary: which impl, and where it is. -/
  | dict (index place : Nat)

/-- A value. -/
inductive Value (declared : Nat → List Text) where
  | leaf (leaf : Leaf)
  | list (elements : Elements (Value declared))
  | tuple (items : List (Value declared))
  | map (entries : List (Value declared × Value declared))
  | set (members : List (Value declared))
  | record (ty : TypeInfo declared) (fields : List (Value declared))
  | variant (type ordinal : Nat) (fields : List (Value declared))
  /-- A closure: where its function is, and its captures. -/
  | vmClosure (function : Nat) (upvalues : List (Value declared))

variable {declared : Nat → List Text}

namespace Value

/-- The Int `n`. -/
abbrev int (n : Int64) : Value declared := .leaf (.int n)

/-! ### Lists -/

/-- The runs of the elements a list holds. -/
def runs : Elements (Value declared) → List (Run (Value declared))
  | .held rs => rs
  | .ints _ => []

/-- The elements a list holds, one after another. -/
def held (elements : Elements (Value declared)) : List (Value declared) :=
  (runs elements).flatMap Run.items

/-- The two ends of a list that holds no element. -/
def rangeEnds : Elements (Value declared) → Option (Int64 × Int64)
  | .held _ => none
  | .ints range => some (range.lo, range.hi)

/-- How many elements a list has. -/
def listLen : Elements (Value declared) → Nat
  | .held rs => (held (.held rs)).length
  | .ints range => absDiff range.hi range.lo + 1

/-- The last of Ints that are each one more than the one before, from `last` on. -/
def ascendingFrom (last : Int64) : List (Value declared) → Option Int64
  | [] => some last
  | .leaf (.int n) :: items =>
    if last.toInt + 1 = n.toInt then ascendingFrom n items else none
  | _ => none

/-- The first and the last element of a list of Ints, each one more than the one before. -/
def ascendingInts : Elements (Value declared) → Option (Int64 × Int64)
  | .ints range => some (range.lo, range.hi)
  | .held rs =>
    match held (.held rs) with
    | .leaf (.int lo) :: items => (ascendingFrom lo items).map fun last => (lo, last)
    | _ => none

/-! ### Heads -/

/-- The rank of the value's kind. -/
def rank : Value declared → Nat
  | .leaf .unit => 0
  | .leaf (.bool _) => 1
  | .leaf (.int _) => 2
  | .leaf (.float _) => 3
  | .leaf (.string _) => 4
  | .list _ => 5
  | .tuple _ => 6
  | .map _ => 7
  | .set _ => 8
  | .record _ _ => 9
  | .variant _ _ _ => 10
  | .leaf (.channel _) => 11
  | .leaf (.handle _) => 12
  | .leaf (.bytes _) => 13
  | .leaf (.tcpListener _) => 14
  | .leaf (.tcpStream _) => 15
  | .vmClosure _ _ => 16
  | .leaf (.builtinFn _) => 17
  | .leaf (.variantConstructor _ _) => 18
  | .leaf (.typeDescriptor _) => 19
  | .leaf (.primitiveDescriptor _) => 20
  | .leaf (.hostFn _) => 21
  | .leaf (.dict _ _) => 22

/-- Whether the value is made of values. -/
def hasParts : Value declared → Bool
  | .leaf _ => false
  | _ => true

/-- What Floats are ordered by: the bits as a signed number, with all but the sign flipped if it is
negative. -/
def totalOrder (bits : Int64) : Int :=
  if bits.toInt < 0 then -(bits.toInt + 2 ^ 63) - 1 else bits.toInt

/-- The order of the types of two records: by the types' ids, and for two anonymous records by their
field names. -/
def cmpRecordTypes (a b : TypeInfo declared) : Ordering :=
  (compare a.id b.id).then (if a.id = anonRecord then compare a.names b.names else .eq)

/-- The order of two heads, for the kinds a program seldom compares, and for two kinds. -/
def cmpOtherHeads : Value declared → Value declared → Ordering
  | .leaf (.bytes a), .leaf (.bytes b) => compare a b
  | .leaf (.channel a), .leaf (.channel b) => compare a b
  | .leaf (.handle a), .leaf (.handle b) => compare a b
  | .leaf (.tcpListener a), .leaf (.tcpListener b) => compare a b
  | .leaf (.tcpStream a), .leaf (.tcpStream b) => compare a b
  | .vmClosure a _, .vmClosure b _ => compare a b
  | .leaf (.builtinFn a), .leaf (.builtinFn b) => compare a b
  | .leaf (.hostFn a), .leaf (.hostFn b) => compare a b
  | .leaf (.variantConstructor a i), .leaf (.variantConstructor b j) =>
    (compare a b).then (compare i j)
  | .leaf (.typeDescriptor a), .leaf (.typeDescriptor b) => compare a b
  | .leaf (.primitiveDescriptor a), .leaf (.primitiveDescriptor b) => compare a b
  | .leaf (.dict a i), .leaf (.dict b j) => (compare a b).then (compare i j)
  | a, b => compare a.rank b.rank

/-- The order of the heads of two values: of one kind by what the heads hold, of two kinds by
rank. -/
def cmpHeads : Value declared → Value declared → Ordering
  | .leaf (.int a), .leaf (.int b) => compare a.toInt b.toInt
  | .leaf (.string a), .leaf (.string b) => compare a b
  | .leaf (.float a), .leaf (.float b) => compare (totalOrder a) (totalOrder b)
  | .leaf (.bool a), .leaf (.bool b) => compare a.toNat b.toNat
  | .leaf .unit, .leaf .unit => .eq
  | .list _, .list _ => .eq
  | .tuple _, .tuple _ => .eq
  | .map _, .map _ => .eq
  | .set _, .set _ => .eq
  | .variant a i _, .variant b j _ => (compare a b).then (compare i j)
  | .record a _, .record b _ => cmpRecordTypes a b
  | a, b => cmpOtherHeads a b

/-- A write to a hasher. -/
inductive Write where
  | u8 (n : Nat)
  | u16 (n : Nat)
  | u32 (n : Nat)
  | u64 (n : Int64)
  | i64 (n : Int64)
  | usize (n : Nat)
  | bytes (bytes : List UInt8)
  | str (s : Text)

/-- The head's part of a hash: its rank, then what it holds. -/
def hashHead (value : Value declared) : List Write :=
  .u8 value.rank ::
    match value with
    | .leaf .unit | .list _ | .tuple _ | .map _ | .set _ | .record _ _ | .vmClosure _ _ => []
    | .leaf (.bool b) => [.u8 b.toNat]
    | .leaf (.int n) => [.i64 n]
    | .leaf (.float bits) => [.u64 bits]
    | .leaf (.string s) => [.str s]
    | .variant _ ordinal _ => [.u16 ordinal]
    | .leaf (.channel id) | .leaf (.handle id) => [.usize id]
    | .leaf (.bytes bytes) => [.usize bytes.length, .bytes bytes]
    | .leaf (.tcpListener id) | .leaf (.tcpStream id) => [.usize id]
    | .leaf (.builtinFn id) => [.u16 id]
    | .leaf (.hostFn name) => [.str name]
    | .leaf (.variantConstructor type ordinal) => [.u32 type, .u16 ordinal]
    | .leaf (.typeDescriptor id) => [.u32 id]
    | .leaf (.primitiveDescriptor name) => [.str name]
    | .leaf (.dict index place) => [.u32 index, .usize place]

/-! ### Parts -/

/-- The keys and values of entries in order. -/
def interleaved : List (Value declared × Value declared) → List (Value declared)
  | [] => []
  | (key, value) :: entries => key :: value :: interleaved entries

/-- The values a value keeps of those it is made of, in order. -/
def parts : Value declared → List (Value declared)
  | .leaf _ => []
  | .list elements => held elements
  | .tuple items => items
  | .map entries => interleaved entries
  | .set members => members
  | .record _ fields => fields
  | .variant _ _ fields => fields
  | .vmClosure _ upvalues => upvalues

end Value

/-! ### The size of a value -/

mutual

/-- How many values a value keeps, itself one. -/
def Value.size : Value declared → Nat
  | .leaf _ => 1
  | .list elements => elementsSize elements + 1
  | .tuple items => sizes items + 1
  | .map entries => entriesSize entries + 1
  | .set members => sizes members + 1
  | .record _ fields => sizes fields + 1
  | .variant _ _ fields => sizes fields + 1
  | .vmClosure _ upvalues => sizes upvalues + 1

def sizes : List (Value declared) → Nat
  | [] => 0
  | value :: values => value.size + sizes values

def elementsSize : Elements (Value declared) → Nat
  | .held runs => runsSize runs
  | .ints _ => 0

def runsSize : List (Run (Value declared)) → Nat
  | [] => 0
  | ⟨first, rest⟩ :: runs => first.size + sizes rest + runsSize runs

def entriesSize : List (Value declared × Value declared) → Nat
  | [] => 0
  | (key, value) :: entries => key.size + value.size + entriesSize entries

end

theorem sizes_append (xs ys : List (Value declared)) : sizes (xs ++ ys) = sizes xs + sizes ys := by
  induction xs with
  | nil => simp [sizes]
  | cons x xs ih => simp [sizes, ih, Nat.add_assoc]

theorem runsSize_eq (rs : List (Run (Value declared))) :
    runsSize rs = sizes (Value.held (.held rs)) := by
  induction rs with
  | nil => simp [runsSize, Value.held, Value.runs, sizes]
  | cons run rs ih =>
    simp [runsSize, ih, Value.held, Value.runs, Run.items, sizes, sizes_append, Nat.add_assoc]

theorem entriesSize_eq (entries : List (Value declared × Value declared)) :
    entriesSize entries = sizes (Value.interleaved entries) := by
  induction entries with
  | nil => simp [entriesSize, Value.interleaved, sizes]
  | cons entry entries ih =>
    simp [entriesSize, Value.interleaved, sizes, ih, Nat.add_assoc]

theorem Value.size_eq (value : Value declared) : value.size = sizes value.parts + 1 := by
  cases value with
  | leaf _ => simp [size, parts, sizes]
  | list elements =>
    cases elements with
    | held rs => simp [size, elementsSize, parts, runsSize_eq]
    | ints range => simp [size, elementsSize, parts, held, runs, sizes]
  | map entries => simp [size, parts, entriesSize_eq]
  | tuple _ | set _ | record _ _ | variant _ _ _ | vmClosure _ _ => simp [size, parts]

theorem size_le_sizes {value : Value declared} {values : List (Value declared)}
    (h : value ∈ values) : value.size ≤ sizes values := by
  induction values with
  | nil => cases h
  | cons v values ih =>
    rcases List.mem_cons.mp h with rfl | h
    · exact Nat.le_add_right _ _
    · exact (ih h).trans (Nat.le_add_left _ _)

theorem Value.size_lt_of_mem_parts {part value : Value declared} (h : part ∈ value.parts) :
    part.size < value.size := by
  rw [value.size_eq]
  exact Nat.lt_succ_of_le (size_le_sizes h)

end Silt.Collections

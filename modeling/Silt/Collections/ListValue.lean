import Mathlib.Algebra.Group.Nat.Defs
import Mathlib.Order.Compare
import Silt.Lib.Sequence

/-!
# The list value

How a list is stored: a part of a buffer, a part of a long list's elements, side by side or in a
tree, or the two ends of a range of Ints, which holds no element at all.  The tree is a persistent
sequence of another library, here any type that promises to be one (`Sequence`).  The values of the
language are any type with the Ints in it and an order (`Element`).

An operation is `none` where the source would stop the program: an index outside its storage.  A
range of too many Ints is refused (`TooLong`).

## Main definitions

* `ListValue` : a list as it is stored.
* `ListValue.slice`, `concat`, `pushFront`, `pushBack`, `set`, `removeAt` : lists made from lists.
* `ListValue.iter`, `intoIter`, `runs` : the ways to read a list.
-/

namespace Silt.Collections

/-- Values with the Ints among them, and an order that tells an Int from every other value. -/
class Element (α : Type) where
  int : Int64 → α
  /-- The Int the value is, if it is one. -/
  int? : α → Option Int64
  cmp : α → α → Ordering
  int?_int (n : Int64) : int? (int n) = some n
  eq_int_of_int? {a : α} {n : Int64} : int? a = some n → a = int n
  trans_cmp : Std.TransCmp cmp
  cmp_int (n m : Int64) : cmp (int n) (int m) = compare n.toInt m.toInt
  int?_of_cmp {a : α} {n : Int64} : cmp (int n) a = .eq → int? a = some n

/-- The most elements a list a change makes keeps in a buffer. -/
def flatMost : Nat := 64

/-- The most elements of a list that are put into the tree of another one by one. -/
def pushedMost : Nat := 1024

/-- The most Ints of a range that are written out. -/
def maxCollectionLen : Nat := 10000000

/-- The most elements a list has: a `usize` counts them. -/
def maxLen : Nat := 2 ^ 64 - 1

/-- Why a list could not be made, or its elements written out. -/
structure TooLong where
  lo : Int64
  hi : Int64
  most : Nat
  deriving DecidableEq

/-- The elements of a long list: side by side, with the tree that a change made of them, or in a
tree. -/
inductive LongItems (α V : Type) where
  | side (items : List α) (tree : Option V)
  | tree (tree : V)

/-- A list. -/
inductive ListValue (α V : Type) where
  /-- `len` elements of `buf` from `start`. -/
  | items (buf : List α) (start len : Nat)
  /-- `len` elements of `long` from `start`. -/
  | long (long : LongItems α V) (start len : Nat)
  /-- The Ints from `lo` to `hi`, both included. -/
  | ints (lo hi : Int64)

variable {α V : Type} [Element α] [Sequence V α]

open Element Sequence

/-- The items from `first` up to, not including, `last`, if all of them are there. -/
def sliceOf (items : List α) (first last : Nat) : Option (List α) :=
  if first ≤ last ∧ last ≤ items.length then some ((items.take last).drop first) else none

/-- The distance of two Ints. -/
def absDiff (a b : Int64) : Nat := (a.toInt - b.toInt).natAbs

/-- The Int `index` places after `lo`. -/
def nth (lo : Int64) (index : Nat) : Int64 := lo + Int64.ofNat index

/-- The `n` Ints from `lo` on, as values. -/
def intsFrom (lo : Int64) (n : Nat) : List α := (List.range n).map fun i => int (nth lo i)

/-- How many elements there are. -/
def LongItems.len : LongItems α V → Nat
  | .side xs _ => xs.length
  | .tree t => (toList t).length

/-! ### Reading a list -/

/-- The Ints left of a list that holds none: `left` of them from `next`. -/
structure IntsLeft where
  next : Int64
  left : Nat

/-- The next Int. -/
def IntsLeft.next? (ints : IntsLeft) : Option (α × IntsLeft) :=
  match ints.left with
  | 0 => none
  | left + 1 => some (int ints.next, ⟨ints.next + 1, left⟩)

/-- The next Int from the back. -/
def IntsLeft.nextBack? (ints : IntsLeft) : Option (α × IntsLeft) :=
  match ints.left with
  | 0 => none
  | left + 1 => some (int (nth ints.next left), ⟨ints.next, left⟩)

/-- The elements of a list in order: those left. -/
inductive Iter (α : Type) where
  | items (left : List α)
  | tree (left : List α)
  | ints (left : IntsLeft)

/-- The next element. -/
def Iter.next? : Iter α → Option (α × Iter α)
  | .items [] | .tree [] => none
  | .items (a :: left) => some (a, .items left)
  | .tree (a :: left) => some (a, .tree left)
  | .ints left => left.next?.map fun (a, left) => (a, .ints left)

/-- The next element from the back. -/
def Iter.nextBack? : Iter α → Option (α × Iter α)
  | .items left => left.getLast?.map fun a => (a, .items left.dropLast)
  | .tree left => left.getLast?.map fun a => (a, .tree left.dropLast)
  | .ints left => left.nextBack?.map fun (a, left) => (a, .ints left)

/-- How many elements are left. -/
def Iter.len : Iter α → Nat
  | .items left | .tree left => left.length
  | .ints left => left.left

/-- The elements left, one after another; there are at most `fuel`. -/
def Iter.taken : Nat → Iter α → List α
  | 0, _ => []
  | fuel + 1, it =>
    match it.next? with
    | none => []
    | some (a, it) => a :: it.taken fuel

/-- All the elements left. -/
def Iter.collect (it : Iter α) : List α := it.taken it.len

/-- The elements left from the back, one after another; there are at most `fuel`. -/
def Iter.takenBack : Nat → Iter α → List α
  | 0, _ => []
  | fuel + 1, it =>
    match it.nextBack? with
    | none => []
    | some (a, it) => a :: it.takenBack fuel

/-- All the elements left, the last one first. -/
def Iter.rev (it : Iter α) : List α := it.takenBack it.len

/-- The leaves of a tree from where a list kept in it begins to where it ends: `skip` elements of
them come before the list, and `left` are the list's. -/
structure Leaves (α : Type) where
  leaves : List (List α)
  skip : Nat
  left : Nat

/-- The next run of the list. -/
def nextLeaf : List (List α) → Nat → Nat → Option (List α × Leaves α)
  | _, _, 0 => none
  | [], _, _ => none
  | leaf :: leaves, skip, left =>
    if leaf.length ≤ skip then nextLeaf leaves (skip - leaf.length) left
    else
      let run := (leaf.take (min leaf.length (skip + left))).drop skip
      some (run, ⟨leaves, 0, left - run.length⟩)

/-- The runs of the elements a list holds: what is left of the run at hand, and the leaves after
it. -/
structure Runs (α : Type) where
  left : List α
  leaves : Option (Leaves α)

/-- The next run. -/
def Runs.next? (runs : Runs α) : Option (List α × Runs α) :=
  if runs.left.isEmpty then do
    let leaves ← runs.leaves
    let (run, leaves) ← nextLeaf leaves.leaves leaves.skip leaves.left
    return (run, ⟨[], some leaves⟩)
  else some (runs.left, ⟨[], runs.leaves⟩)

/-- The runs, one after another; there are at most `fuel`. -/
def Runs.taken : Nat → Runs α → List (List α)
  | 0, _ => []
  | fuel + 1, runs =>
    match runs.next? with
    | none => []
    | some (run, runs) => run :: runs.taken fuel

/-- All the runs: the one at hand, and one for each leaf at most. -/
def Runs.collect (runs : Runs α) : List (List α) :=
  runs.taken (1 + (runs.leaves.map (·.leaves.length)).getD 0)

/-- The elements of a list, for as long as the iterator is kept. -/
inductive IntoIter (α V : Type) where
  | items (buf : List α) (next last : Nat)
  | side (items : List α) (next last : Nat)
  /-- The elements of a tree from `next` on, after those of the leaf at hand, the last first. -/
  | tree (tree : V) (next last : Nat) (leaf : List α)
  | ints (left : IntsLeft)

/-- The element of the tree at `next`, if it is before `last`, with those of its leaf after it put
into `leaf`, the last first. -/
def nextOfLong (tree : V) (next last : Nat) : Option (Option (α × IntoIter α V)) :=
  if next = last then some none
  else if (toList tree).length ≤ next then none
  else
    let (first, items) := chunkAt tree next
    let upto := min (first + items.length) last
    match sliceOf items (next - first) (upto - first) with
    | none => none
    | some part =>
      -- the leaf has what is left of it with the last element first
      match part.reverse.getLast? with
      | none => some none
      | some a => some (some (a, .tree tree upto last part.reverse.dropLast))

/-- The next element. -/
def IntoIter.next? : IntoIter α V → Option (Option (α × IntoIter α V))
  | .items buf next last =>
    if next = last then some none
    else (buf[next]?).map fun a => some (a, .items buf (next + 1) last)
  | .side xs next last =>
    if next = last then some none
    else (xs[next]?).map fun a => some (a, .side xs (next + 1) last)
  | .tree t next last leaf =>
    match leaf.getLast? with
    | some a => some (some (a, .tree t next last leaf.dropLast))
    | none => nextOfLong t next last
  | .ints left => some (left.next?.map fun (a, left) => (a, .ints left))

namespace ListValue

/-! ### The parts of a list -/

/-- How many elements there are. -/
def len : ListValue α V → Nat
  | .items _ _ len | .long _ _ len => len
  | .ints lo hi => absDiff hi lo + 1

def isEmpty (l : ListValue α V) : Bool := l.len == 0

/-- Where a list's elements are: side by side, in a tree, or nowhere. -/
inductive Kept (α V : Type) where
  | side (xs : List α)
  | tree (tree : V) (start len : Nat)
  | ints (lo : Int64)

/-- Where the elements are. -/
def kept : ListValue α V → Option (Kept α V)
  | .items buf start len => (sliceOf buf start (start + len)).map .side
  | .long (.side xs _) start len => (sliceOf xs start (start + len)).map .side
  | .long (.tree tree) start len => some (.tree tree start len)
  | .ints lo _ => some (.ints lo)

/-- The element at `index`. -/
def get (l : ListValue α V) (index : Nat) : Option (Option α) :=
  match l with
  | .items buf start len => (sliceOf buf start (start + len)).map (·[index]?)
  | .long body start len =>
    if index < len then
      match body with
      | .side xs _ => (xs[start + index]?).map some
      | .tree tree => ((toList tree)[start + index]?).map some
    else some none
  | .ints lo _ => some (if index < l.len then some (int (nth lo index)) else none)

/-- The elements from `first` up to, not including, `last`, in order. -/
def iterPart (l : ListValue α V) (first last : Nat) : Option (Iter α) := do
  match ← l.kept with
  | .side xs => return .items (← sliceOf xs first last)
  | .tree tree start _ => return .tree (← sliceOf (toList tree) (start + first) (start + last))
  | .ints lo => return .ints ⟨nth lo first, last - first⟩

/-- The elements in order. -/
def iter (l : ListValue α V) : Option (Iter α) := l.iterPart 0 l.len

/-- The elements the list holds as runs of them. -/
def runs (l : ListValue α V) : Option (Runs α) := do
  match ← l.kept with
  | .side xs => return ⟨xs, none⟩
  | .tree tree start len => return ⟨[], some ⟨leaves tree, start, len⟩⟩
  | .ints _ => return ⟨[], none⟩

/-- The two ends of a list that holds no element. -/
def rangeEnds : ListValue α V → Option (Int64 × Int64)
  | .ints lo hi => some (lo, hi)
  | _ => none

/-- The elements in order, for as long as the iterator is kept. -/
def intoIter (l : ListValue α V) : IntoIter α V :=
  match l with
  | .items buf start len => .items buf start (start + len)
  | .long (.side xs _) start len => .side xs start (start + len)
  | .long (.tree tree) start len => .tree tree start (start + len) []
  | .ints lo _ => .ints ⟨lo, l.len⟩

/-! ### Lists made in one go -/

/-- The `len` elements of `buf` from `start`: a `u32` counts them. -/
def ofBuf (buf : List α) (start len : Nat) : Option (ListValue α V) :=
  if start < 2 ^ 32 ∧ len < 2 ^ 32 then some (.items buf start len) else none

/-- The list of `xs`, kept in a buffer. -/
def flat (xs : List α) : Option (ListValue α V) := ofBuf xs 0 xs.length

/-- The list of the elements of `tree`. -/
def ofTree (tree : V) : ListValue α V := .long (.tree tree) 0 (toList tree).length

/-- The list of `xs`: what `From<Vec>` makes. -/
def ofVec (xs : List α) : Option (ListValue α V) :=
  if xs.length ≤ flatMost then flat xs
  else some (.long (.side xs none) 0 xs.length)

/-- The list of what an iterator gives, which tells how much that is or not (`exact`). -/
def fromIter (exact : Bool) (xs : List α) : Option (ListValue α V) :=
  if exact && xs.length ≤ flatMost then flat xs else ofVec xs

/-- The list of the Ints from `lo` to `hi`. -/
def ofInts (lo hi : Int64) : Option (Except TooLong (ListValue α V)) :=
  if hi.toInt < lo.toInt then (ofVec []).map .ok
  else if absDiff hi lo + 1 ≤ maxLen then some (.ok (.ints lo hi))
  else some (.error ⟨lo, hi, maxLen⟩)

/-! ### Lists made from lists -/

/-- Whether the elements may be written out one by one. -/
def writable : ListValue α V → Except TooLong Unit
  | .ints lo hi =>
    if absDiff hi lo ≥ maxCollectionLen then .error ⟨lo, hi, maxCollectionLen⟩ else .ok ()
  | _ => .ok ()

/-- Whether a list that a change makes of this one is written out: this one holds no element. -/
def writtenOut : ListValue α V → Bool
  | .ints _ _ => true
  | _ => false

/-- Whether the list is a part of a long list's elements. -/
def inLong : ListValue α V → Bool
  | .long _ _ _ => true
  | _ => false

/-- Whether a list of `n` elements made from this one keeps them in a buffer. -/
def flatFor (n : Nat) : ListValue α V → Bool
  | .long (.tree _) _ _ => n ≤ flatMost / 2
  | _ => n ≤ flatMost

/-- The elements, pushed onto a vector. -/
def writeInto (l : ListValue α V) (xs : List α) : Option (List α) :=
  match l with
  | .ints lo hi => some (xs ++ intsFrom lo (absDiff hi lo + 1))
  | l => do return xs ++ (← l.runs).collect.flatten

/-- The elements, each a value of its own. -/
def toVec (l : ListValue α V) : Option (Except TooLong (List α)) :=
  match l.writable with
  | .error e => some (.error e)
  | .ok _ => (l.writeInto []).map .ok

/-- The `len` elements of `tree` from `start`, as a tree of their own. -/
def partOf (tree : V) (start len : Nat) : Option V :=
  if start + len ≤ (toList tree).length then
    some (truncate (if start = 0 then tree else skip tree start) len)
  else none

/-- The elements in a tree of their own. -/
def toTree (l : ListValue α V) : Option V :=
  match l with
  | .long (.tree tree) start len => partOf tree start len
  | .long (.side xs tree) start len => partOf (tree.getD (collect xs)) start len
  | l => do return collect (← l.iter).collect

/-- The elements from `first` up to, not including, `last`, which are in the list and some: a list
of the same storage, unless they are less than a quarter of it. -/
def part (l : ListValue α V) (first last : Nat) : Option (ListValue α V) :=
  let n := last - first
  match l with
  | .items buf start _ =>
    if n < buf.length / 4 then do flat (← sliceOf buf (start + first) (start + last))
    else ofBuf buf (start + first) n
  | .long body start _ =>
    if n < body.len / 4 then
      match flatFor n l, body with
      | true, _ => do flat (← l.iterPart first last).collect
      | false, .side xs _ => do ofVec (← sliceOf xs (start + first) (start + last))
      | false, .tree tree => (partOf tree (start + first) n).map ofTree
    else some (.long body (start + first) n)
  | .ints lo _ => some (.ints (nth lo first) (nth lo (last - 1)))

/-- The elements from `first` up to, not including, `last`, as a list.  A bound past the end is the
end. -/
def slice (l : ListValue α V) (first last : Nat) : Option (ListValue α V) :=
  let last := min last l.len
  let first := min first last
  if first = last then ofVec [] else l.part first last

/-- Whether two lists are joined by writing both out side by side. -/
def joinedFlat (l other : ListValue α V) : Bool :=
  let n := l.len + other.len
  (l.flatFor n && other.flatFor n) || (l.writtenOut && !other.inLong) ||
    (other.writtenOut && !l.inLong)

/-- The tree of the elements of one list and then those of the other: of a short one they are put
into the tree of the other one by one. -/
def joinedTree (l other : ListValue α V) : Option V :=
  if l.len ≤ pushedMost ∧ l.len ≤ other.len then do
    let tree ← other.toTree
    return (← l.iter).rev.foldl (fun tree a => pushFront a tree) tree
  else if other.len ≤ pushedMost then do
    let tree ← l.toTree
    return (← other.iter).collect.foldl pushBack tree
  else do return append (← l.toTree) (← other.toTree)

/-- The elements of the list and then those of `other`. -/
def concat (l other : ListValue α V) : Option (Except TooLong (ListValue α V)) :=
  match l.writable, other.writable with
  | .error e, _ | .ok _, .error e => some (.error e)
  | .ok _, .ok _ =>
    if other.isEmpty then some (.ok l)
    else if l.isEmpty then some (.ok other)
    else if l.joinedFlat other then do
      return .ok (← ofVec (← other.writeInto (← l.writeInto [])))
    else do return .ok (ofTree (← l.joinedTree other))

/-- The list of the value and then the elements. -/
def pushFront (l : ListValue α V) (a : α) : Option (Except TooLong (ListValue α V)) :=
  match l.writable with
  | .error e => some (.error e)
  | .ok _ =>
    if l.flatFor (l.len + 1) || l.writtenOut then do return .ok (← ofVec (← l.writeInto [a]))
    else do return .ok (ofTree (Sequence.pushFront a (← l.toTree)))

/-- The list of the elements and then the value. -/
def pushBack (l : ListValue α V) (a : α) : Option (Except TooLong (ListValue α V)) :=
  match l.writable with
  | .error e => some (.error e)
  | .ok _ =>
    if l.flatFor (l.len + 1) || l.writtenOut then do
      return .ok (← ofVec ((← l.writeInto []) ++ [a]))
    else do return .ok (ofTree (Sequence.pushBack (← l.toTree) a))

/-- The list with the value in place of the element at `index`. -/
def set (l : ListValue α V) (index : Nat) (a : α) :
    Option (Except TooLong (Option (ListValue α V))) :=
  if l.len ≤ index then some (.ok none)
  else
    match l.writable with
    | .error e => some (.error e)
    | .ok _ =>
      if l.flatFor l.len || l.writtenOut then do
        match ← l.toVec with
        | .error e => return .error e
        | .ok xs => if index < xs.length then return .ok (some (← ofVec (xs.set index a))) else none
      else do
        let tree ← l.toTree
        if index < (toList tree).length then
          return .ok (some (ofTree (Sequence.set tree index a)))
        else none

/-- The list without the element at `index`. -/
def removeAt (l : ListValue α V) (index : Nat) :
    Option (Except TooLong (Option (ListValue α V))) :=
  if l.len ≤ index then some (.ok none)
  else
    match l.writable with
    | .error e => some (.error e)
    | .ok _ =>
      if l.flatFor (l.len - 1) || l.writtenOut then do
        match ← l.toVec with
        | .error e => return .error e
        | .ok xs =>
          if index < xs.length then return .ok (some (← ofVec (xs.eraseIdx index))) else none
      else do
        let tree ← l.toTree
        if index < (toList tree).length then
          return .ok (some (ofTree (Sequence.remove tree index)))
        else none

/-! ### Questions about the elements -/

/-- Whether two values are equal. -/
def same (a b : α) : Bool := Element.cmp a b == .eq

/-- The index of the first element equal to the value. -/
def position (l : ListValue α V) (a : α) : Option (Option Nat) :=
  match l with
  | .ints lo hi =>
    match int? a with
    | some n =>
      some (if lo.toInt ≤ n.toInt ∧ n.toInt ≤ hi.toInt then some (absDiff n lo) else none)
    | none => some none
  | l => do return (← l.runs).collect.flatten.findIdx? (same · a)

/-- Whether the value is an element. -/
def contains (l : ListValue α V) (a : α) : Option Bool := (l.position a).map Option.isSome

/-- The elements in ascending order. -/
def sorted (l : ListValue α V) : Option (ListValue α V) :=
  match l with
  | .ints _ _ => some l
  | l => do ofVec ((← l.runs).collect.flatten.mergeSort fun a b => (Element.cmp a b).isLE)

/-- The items that are equal to none before them, nor to one that was seen. -/
def uniqueFrom (seen : List α) : List α → List α
  | [] => []
  | a :: xs =>
    if seen.any (same a) then uniqueFrom seen xs else a :: uniqueFrom (a :: seen) xs

/-- The elements that are equal to none before them. -/
def unique (l : ListValue α V) : Option (ListValue α V) :=
  match l with
  | .ints _ _ => some l
  | l => do fromIter false (uniqueFrom [] (← l.runs).collect.flatten)

end ListValue

end Silt.Collections

import Silt.Lib.OrderedTree

/-!
# The map value and the set value

A map is its entries in the order of their keys, a set its members in their order.  Both are kept in
one of three ways (`Kept`): a few side by side; many side by side, as they were made in one go, with
the tree that the first change made of them; or in a tree.  The tree is the ordered map, or set, of
another library, here any type that promises to be one (`OrderedTree`).

An operation is `none` where the source would stop the program: an index outside its storage.

## Main definitions

* `Kept` : the items of a map or a set as they are stored.
* `MapValue.insert`, `remove`, `merge` : maps made from maps.
* `SetValue.insert`, `remove`, `union`, `intersection`, `difference`, `symmetricDifference` : sets
  made from sets.
-/

namespace Silt.Collections

open OrderedTree

/-- The most items that are kept side by side when a change is made. -/
def keptFlatMost : Nat := 32

/-- The entries of a map, or the members of a set, as they are kept. -/
inductive Kept (T M : Type) where
  /-- Side by side, in order: a few. -/
  | flat (items : List T)
  /-- Side by side, in order, made in one go; and the tree the first change made of them. -/
  | side (items : List T) (made : Option M)
  | tree (tree : M)

variable {T K W M : Type} [Ord K] {ks : Keys T K W}

/-- `items` with `item` at `i`. -/
def withAt (items : List T) (i : Nat) (item : T) : Option (List T) :=
  if i ≤ items.length then some (items.take i ++ item :: items.drop i) else none

/-- `items` without the one at `i`. -/
def withoutAt (items : List T) (i : Nat) : Option (List T) :=
  if i + 1 ≤ items.length then some (items.take i ++ items.drop (i + 1)) else none

namespace Kept

/-- What is kept of items in order, each key once, made in one go. -/
def ofSorted (xs : List T) : Kept T M :=
  if xs.length ≤ keptFlatMost then .flat xs else .side xs none

/-- The items, if they are kept side by side. -/
def side? : Kept T M → Option (List T)
  | .flat xs | .side xs _ => some xs
  | .tree _ => none

variable [OrderedTree ks M]

/-- What is kept of the items of a tree: side by side, if it has shrunk to half of the most. -/
def ofTree (t : M) : Kept T M :=
  if keptFlatMost / 2 < (toList t).length then .tree t else .flat (toList t)

/-- The tree, unless the items are a few: the one they are kept in, or the one made of them at the
first change. -/
def tree? : Kept T M → Option M
  | .flat _ => none
  | .side xs made => some (made.getD (ofList xs))
  | .tree t => some t

/-- How many items there are. -/
def len (kept : Kept T M) : Nat :=
  match kept.side? with
  | some xs => xs.length
  | none => (kept.tree?.map fun t => (toList t).length).getD 0

def isEmpty (kept : Kept T M) : Bool := kept.len == 0

/-- The items in order. -/
def iter (kept : Kept T M) : List T :=
  match kept.side?, kept with
  | some xs, _ => xs
  | none, .tree t => toList t
  | none, _ => []

/-- The items in order, for as long as the iterator is kept: where it is in items side by side, or
those left of a tree. -/
inductive IntoIter (T M : Type) where
  | flat (kept : Kept T M) (i : Nat)
  | tree (left : List T)

/-- The next item. -/
def IntoIter.next? : IntoIter T M → Option (T × IntoIter T M)
  | .flat kept i => do
    let xs ← kept.side?
    let item ← xs[i]?
    return (item, .flat kept (i + 1))
  | .tree [] => none
  | .tree (item :: left) => some (item, .tree left)

/-- The iterator that keeps the items. -/
def intoIter : Kept T M → IntoIter T M
  | .tree t => .tree (toList t)
  | kept => .flat kept 0

/-- The two, the one with more items first. -/
def bySize (kept other : Kept T M) : Kept T M × Kept T M :=
  if kept.len ≥ other.len then (kept, other) else (other, kept)

end Kept

/-! ### Maps -/

variable {α : Type} [Ord α]

/-- The key and the value of an entry. -/
abbrev entryKeys (α : Type) : Keys (α × α) α α := ⟨Prod.fst, Prod.snd⟩

/-- A map of values to values. -/
abbrev MapValue (α M : Type) := Kept (α × α) M

namespace MapValue

variable [OrderedTree (entryKeys α) M]

/-- Where a key is among entries, or where it would go. -/
def find (entries : List (α × α)) (key : α) : Except Nat Nat :=
  Keys.search (fun entry => compare entry.1 key) entries

/-- The keys and values of a literal, two by two. -/
def pairs : List α → List (α × α)
  | key :: value :: rest => (key, value) :: pairs rest
  | _ => []

/-- The map of entries in any order: of a key given twice, the value given last.  The entries of one
key stay in the order they were given when they are sorted, and then the last of them stays. -/
def ofUnsorted (entries : List (α × α)) : MapValue α M :=
  Kept.ofSorted ((entryKeys α).dedup (fun later _ => later) ((entryKeys α).sort entries))

/-- The map of a literal: its keys and values, each key before its value. -/
def ofLiteral (values : List α) : MapValue α M := ofUnsorted (pairs values)

/-- The value of a key. -/
def get (m : MapValue α M) (key : α) : Option (Option α) :=
  match m.side? with
  | some entries =>
    match find entries key with
    | .ok i => (entries[i]?).map fun entry => some entry.2
    | .error _ => some none
  | none => some (m.tree?.bind fun t => OrderedTree.get t key)

/-- The map with a key of a value, whether it had the key or not. -/
def insert (m : MapValue α M) (key value : α) : Option (MapValue α M) :=
  match m with
  | .flat entries =>
    match find entries key with
    | .ok i => (entries[i]?).map fun entry => .flat (entries.set i (entry.1, value))
    | .error i =>
      if entries.length < keptFlatMost then (withAt entries i (key, value)).map .flat
      else some (.tree (OrderedTree.insert (key, value) (ofList entries)))
  | m =>
    some (.tree (OrderedTree.insert (key, value) (m.tree?.getD (ofList []))))

/-- The map without a key. -/
def remove (m : MapValue α M) (key : α) : Option (MapValue α M) :=
  match m with
  | .flat entries =>
    match find entries key with
    | .ok i => (withoutAt entries i).map .flat
    | .error _ => some m
  | m => do
    if (← m.get key).isSome then
      return Kept.ofTree (OrderedTree.remove key (m.tree?.getD (ofList [])))
    else return m

/-- What a merged map has of a key: the value the second has, or the entry of either. -/
def mergedEntry : Option (α × α) × Option (α × α) → Option (α × α)
  | (some (key, _), some (_, value)) => some (key, value)
  | (some entry, none) | (none, some entry) => some entry
  | (none, none) => none

/-- The entries of the map and those of `other`: of a key both have, the value `other` has. -/
def merge (m other : MapValue α M) : MapValue α M :=
  if other.isEmpty then m
  else if m.isEmpty then other
  else
    let (larger, smaller, smallerWins) :=
      if m.len ≥ other.len then (m, other, true) else (other, m, false)
    match larger.tree? with
    | none =>
      Kept.ofSorted (((entryKeys α).sideBySide m.iter other.iter).filterMap mergedEntry)
    | some t => .tree (putAll smallerWins smaller.iter t)

end MapValue

/-! ### Sets -/

/-- A member of a set is its own key. -/
abbrev memberKeys (α : Type) : Keys α α Unit := ⟨id, fun _ => ()⟩

/-- A set of values. -/
abbrev SetValue (α M : Type) := Kept α M

namespace SetValue

variable [OrderedTree (memberKeys α) M]

/-- Where a value is among members, or where it would go. -/
def findMember (members : List α) (value : α) : Except Nat Nat :=
  Keys.search (fun member => compare member value) members

/-- The set of members in any order. -/
def ofUnsorted (members : List α) : SetValue α M :=
  Kept.ofSorted ((memberKeys α).dedup (fun _ earlier => earlier) ((memberKeys α).sort members))

/-- Whether the value is a member. -/
def contains (s : SetValue α M) (value : α) : Bool :=
  match s.side? with
  | some members =>
    match findMember members value with
    | .ok _ => true
    | .error _ => false
  | none => (s.tree?.map fun t => (OrderedTree.get t value).isSome).getD false

/-- The set with the value a member, whether it was or not. -/
def insert (s : SetValue α M) (value : α) : Option (SetValue α M) :=
  match s with
  | .flat members =>
    match findMember members value with
    | .ok _ => some s
    | .error i =>
      if members.length < keptFlatMost then (withAt members i value).map .flat
      else some (.tree (OrderedTree.insert value (ofList members)))
  | s =>
    if s.contains value then some s
    else some (.tree (OrderedTree.insert value (s.tree?.getD (ofList []))))

/-- The set without the value. -/
def remove (s : SetValue α M) (value : α) : Option (SetValue α M) :=
  match s with
  | .flat members =>
    match findMember members value with
    | .ok i => (withoutAt members i).map .flat
    | .error _ => some s
  | s =>
    if s.contains value then
      some (Kept.ofTree (OrderedTree.remove value (s.tree?.getD (ofList []))))
    else some s

/-- The members of either set. -/
def union (s other : SetValue α M) : SetValue α M :=
  let (larger, smaller) := Kept.bySize s other
  if smaller.isEmpty then larger
  else
    match larger.tree? with
    | none =>
      Kept.ofSorted (((memberKeys α).sideBySide s.iter other.iter).filterMap
        fun (ours, theirs) => ours.or theirs)
    | some t =>
      match putLacking t smaller.iter with
      | some t => .tree t
      | none => larger

/-- The members of both sets. -/
def intersection (s other : SetValue α M) : SetValue α M :=
  let (larger, smaller) := Kept.bySize s other
  Kept.ofSorted (smaller.iter.filter fun member => contains larger member)

/-- The members of the set that `other` does not have. -/
def difference (s other : SetValue α M) : SetValue α M :=
  match s.tree?, decide (s.len > other.len) with
  | some t, true =>
    match takeShared t other.iter with
    | some t => Kept.ofTree t
    | none => s
  | _, _ =>
    let left := s.iter.filter fun member => !other.contains member
    if left.length = s.len then s else Kept.ofSorted left

/-- The members of one of the sets and not of the other. -/
def symmetricDifference (s other : SetValue α M) : SetValue α M :=
  let (larger, smaller) := Kept.bySize s other
  if smaller.isEmpty then larger
  else
    match larger.tree? with
    | none =>
      Kept.ofSorted (((memberKeys α).sideBySide s.iter other.iter).filterMap
        fun
          | (some member, none) | (none, some member) => some member
          | _ => none)
    | some t => Kept.ofTree (toggleAll smaller.iter t)

/-- Whether `other` has every member of the set. -/
def isSubset (s other : SetValue α M) : Bool :=
  decide (s.len ≤ other.len) && s.iter.all fun member => other.contains member

end SetValue

end Silt.Collections

import Silt.Lib.Registers
import Silt.Collections.MapRefines

/-!
# Maps and sets refine functions of keys

Sequences of calls on maps, and on sets, in registers, next to the same calls on functions of keys.
Keys are told apart by their order alone: two that compare equal are one key.

## Main results

* `maps_and_sets_refine` : every sequence of calls from any maps, or from any sets, follows the
  functions.
-/

namespace Silt.Collections

open Std OrderedTree

variable {α M S : Type} [Ord α] [OrderedTree (entryKeys α) M] [OrderedTree (memberKeys α) S]

/-! ### Calls on maps -/

/-- The operations on maps, with the registers of their operands. -/
inductive MapOp (α : Type) where
  | ofLiteral (values : List α)
  | ofEntries (entries : List (α × α))
  | get (i : Nat) (key : α)
  | insert (i : Nat) (key value : α)
  | remove (i : Nat) (key : α)
  | merge (i j : Nat)
  | iter (i : Nat)
  /-- Ask an iterator that keeps the map for an entry, `n` times. -/
  | intoIter (i n : Nat)
  | len (i : Nat)

/-- What an operation on a map says. -/
inductive MapSaid (α : Type) where
  | value (a : Option α)
  | entries (entries : List (α × α))
  | taken (entries : List (Option (α × α)))
  | count (n : Nat)

/-- What is said of the function of keys: a value, or the function itself, read from its least key
on. -/
inductive MapMeant (α : Type) where
  | value (a : Option α)
  | whole (f : α → Option α)
  | first (n : Nat) (f : α → Option α)
  | size (f : α → Option α)

/-- The entries are those of the function: in strictly ascending order of their keys. -/
def Lists (entries : List (α × α)) (f : α → Option α) : Prop :=
  (entryKeys α).Ascending entries ∧ (entryKeys α).look entries = f

/-- What is said of a map is what is meant. -/
def MapSaid.Agrees : MapSaid α → MapMeant α → Prop
  | .value a, .value b => a = b
  | .entries es, .whole f => Lists es f
  | .taken as, .first n f => ∃ es, Lists es f ∧ as = (List.range n).map (es[·]?)
  | .count n, .size f => ∃ es, Lists es f ∧ n = es.length
  | _, _ => False

/-- An operation on the maps of the source. -/
def mapCall (s : Nat → MapValue α M) :
    MapOp α → Option (Except Empty (MapValue α M ⊕ MapSaid α))
  | .ofLiteral values => some (.ok (.inl (MapValue.ofLiteral values)))
  | .ofEntries entries => some (.ok (.inl (MapValue.ofUnsorted entries)))
  | .get i key => ((s i).get key).map fun a => .ok (.inr (.value a))
  | .insert i key value => ((s i).insert key value).map fun m => .ok (.inl m)
  | .remove i key => ((s i).remove key).map fun m => .ok (.inl m)
  | .merge i j => some (.ok (.inl ((s i).merge (s j))))
  | .iter i => some (.ok (.inr (.entries (s i).iter)))
  | .intoIter i n => some (.ok (.inr (.taken ((s i).intoIter.pull n))))
  | .len i => some (.ok (.inr (.count (s i).len)))

/-- The operation on functions of keys. -/
def mapMeant (t : Nat → α → Option α) : MapOp α → (α → Option α) ⊕ MapMeant α
  | .ofLiteral values =>
    .inl ((MapValue.pairs values).foldl (fun f entry => Keys.put entry.1 entry.2 f) fun _ => none)
  | .ofEntries entries =>
    .inl (entries.foldl (fun f entry => Keys.put entry.1 entry.2 f) fun _ => none)
  | .get i key => .inr (.value (t i key))
  | .insert i key value => .inl (Keys.put key value (t i))
  | .remove i key => .inl (Keys.drop key (t i))
  | .merge i j => .inl fun k => (t j k).or (t i k)
  | .iter i => .inr (.whole (t i))
  | .intoIter i n => .inr (.first n (t i))
  | .len i => .inr (.size (t i))

/-- The second is the first one, or the first one after the tree of its items was made. -/
def KeptSameButTree {T K W N : Type} [Ord K] {ks : Keys T K W} [OrderedTree ks N] :
    Kept T N → Kept T N → Prop
  | .side xs none, kept => kept = .side xs none ∨ kept = .side xs (some (ofList xs))
  | kept, kept' => kept = kept'

/-- The calls on maps and those on functions of keys. -/
def mapCalls (α M : Type) [Ord α] [OrderedTree (entryKeys α) M] :
    Calls (MapOp α) (MapValue α M) (α → Option α) (MapSaid α) (MapMeant α) Empty where
  conc := mapCall
  abst := mapMeant
  refusal _ _ := none
  Stands m f := m.WF ∧ Lists m.iter f
  Agrees := MapSaid.Agrees
  Unseen := KeptSameButTree

/-! ### Calls on sets -/

/-- The operations on sets, with the registers of their operands. -/
inductive SetOp (α : Type) where
  | ofMembers (members : List α)
  | insert (i : Nat) (value : α)
  | remove (i : Nat) (value : α)
  | union (i j : Nat)
  | intersection (i j : Nat)
  | difference (i j : Nat)
  | symmetricDifference (i j : Nat)
  | contains (i : Nat) (value : α)
  | isSubset (i j : Nat)
  | iter (i : Nat)
  /-- Ask an iterator that keeps the set for a member, `n` times. -/
  | intoIter (i n : Nat)
  | len (i : Nat)

/-- What an operation on a set says. -/
inductive SetSaid (α : Type) where
  | truth (b : Bool)
  | members (members : List α)
  | taken (members : List (Option α))
  | count (n : Nat)

/-- What is said of the predicate. -/
inductive SetMeant (α : Type) where
  | truth (p : Prop)
  | whole (f : α → Bool)
  | first (n : Nat) (f : α → Bool)
  | size (f : α → Bool)

/-- The members are those of the predicate, in strictly ascending order. -/
def Members (members : List α) (f : α → Bool) : Prop :=
  (memberKeys α).Ascending members ∧ ∀ k, ((memberKeys α).look members k).isSome = f k

/-- What is said of a set is what is meant. -/
def SetSaid.Agrees : SetSaid α → SetMeant α → Prop
  | .truth b, .truth p => b = true ↔ p
  | .members ms, .whole f => Members ms f
  | .taken as, .first n f => ∃ ms, Members ms f ∧ as = (List.range n).map (ms[·]?)
  | .count n, .size f => ∃ ms, Members ms f ∧ n = ms.length
  | _, _ => False

/-- An operation on the sets of the source. -/
def setCall (s : Nat → SetValue α S) :
    SetOp α → Option (Except Empty (SetValue α S ⊕ SetSaid α))
  | .ofMembers members => some (.ok (.inl (SetValue.ofUnsorted members)))
  | .insert i value => ((s i).insert value).map fun s => .ok (.inl s)
  | .remove i value => ((s i).remove value).map fun s => .ok (.inl s)
  | .union i j => some (.ok (.inl ((s i).union (s j))))
  | .intersection i j => some (.ok (.inl ((s i).intersection (s j))))
  | .difference i j => some (.ok (.inl ((s i).difference (s j))))
  | .symmetricDifference i j => some (.ok (.inl ((s i).symmetricDifference (s j))))
  | .contains i value => some (.ok (.inr (.truth ((s i).contains value))))
  | .isSubset i j => some (.ok (.inr (.truth ((s i).isSubset (s j)))))
  | .iter i => some (.ok (.inr (.members (s i).iter)))
  | .intoIter i n => some (.ok (.inr (.taken ((s i).intoIter.pull n))))
  | .len i => some (.ok (.inr (.count (s i).len)))

/-- The operation on predicates. -/
def setMeant (t : Nat → α → Bool) : SetOp α → (α → Bool) ⊕ SetMeant α
  | .ofMembers members => .inl fun k => members.any (compare · k == .eq)
  | .insert i value => .inl fun k => compare value k == .eq || t i k
  | .remove i value => .inl fun k => !(compare value k == .eq) && t i k
  | .union i j => .inl fun k => t i k || t j k
  | .intersection i j => .inl fun k => t i k && t j k
  | .difference i j => .inl fun k => t i k && !t j k
  | .symmetricDifference i j => .inl fun k => t i k ^^ t j k
  | .contains i value => .inr (.truth (t i value))
  | .isSubset i j => .inr (.truth (∀ k, t i k → t j k))
  | .iter i => .inr (.whole (t i))
  | .intoIter i n => .inr (.first n (t i))
  | .len i => .inr (.size (t i))

/-- The calls on sets and those on predicates. -/
def setCalls (α S : Type) [Ord α] [OrderedTree (memberKeys α) S] :
    Calls (SetOp α) (SetValue α S) (α → Bool) (SetSaid α) (SetMeant α) Empty where
  conc := setCall
  abst := setMeant
  refusal _ _ := none
  Stands s f := s.WF ∧ Members s.iter f
  Agrees := SetSaid.Agrees
  Unseen := KeptSameButTree

/-! ### One call -/

theorem answered_map {m : MapValue α M} {f : α → Option α} (h : m.Makes f) :
    (mapCalls α M).Answered none (some (.ok (.inl m))) (.inl f) :=
  ⟨.inl m, rfl, .inl ⟨h.1, Kept.ascending_iter h.1, h.2⟩⟩

theorem answered_set {s : SetValue α S} {f : α → Bool} (h : SetValue.Makes s f) :
    (setCalls α S).Answered none (some (.ok (.inl s))) (.inl f) :=
  ⟨.inl s, rfl, .inl ⟨h.1, Kept.ascending_iter h.1, h.2⟩⟩

section Sound

variable [TransOrd α]

theorem mapCalls_sound : (mapCalls α M).Sound := by
  intro s t op h
  have hwf i : (s i).WF := (h i).1
  obtain rfl : (fun i => (s i).look) = t := funext fun i => (h i).2.2
  have hl i : Lists (s i).iter (s i).look := (h i).2
  change (mapCalls α M).Answered none (mapCall s op) (mapMeant (fun i => (s i).look) op)
  cases op with
  | ofLiteral values => exact answered_map (MapValue.ofUnsorted_makes _)
  | ofEntries entries => exact answered_map (MapValue.ofUnsorted_makes entries)
  | get i key =>
    rw [mapCall, MapValue.get_eq (hwf i)]
    exact ⟨_, rfl, .inr rfl⟩
  | insert i key value =>
    obtain ⟨made, hmd, hm⟩ := MapValue.insert_makes (hwf i) key value
    rw [mapCall, hmd]
    exact answered_map hm
  | remove i key =>
    obtain ⟨made, hmd, hm⟩ := MapValue.remove_makes (hwf i) key
    rw [mapCall, hmd]
    exact answered_map hm
  | merge i j => exact answered_map (MapValue.merge_makes (hwf i) (hwf j))
  | iter i => exact ⟨_, rfl, .inr (hl i)⟩
  | intoIter i n => exact ⟨_, rfl, .inr ⟨_, hl i, Kept.pull_intoIter (s i) n⟩⟩
  | len i => exact ⟨_, rfl, .inr ⟨_, hl i, Kept.len_eq (s i)⟩⟩

theorem setCalls_sound : (setCalls α S).Sound := by
  intro s t op h
  have hwf i : (s i).WF := (h i).1
  obtain rfl : (fun i k => ((s i).look k).isSome) = t := funext fun i => funext fun k => (h i).2.2 k
  have hm i : Members (s i).iter fun k => ((s i).look k).isSome := (h i).2
  change (setCalls α S).Answered none (setCall s op)
    (setMeant (fun i k => ((s i).look k).isSome) op)
  cases op with
  | ofMembers members => exact answered_set (SetValue.ofUnsorted_makes members)
  | insert i value =>
    obtain ⟨made, hmd, hmk⟩ := SetValue.insert_makes (hwf i) value
    rw [setCall, hmd]
    exact answered_set hmk
  | remove i value =>
    obtain ⟨made, hmd, hmk⟩ := SetValue.remove_makes (hwf i) value
    rw [setCall, hmd]
    exact answered_set hmk
  | union i j => exact answered_set (SetValue.union_makes (hwf i) (hwf j))
  | intersection i j => exact answered_set (SetValue.intersection_makes (hwf i) (hwf j))
  | difference i j => exact answered_set (SetValue.difference_makes (hwf i) (hwf j))
  | symmetricDifference i j =>
    exact answered_set (SetValue.symmetricDifference_makes (hwf i) (hwf j))
  | contains i value =>
    refine ⟨_, rfl, .inr ?_⟩
    change (s i).contains value = true ↔ _
    rw [SetValue.contains_eq (hwf i)]
  | isSubset i j => exact ⟨_, rfl, .inr (SetValue.isSubset_iff (hwf i) (hwf j))⟩
  | iter i => exact ⟨_, rfl, .inr (hm i)⟩
  | intoIter i n => exact ⟨_, rfl, .inr ⟨_, hm i, Kept.pull_intoIter (s i) n⟩⟩
  | len i => exact ⟨_, rfl, .inr ⟨_, hm i, Kept.len_eq (s i)⟩⟩

end Sound

/-! ### Sequences of calls -/

/-- What is kept stays well formed, and has the same items, when its tree is made. -/
theorem wf_of_keptSameButTree {T K W N : Type} [Ord K] {ks : Keys T K W} [OrderedTree ks N]
    {kept kept' : Kept T N} (h : KeptSameButTree kept kept') (hwf : kept.WF) :
    kept'.WF ∧ kept'.iter = kept.iter := by
  match kept, h with
  | .side xs none, h =>
    rcases h with rfl | rfl
    · exact ⟨hwf, rfl⟩
    · refine ⟨⟨hwf.1, ?_⟩, rfl⟩
      rintro - ⟨⟩
      exact look_ofList hwf.1
  | .side _ (some _), h | .flat _, h | .tree _, h =>
    obtain rfl := h
    exact ⟨hwf, rfl⟩

/-- **Maps and sets refine functions of keys.**  From any well-formed maps, or sets, each call of a
sequence of calls gives what it gives on the functions of their keys, whatever they are kept as and
whenever trees are made of items side by side; none stops; and the entries of each map, and the
members of each set, are in strictly ascending order. -/
theorem maps_and_sets_refine [TransOrd α] :
    (∀ (s : Nat → MapValue α M), (∀ i, (s i).WF) → ∀ ops,
      (mapCalls α M).Follows s (fun i => (s i).look) ops) ∧
    ∀ (s : Nat → SetValue α S), (∀ i, (s i).WF) → ∀ ops,
      (setCalls α S).Follows s (fun i k => ((s i).look k).isSome) ops := by
  refine ⟨fun s h ops => ?_, fun s h ops => ?_⟩
  · refine Calls.follows mapCalls_sound (fun hu hs => ?_) ops fun i =>
      ⟨h i, Kept.ascending_iter (h i), rfl⟩
    obtain ⟨hwf, hi⟩ := wf_of_keptSameButTree hu hs.1
    exact ⟨hwf, by rw [hi]; exact hs.2⟩
  · refine Calls.follows setCalls_sound (fun hu hs => ?_) ops fun i =>
      ⟨h i, Kept.ascending_iter (h i), fun _ => rfl⟩
    obtain ⟨hwf, hi⟩ := wf_of_keptSameButTree hu hs.1
    exact ⟨hwf, by rw [hi]; exact hs.2⟩

/-- Registers that hold forty entries, or members, side by side: a map is changed, which makes a
tree of it, merged and read; a set is changed, united with another and compared with it. -/
theorem maps_and_sets_refine_forty :
    let m : MapValue Nat (SortedList (entryKeys Nat)) :=
      .side ((List.range 40).map fun n => (n, n)) none
    let s : SetValue Nat (SortedList (memberKeys Nat)) := .side (List.range 40) none
    (mapCalls Nat (SortedList (entryKeys Nat))).Follows (fun _ => m) (fun _ => m.look)
      [(.insert 0 50 1, 1), (.remove 1 3, 2), (.merge 2 0, 3), (.iter 3, 0)] ∧
    (setCalls Nat (SortedList (memberKeys Nat))).Follows (fun _ => s)
      (fun _ k => (s.look k).isSome)
      [(.insert 0 50, 1), (.remove 1 3, 2), (.union 2 0, 3), (.isSubset 3 1, 0)] := by
  intro m s
  have hb := maps_and_sets_refine (α := Nat) (M := SortedList (entryKeys Nat))
    (S := SortedList (memberKeys Nat))
  have ha : (List.range 40).Pairwise fun a b => compare a b = .lt :=
    List.pairwise_lt_range.imp Nat.compare_eq_lt.mpr
  exact ⟨hb.1 (fun _ => m) (fun _ => ⟨List.pairwise_map.mpr ha, nofun⟩) _,
    hb.2 (fun _ => s) (fun _ => ⟨ha, nofun⟩) _⟩

end Silt.Collections

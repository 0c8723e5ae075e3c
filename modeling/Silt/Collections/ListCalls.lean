import Silt.Lib.Registers
import Silt.Collections.ListRefines

/-!
# Lists refine sequences

Sequences of calls on lists in registers, next to the same calls on plain sequences.  Whatever the
lists in the registers are stored as, each call gives what it gives on their sequences; it is
refused exactly where a range of too many Ints would have to be written out or counted; and no list
changes but in the register the call fills.

## Main results

* `lists_refine_sequences` : every sequence of calls from any lists follows the sequences.
-/

namespace Silt.Collections

open Element Sequence

variable {α V : Type} [Element α] [Sequence V α]

variable {l : ListValue α V} {xs : List α}

/-- The operations on lists, with the registers of their operands. -/
inductive ListOp (α : Type) where
  | ints (lo hi : Int64)
  | ofVec (xs : List α)
  | fromIter (exact : Bool) (xs : List α)
  | get (i index : Nat)
  /-- Ask an iterator time after time, for an element from the front (`true`) or from the back. -/
  | iter (i : Nat) (script : List Bool)
  /-- Ask an iterator that keeps the list for an element, `n` times. -/
  | intoIter (i n : Nat)
  | slice (i first last : Nat)
  | concat (i j : Nat)
  | pushFront (i : Nat) (a : α)
  | pushBack (i : Nat) (a : α)
  | set (i index : Nat) (a : α)
  | removeAt (i index : Nat)
  | contains (i : Nat) (a : α)
  | position (i : Nat) (a : α)
  | sorted (i : Nat)
  | unique (i : Nat)
  | runs (i : Nat)
  | toVec (i : Nat)

/-- What an operation says that makes no list. -/
inductive Said (α : Type) where
  | value (a : Option α)
  | values (as : List (Option α))
  | items (as : List α)
  | index (i : Option Nat)
  | truth (b : Bool)
  /-- There is no element there. -/
  | nothing
  /-- The runs of the elements held, and the ends of a list that holds none. -/
  | runs (runs : List (List α)) (ends : Option (Int64 × Int64))

/-- The Ints from `lo` to `hi`, both included. -/
def intsBetween (lo hi : Int64) : List α :=
  (List.range (hi.toInt - lo.toInt + 1).toNat).map fun k : Nat => int (Int64.ofInt (lo.toInt + k))

/-- What is said of a list and what is said of the sequence are the same, and the runs of a list are
its sequence cut into parts that are not empty, or the ends of its Ints. -/
def Said.Agrees : Said α → Said α → Prop
  | .runs rs none, .items xs => rs.flatten = xs ∧ ∀ run ∈ rs, run ≠ []
  | .runs rs (some (lo, hi)), .items xs => rs = [] ∧ xs = intsBetween lo hi
  | said, said' => said = said'

/-- An operation on the lists of the source. -/
def listCall (s : Nat → ListValue α V) :
    ListOp α → Option (Except TooLong (ListValue α V ⊕ Said α))
  | .ints lo hi => (ListValue.ofInts lo hi).map (·.map .inl)
  | .ofVec xs => (ListValue.ofVec xs).map fun l => .ok (.inl l)
  | .fromIter exact xs => (ListValue.fromIter exact xs).map fun l => .ok (.inl l)
  | .get i index => ((s i).get index).map fun a => .ok (.inr (.value a))
  | .iter i script => (s i).iter.map fun it => .ok (.inr (.values (it.pull script)))
  | .intoIter i n => ((s i).intoIter.pull n).map fun as => .ok (.inr (.values as))
  | .slice i first last => ((s i).slice first last).map fun l => .ok (.inl l)
  | .concat i j => ((s i).concat (s j)).map (·.map .inl)
  | .pushFront i a => ((s i).pushFront a).map (·.map .inl)
  | .pushBack i a => ((s i).pushBack a).map (·.map .inl)
  | .set i index a => ((s i).set index a).map (·.map fun l => (l.map .inl).getD (.inr .nothing))
  | .removeAt i index =>
    ((s i).removeAt index).map (·.map fun l => (l.map .inl).getD (.inr .nothing))
  | .contains i a => ((s i).contains a).map fun b => .ok (.inr (.truth b))
  | .position i a => ((s i).position a).map fun k => .ok (.inr (.index k))
  | .sorted i => (s i).sorted.map fun l => .ok (.inl l)
  | .unique i => (s i).unique.map fun l => .ok (.inl l)
  | .runs i => (s i).runs.map fun rs => .ok (.inr (.runs rs.collect (s i).rangeEnds))
  | .toVec i => (s i).toVec.map (·.map fun xs => .inr (.items xs))

/-- The operation on plain sequences. -/
def seqCall (t : Nat → List α) : ListOp α → List α ⊕ Said α
  | .ints lo hi => .inl (intsBetween lo hi)
  | .ofVec xs => .inl xs
  | .fromIter _ xs => .inl xs
  | .get i index => .inr (.value (t i)[index]?)
  | .iter i script => .inr (.values (pulled script (t i)))
  | .intoIter i n => .inr (.values ((List.range n).map ((t i)[·]?)))
  | .slice i first last => .inl (((t i).take last).drop first)
  | .concat i j => .inl (t i ++ t j)
  | .pushFront i a => .inl (a :: t i)
  | .pushBack i a => .inl (t i ++ [a])
  | .set i index a =>
    if index < (t i).length then .inl ((t i).set index a) else .inr .nothing
  | .removeAt i index =>
    if index < (t i).length then .inl ((t i).eraseIdx index) else .inr .nothing
  | .contains i a => .inr (.truth ((t i).any (ListValue.same · a)))
  | .position i a => .inr (.index ((t i).findIdx? (ListValue.same · a)))
  | .sorted i => .inl (ListValue.inOrder (t i))
  | .unique i => .inl (ListValue.firsts (t i))
  | .runs i => .inr (.items (t i))
  | .toVec i => .inr (.items (t i))

/-- The refusal to write out a list: it is a range of more than 10,000,000 Ints. -/
def writeRefusal {β W : Type} : ListValue β W → Option TooLong
  | .ints lo hi =>
    if 10000000 < hi.toInt - lo.toInt + 1 then some ⟨lo, hi, maxCollectionLen⟩ else none
  | _ => none

/-- Why an operation is refused: the range asked for has more Ints than a `usize` counts, or an
operand that would have to be written out is a range of too many. -/
def listRefusal (s : Nat → ListValue α V) : ListOp α → Option TooLong
  | .ints lo hi =>
    if 2 ^ 64 ≤ hi.toInt - lo.toInt + 1 then some ⟨lo, hi, maxLen⟩ else none
  | .concat i j => (writeRefusal (s i)).or (writeRefusal (s j))
  | .pushFront i _ | .pushBack i _ | .toVec i => writeRefusal (s i)
  | .set i index _ | .removeAt i index => if index < (s i).len then writeRefusal (s i) else none
  | _ => none

/-- The second list is the first one, or the first one after the tree of its elements was made. -/
def SameButTree : ListValue α V → ListValue α V → Prop
  | .long (.side xs none) start n, l =>
    l = .long (.side xs none) start n ∨ l = .long (.side xs (some (collect xs))) start n
  | l, l' => l = l'

/-- The calls on lists and those on sequences. -/
def listCalls (α V : Type) [Element α] [Sequence V α] :
    Calls (ListOp α) (ListValue α V) (List α) (Said α) (Said α) TooLong where
  conc := listCall
  abst := seqCall
  refusal := listRefusal
  Stands l xs := l.WF ∧ l.toSeq = xs
  Agrees := Said.Agrees
  Unseen := SameButTree

/-! ### One call -/

theorem intsBetween_eq {lo hi : Int64} (h : lo.toInt ≤ hi.toInt) :
    (intsBetween lo hi : List α) = intsFrom lo (absDiff hi lo + 1) := by
  have hl : (hi.toInt - lo.toInt + 1).toNat = absDiff hi lo + 1 := by
    rw [absDiff]
    omega
  rw [intsBetween, intsFrom, hl]
  refine List.map_congr_left fun k _ => ?_
  rw [nth, Int64.ofInt_add, Int64.ofInt_toInt]
  rfl

theorem intsBetween_of_lt {lo hi : Int64} (h : hi.toInt < lo.toInt) :
    (intsBetween lo hi : List α) = [] := by
  rw [intsBetween, Int.toNat_of_nonpos (by omega)]
  rfl

theorem writable_eq {β W : Type} [Sequence W β] {l : ListValue β W} (h : l.WF) :
    l.writable = match writeRefusal l with
      | some e => .error e
      | none => .ok () := by
  match l, h with
  | .items .., _ | .long .., _ => rfl
  | .ints lo hi, h =>
    have hle := h.1
    have hm : absDiff hi lo ≥ maxCollectionLen ↔ 10000000 < hi.toInt - lo.toInt + 1 := by
      rw [absDiff, maxCollectionLen]
      omega
    simp only [ListValue.writable, writeRefusal, hm]
    split_ifs <;> rfl

theorem ofInts_spec (lo hi : Int64) :
    if 2 ^ 64 ≤ hi.toInt - lo.toInt + 1 then
      (ListValue.ofInts lo hi : Option (Except TooLong (ListValue α V))) =
        some (.error ⟨lo, hi, maxLen⟩)
    else ListValue.Gives (V := V) (ListValue.ofInts lo hi) (intsBetween lo hi : List α) := by
  rw [ListValue.ofInts]
  split_ifs with hm hlt hf hlt hf
  · omega
  · rw [absDiff, maxLen] at hf
    omega
  · rfl
  · rw [intsBetween_of_lt hlt]
    exact (ListValue.ofVec_makes []).gives
  · have hle : lo.toInt ≤ hi.toInt := by omega
    exact ⟨_, rfl, ⟨hle, hf⟩, (intsBetween_eq hle).symm⟩
  · rw [absDiff, maxLen] at hf
    omega

theorem answered_made {made : Option (ListValue α V)} (h : ListValue.Makes made xs) :
    (listCalls α V).Answered none (made.map fun l => .ok (.inl l)) (.inl xs) := by
  obtain ⟨l, rfl, hl⟩ := h
  exact ⟨.inl l, rfl, .inl hl⟩

theorem answered_given {refusal : Option TooLong} {made : Option (Except TooLong (ListValue α V))}
    (hr : ∀ e, refusal = some e → made = some (.error e))
    (hg : refusal = none → ListValue.Gives made xs) :
    (listCalls α V).Answered refusal (made.map (·.map .inl)) (.inl xs) := by
  cases refusal with
  | some e => exact congrArg _ (hr e rfl)
  | none =>
    obtain ⟨l, rfl, hl⟩ := hg rfl
    exact ⟨.inl l, rfl, .inl hl⟩

/-- A change of one element is refused only if the list has the element and cannot be written out.
-/
theorem answered_changed (h : l.WF) {index : Nat}
    {made : Option (Except TooLong (Option (ListValue α V)))}
    (hn : l.len ≤ index → made = some (.ok none))
    (hrf : ∀ e, index < l.len → l.writable = .error e → made = some (.error e))
    (hg : index < l.toSeq.length → l.writable = .ok () → ListValue.GivesSome made xs) :
    (listCalls α V).Answered (if index < l.len then writeRefusal l else none)
      (made.map (·.map fun l => (l.map .inl).getD (.inr .nothing)))
      (if index < l.toSeq.length then .inl xs else .inr .nothing) := by
  rw [← ListValue.len_eq h] at hg ⊢
  have hw := writable_eq h
  split_ifs with hin
  · cases hr : writeRefusal l with
    | some e =>
      rw [hr] at hw
      exact congrArg _ (hrf e hin hw)
    | none =>
      rw [hr] at hw
      obtain ⟨made, rfl, hl⟩ := hg hin hw
      exact ⟨.inl made, rfl, .inl hl⟩
  · rw [hn (not_lt.mp hin)]
    exact ⟨.inr .nothing, rfl, .inr rfl⟩

theorem answered_written (h : l.WF) {made : Option (Except TooLong (ListValue α V))}
    (hr : ∀ e, l.writable = .error e → made = some (.error e))
    (hg : l.writable = .ok () → ListValue.Gives made xs) :
    (listCalls α V).Answered (writeRefusal l) (made.map (·.map .inl)) (.inl xs) := by
  have hw := writable_eq h
  refine answered_given (fun e he => ?_) fun hn => ?_
  · rw [he] at hw
    exact hr e hw
  · rw [hn] at hw
    exact hg hw

theorem runs_agrees (h : l.WF) :
    ∃ rs, l.runs = some rs ∧ (Said.runs rs.collect l.rangeEnds).Agrees (.items l.toSeq) := by
  obtain ⟨rs, hrs, hne, hf⟩ := ListValue.runs_spec h
  refine ⟨rs, hrs, ?_⟩
  match l, h with
  | .items .., _ | .long .., _ => exact ⟨hf, hne⟩
  | .ints lo hi, h =>
    refine ⟨List.eq_nil_iff_forall_not_mem.mpr fun run hr => hne run hr ?_,
      (intsBetween_eq h.1).symm⟩
    exact List.flatten_eq_nil_iff.mp hf run hr

/-- Each call alone, from registers that hold well-formed lists. -/
theorem listCalls_sound : (listCalls α V).Sound := by
  intro s t op h
  obtain rfl : (fun i => (s i).toSeq) = t := funext fun i => (h i).2
  have hwf i : (s i).WF := (h i).1
  change (listCalls α V).Answered (listRefusal s op) (listCall s op)
    (seqCall (fun i => (s i).toSeq) op)
  cases op with
  | ints lo hi =>
    have hin := ofInts_spec (α := α) (V := V) lo hi
    refine answered_given (fun e he => ?_) fun hn => ?_
    · simp only [listRefusal] at he
      split_ifs at he hin
      rw [hin, Option.some.inj he]
    · simp only [listRefusal] at hn
      split_ifs at hn hin
      exact hin
  | ofVec xs => exact answered_made (ListValue.ofVec_makes xs)
  | fromIter exact xs => exact answered_made (ListValue.fromIter_makes exact xs)
  | get i index =>
    rw [listCall, ListValue.get_eq (hwf i)]
    exact ⟨_, rfl, .inr rfl⟩
  | iter i script =>
    obtain ⟨it, hit, hel⟩ := ListValue.iter_spec (hwf i)
    rw [listCall, hit]
    exact ⟨_, rfl, .inr (by rw [it.pull_eq, hel]; rfl)⟩
  | intoIter i n =>
    obtain ⟨hwf', hel⟩ := ListValue.intoIter_spec (hwf i)
    rw [listCall, IntoIter.pull_eq n hwf', hel]
    exact ⟨_, rfl, .inr rfl⟩
  | slice i first last => exact answered_made (ListValue.slice_makes (hwf i) first last)
  | concat i j =>
    have hi := writable_eq (hwf i)
    have hj := writable_eq (hwf j)
    refine answered_given (fun e he => ?_) fun hn => ?_
    · simp only [listRefusal] at he
      cases hri : writeRefusal (s i) with
      | some e' =>
        rw [hri] at hi he
        obtain rfl : e' = e := by simpa using he
        simp only [ListValue.concat, hi]
      | none =>
        rw [hri] at hi he
        rw [Option.none_or] at he
        rw [he] at hj
        simp only [ListValue.concat, hi, hj]
    · obtain ⟨hri, hrj⟩ := Option.or_eq_none_iff.mp hn
      rw [hri] at hi
      rw [hrj] at hj
      exact ListValue.concat_gives (hwf i) (hwf j) hi hj
  | pushFront i a =>
    refine answered_written (hwf i) (fun e he => ?_) fun hw =>
      ListValue.pushFront_gives (hwf i) hw a
    rw [ListValue.pushFront, he]
  | pushBack i a =>
    refine answered_written (hwf i) (fun e he => ?_) fun hw => ListValue.pushBack_gives (hwf i) hw a
    rw [ListValue.pushBack, he]
  | set i index a =>
    refine answered_changed (hwf i) (fun hl => if_pos hl) (fun e hlt he => ?_)
      fun hlt hw => ListValue.set_gives (hwf i) hw hlt a
    rw [ListValue.set, if_neg (by omega), he]
  | removeAt i index =>
    refine answered_changed (hwf i) (fun hl => if_pos hl) (fun e hlt he => ?_)
      fun hlt hw => ListValue.removeAt_gives (hwf i) hw hlt
    rw [ListValue.removeAt, if_neg (by omega), he]
  | contains i a =>
    rw [listCall, ListValue.contains, ListValue.position_eq (hwf i)]
    exact ⟨_, rfl, .inr (congrArg Said.truth (by simp [List.findIdx?_isSome]))⟩
  | position i a =>
    rw [listCall, ListValue.position_eq (hwf i)]
    exact ⟨_, rfl, .inr rfl⟩
  | sorted i => exact answered_made (ListValue.sorted_makes (hwf i))
  | unique i => exact answered_made (ListValue.unique_makes (hwf i))
  | runs i =>
    obtain ⟨rs, hrs, ha⟩ := runs_agrees (hwf i)
    rw [listCall, hrs]
    exact ⟨_, rfl, .inr ha⟩
  | toVec i =>
    have hi := writable_eq (hwf i)
    rw [listCall, ListValue.toVec_eq (hwf i), hi, listRefusal]
    cases writeRefusal (s i) with
    | some e => rfl
    | none => exact ⟨_, rfl, .inr rfl⟩

/-! ### Sequences of calls -/

theorem stands_of_sameButTree {l' : ListValue α V} (h : SameButTree l l')
    (hl : l.WF ∧ l.toSeq = xs) : l'.WF ∧ l'.toSeq = xs := by
  match l, h with
  | .long (.side items none) start n, h =>
    rcases h with rfl | rfl
    · exact hl
    · refine ⟨⟨hl.1.1, ?_⟩, hl.2⟩
      rintro - ⟨⟩
      exact toList_collect items
  | .long (.side _ (some _)) _ _, h | .long (.tree _) _ _, h | .items .., h | .ints .., h =>
    obtain rfl := h
    exact hl

/-- **Lists refine sequences.**  From any well-formed lists, each call of a sequence of calls gives
what it gives on the sequences of their elements, whatever they are stored as and whenever the trees
of lists made in one go are made; none stops at an index outside its storage; and a call is refused
exactly if the range asked for has no `usize` as its length, or a range of more than 10,000,000 Ints
would have to be written out. -/
theorem lists_refine_sequences (s : Nat → ListValue α V) (h : ∀ i, (s i).WF)
    (ops : List (ListOp α × Nat)) :
    (listCalls α V).Follows s (fun i => (s i).toSeq) ops :=
  Calls.follows listCalls_sound stands_of_sameButTree ops fun i => ⟨h i, rfl⟩

/-- The Ints alone are values. -/
instance : Element Int64 where
  int := id
  int? := some
  cmp a b := compare a.toInt b.toInt
  int?_int _ := rfl
  eq_int_of_int? h := Option.some.inj h
  trans_cmp := inferInstanceAs (Std.TransCmp (compareOn Int64.toInt))
  cmp_int _ _ := rfl
  int?_of_cmp h := congrArg some (Int64.toInt_inj.mp (compare_eq_iff_eq.mp h)).symm

/-- Registers that hold the range of five Ints: it is joined to its own rest, cut, and read. -/
theorem lists_refine_sequences_range :
    (listCalls Int64 (OneLeaf Int64)).Follows (fun _ => .ints 1 5) (fun _ => [1, 2, 3, 4, 5])
      [(.slice 0 1 9, 1), (.concat 0 1, 2), (.removeAt 2 0, 3), (.iter 3 [true, false], 0)] :=
  lists_refine_sequences (fun _ => .ints 1 5) (fun _ => ⟨by decide, by decide⟩) _

end Silt.Collections

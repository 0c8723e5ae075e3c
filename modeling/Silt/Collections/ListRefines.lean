import Silt.Collections.ListReads

/-!
# Lists made from lists, as sequences

Each operation of the source that makes a list makes one of the elements that the operation on
sequences gives, however the lists it is made from are stored, and each question about the elements
is answered as it is about the sequence.

## Main definitions

* `ListValue.Makes` : an operation ends, with a well-formed list of the given elements.

## Main results

* `ListValue.slice_makes`, `ListValue.concat_gives`, `ListValue.set_gives` and their like : the
  changes.
* `ListValue.position_eq`, `ListValue.sorted_makes`, `ListValue.unique_makes` : the questions.
-/

namespace Silt.Collections

open List Option Bool

open Element Sequence

variable {α V : Type} [Element α] [Sequence V α]

namespace ListValue

variable {xs : List α} {l : ListValue α V} {lo hi : Int64}

/-- The operation ends, with a well-formed list of the elements `xs`. -/
def Makes (made : Option (ListValue α V)) (xs : List α) : Prop :=
  ∃ l, made = some l ∧ l.WF ∧ l.toSeq = xs

/-! ### Lists made in one go -/

theorem flat_makes (h : xs.length < 2 ^ 32) : Makes (V := V) (flat xs) xs := by
  refine ⟨.items xs 0 xs.length, ?_, ⟨by simp, h⟩, by simp [toSeq]⟩
  rw [flat, ofBuf, if_pos ⟨by decide, h⟩]

theorem ofVec_makes (xs : List α) : Makes (V := V) (ofVec xs) xs := by
  rw [ofVec]
  split_ifs with h
  · exact flat_makes (h.trans_lt (by decide))
  · exact ⟨_, rfl, ⟨by simp [LongItems.toSeq], nofun⟩, by simp [toSeq, LongItems.toSeq]⟩

theorem fromIter_makes (exact : Bool) (xs : List α) : Makes (V := V) (fromIter exact xs) xs := by
  rw [fromIter]
  split_ifs with h
  · simp only [and_eq_true, decide_eq_true_eq] at h
    exact flat_makes (h.2.trans_lt (by decide))
  · exact ofVec_makes xs

@[simp]
theorem toSeq_ofTree (t : V) : (ofTree t : ListValue α V).toSeq = toList t := by
  simp [ofTree, toSeq, LongItems.toSeq]

/-! ### Lists made from lists -/

theorem writeInto_eq (h : l.WF) (xs : List α) : l.writeInto xs = some (xs ++ l.toSeq) := by
  cases l with
  | ints lo hi => rfl
  | items buf start n | long body start n =>
    obtain ⟨rs, hrs, hf⟩ := runs_of_held h rfl
    simp [writeInto, hrs, hf]

theorem toVec_eq (h : l.WF) : l.toVec = some (l.writable.map fun _ => l.toSeq) := by
  rw [toVec, writeInto_eq h]
  cases l.writable <;> rfl

theorem toTree_spec (h : l.WF) : ∃ t, l.toTree = some t ∧ toList t = l.toSeq := by
  match l, h with
  | .long (.tree t) start n, h => exact partOf_spec t start n h.1
  | .long (.side xs cached) start n, h =>
    have hc : toList (cached.getD (collect xs)) = xs := by
      cases cached with
      | none => simp
      | some t => exact h.2 t rfl
    obtain ⟨part, hp, hl⟩ := partOf_spec (cached.getD (collect xs)) start n (by rw [hc]; exact h.1)
    exact ⟨part, hp, by rw [hl, hc]; rfl⟩
  | .items _ _ _, h | .ints _ _, h =>
    obtain ⟨it, hit, he⟩ := iter_spec h
    exact ⟨collect it.collect, by simp [toTree, hit], by simp [Iter.collect_eq, he]⟩

theorem ints_part (h : WF (.ints lo hi : ListValue α V)) {first last : Nat} (hlt : first < last)
    (hl : last ≤ absDiff hi lo + 1) :
    Makes (V := V) (some (.ints (nth lo first) (nth lo (last - 1))))
      (((intsFrom lo (absDiff hi lo + 1)).take last).drop first : List α) := by
  have hf := toInt_nth_of_lt h.1 (i := first) (by omega)
  have he := toInt_nth_of_lt h.1 (i := last - 1) (by omega)
  have hd : absDiff (nth lo (last - 1)) (nth lo first) + 1 = last - first := by
    rw [absDiff, hf, he]
    omega
  refine ⟨_, rfl, ⟨by omega, ?_⟩, ?_⟩
  · have := h.2
    omega
  · rw [toSeq, hd, drop_take_intsFrom lo hl]

theorem flatFor_le {β W : Type} {l : ListValue β W} {n : Nat} (h : flatFor n l) : n ≤ flatMost := by
  match l with
  | .long (.tree _) _ _ => exact (of_decide_eq_true h).trans (by decide)
  | .long (.side _ _) _ _ | .items _ _ _ | .ints _ _ => exact of_decide_eq_true h

theorem part_makes (h : l.WF) {first last : Nat} (hlt : first < last) (hle : last ≤ l.len) :
    Makes (l.part first last) ((l.toSeq.take last).drop first) := by
  match l, h with
  | .items buf start n, ⟨hin, hb⟩ =>
    rw [toSeq, part_of_part _ _ _ (by exact hle), part]
    simp only [len] at hle
    split_ifs with hq
    · rw [sliceOf_eq (by omega) (by omega)]
      exact flat_makes (by simp only [length_drop, length_take]; omega)
    · refine ⟨.items buf (start + first) (last - first), if_pos ⟨by omega, by omega⟩,
        ⟨by omega, hb⟩, ?_⟩
      rw [toSeq, Nat.add_assoc, Nat.add_sub_cancel' hlt.le]
  | .long body start n, h =>
    have hin := h.1
    unfold part
    dsimp only
    split_ifs with hq
    · cases hf : flatFor (last - first) (.long body start n) with
      | true =>
        obtain ⟨it, hit, he⟩ := iterPart_spec h hlt.le (hle.trans (len_eq h).le)
        have hfw := flatFor_le hf
        have hln : it.elems.length = last - first := by
          simp only [he, length_drop, length_take, ← len_eq h]
          omega
        rw [hit, ← he, ← it.collect_eq]
        exact flat_makes (by rw [it.collect_eq, hln]; exact hfw.trans_lt (by decide))
      | false =>
        rw [toSeq, part_of_part _ _ _ (by exact hle)]
        simp only [len] at hle
        cases body with
        | side xs cached =>
          simp only [LongItems.toSeq] at hin
          dsimp only
          rw [sliceOf_eq (by omega) (by omega)]
          exact ofVec_makes _
        | tree t =>
          simp only [LongItems.toSeq] at hin
          obtain ⟨part, hp, hl⟩ := partOf_spec t (start + first) (last - first) (by omega)
          refine ⟨ofTree part, congrArg (Option.map ofTree) hp, ofTree_wf part, ?_⟩
          rw [toSeq_ofTree, hl, Nat.add_assoc, Nat.add_sub_cancel' hlt.le]
          rfl
    · simp only [len] at hle
      refine ⟨.long body (start + first) (last - first), rfl, ⟨by omega, h.2⟩, ?_⟩
      rw [toSeq, toSeq, part_of_part _ _ _ hle, Nat.add_assoc, Nat.add_sub_cancel' hlt.le]
  | .ints lo hi, h => exact ints_part h hlt hle

theorem slice_makes (h : l.WF) (first last : Nat) :
    Makes (l.slice first last) ((l.toSeq.take last).drop first) := by
  rw [← part_min, ← len_eq h, slice]
  split_ifs with he
  · rw [he, drop_eq_nil_of_le (by simp)]
    exact ofVec_makes []
  · exact part_makes h (by omega) (by omega)

/-- The operation ends and is not refused, with a well-formed list of the elements `xs`. -/
def Gives (made : Option (Except TooLong (ListValue α V))) (xs : List α) : Prop :=
  ∃ l, made = some (.ok l) ∧ l.WF ∧ l.toSeq = xs

theorem Makes.gives {made : Option (ListValue α V)} (h : Makes made xs) :
    Gives (do return .ok (← made)) xs := by
  obtain ⟨l, rfl, hl⟩ := h
  exact ⟨l, rfl, hl⟩

theorem joinedTree_spec {other : ListValue α V} (h : l.WF) (h' : other.WF) :
    ∃ t, l.joinedTree other = some t ∧ toList t = l.toSeq ++ other.toSeq := by
  obtain ⟨t, ht, hl⟩ := toTree_spec h
  obtain ⟨t', ht', hl'⟩ := toTree_spec h'
  obtain ⟨it, hit, he⟩ := iter_spec h
  obtain ⟨it', hit', he'⟩ := iter_spec h'
  unfold joinedTree
  split_ifs
  · refine ⟨_, by rw [ht', hit]; rfl, ?_⟩
    rw [toList_foldl_pushFront, it.rev_eq, reverse_reverse, he, hl']
  · refine ⟨_, by rw [ht, hit']; rfl, ?_⟩
    rw [toList_foldl_pushBack, it'.collect_eq, he', hl]
  simp_all

theorem concat_gives {other : ListValue α V} (h : l.WF) (h' : other.WF) (hw : l.writable = .ok ())
    (hw' : other.writable = .ok ()) : Gives (l.concat other) (l.toSeq ++ other.toSeq) := by
  simp only [concat, hw, hw']
  split_ifs with hn hn'
  · exact ⟨l, rfl, h, by rw [(isEmpty_iff h').mp hn, append_nil]⟩
  · exact ⟨other, rfl, h', by rw [(isEmpty_iff h).mp hn', nil_append]⟩
  · rw [writeInto_eq h, nil_append]
    change Gives (do let xs ← other.writeInto l.toSeq; return .ok (← ofVec xs)) _
    rw [writeInto_eq h']
    exact (ofVec_makes _).gives
  · obtain ⟨t, ht, hl⟩ := joinedTree_spec h h'
    rw [ht]
    exact ⟨ofTree t, rfl, ofTree_wf t, by rw [toSeq_ofTree, hl]⟩

theorem pushFront_gives (h : l.WF) (hw : l.writable = .ok ()) (a : α) :
    Gives (l.pushFront a) (a :: l.toSeq) := by
  simp only [pushFront, hw]
  split_ifs
  · rw [writeInto_eq h]
    exact (ofVec_makes _).gives
  · obtain ⟨t, ht, hl⟩ := toTree_spec h
    rw [ht]
    exact ⟨ofTree _, rfl, ofTree_wf _, by rw [toSeq_ofTree, toList_pushFront, hl]⟩

theorem pushBack_gives (h : l.WF) (hw : l.writable = .ok ()) (a : α) :
    Gives (l.pushBack a) (l.toSeq ++ [a]) := by
  simp only [pushBack, hw]
  split_ifs
  · rw [writeInto_eq h]
    exact (ofVec_makes _).gives
  · obtain ⟨t, ht, hl⟩ := toTree_spec h
    rw [ht]
    exact ⟨ofTree _, rfl, ofTree_wf _, by rw [toSeq_ofTree, toList_pushBack, hl]⟩

/-- The operation ends and is not refused, with a well-formed list of the elements `xs`, or with no
list. -/
def GivesSome (made : Option (Except TooLong (Option (ListValue α V)))) (xs : List α) : Prop :=
  ∃ l, made = some (.ok (some l)) ∧ l.WF ∧ l.toSeq = xs

theorem set_gives (h : l.WF) (hw : l.writable = .ok ()) {index : Nat} (hin : index < l.toSeq.length)
    (a : α) : GivesSome (l.set index a) (l.toSeq.set index a) := by
  rw [set, if_neg (by rw [len_eq h]; omega)]
  simp only [hw]
  split_ifs
  · obtain ⟨made, hm, hl⟩ := ofVec_makes (V := V) (l.toSeq.set index a)
    refine ⟨made, ?_, hl⟩
    simp only [toVec_eq h, hw, Except.map, bind_eq_bind, bind_some, if_pos hin, hm, Option.pure_def]
  · obtain ⟨t, ht, hls⟩ := toTree_spec h
    rw [← hls] at hin ⊢
    refine ⟨ofTree _, ?_, ofTree_wf _, by rw [toSeq_ofTree, toList_set t index a hin]⟩
    simp only [ht, bind_eq_bind, bind_some, if_pos hin, Option.pure_def]

theorem removeAt_gives (h : l.WF) (hw : l.writable = .ok ()) {index : Nat}
    (hin : index < l.toSeq.length) : GivesSome (l.removeAt index) (l.toSeq.eraseIdx index) := by
  rw [removeAt, if_neg (by rw [len_eq h]; omega)]
  simp only [hw]
  split_ifs
  · obtain ⟨made, hm, hl⟩ := ofVec_makes (V := V) (l.toSeq.eraseIdx index)
    refine ⟨made, ?_, hl⟩
    simp only [toVec_eq h, hw, Except.map, bind_eq_bind, bind_some, if_pos hin, hm, Option.pure_def]
  · obtain ⟨t, ht, hls⟩ := toTree_spec h
    rw [← hls] at hin ⊢
    refine ⟨ofTree _, ?_, ofTree_wf _, by rw [toSeq_ofTree, toList_remove t index hin]⟩
    simp only [ht, bind_eq_bind, bind_some, if_pos hin, Option.pure_def]

/-! ### Questions about the elements -/

theorem same_int (n m : Int64) : same (int n : α) (int m) = true ↔ n = m := by
  rw [same, beq_iff_eq, cmp_int, compare_eq_iff_eq, Int64.toInt_inj]

theorem same_int_iff {n : Int64} {a : α} : same (int n) a = true ↔ int? a = some n := by
  rw [same, beq_iff_eq]
  refine ⟨int?_of_cmp, fun h => ?_⟩
  rw [eq_int_of_int? h]
  exact beq_iff_eq.mp ((same_int n n).mpr rfl)

theorem same_comm (a b : α) : same a b = same b a := by
  have := trans_cmp (α := α)
  have hs : Element.cmp a b = (Element.cmp b a).swap := Std.OrientedCmp.eq_swap
  rw [same, same, hs]
  cases Element.cmp b a <;> rfl

theorem same_trans {a b c : α} (h : same a b = true) (h' : same b c = true) : same a c = true := by
  have := trans_cmp (α := α)
  simp only [same, beq_iff_eq] at *
  exact Std.TransCmp.eq_trans h h'

theorem pairwise_intsFrom (h : lo.toInt ≤ hi.toInt) :
    (intsFrom lo (absDiff hi lo + 1) : List α).Pairwise fun a b => Element.cmp a b = .lt := by
  rw [intsFrom, pairwise_map]
  refine pairwise_lt_range.imp_of_mem fun {i j} hi hj hlt => ?_
  rw [mem_range] at hi hj
  rw [cmp_int, toInt_nth_of_lt h hi, toInt_nth_of_lt h hj, compare_lt_iff_lt]
  omega

theorem findIdx?_intsFrom (h : lo.toInt ≤ hi.toInt) (n : Int64) :
    (intsFrom lo (absDiff hi lo + 1) : List α).findIdx? (same · (int n)) =
      if lo.toInt ≤ n.toInt ∧ n.toInt ≤ hi.toInt then some (absDiff n lo) else none := by
  split_ifs with hin
  · have hlt : absDiff n lo < absDiff hi lo + 1 := by
      simp only [absDiff]
      omega
    have hn {i : Nat} (hi : i < absDiff hi lo + 1) :
        same (int (nth lo i) : α) (int n) = true ↔ i = absDiff n lo := by
      rw [same_int, ← Int64.toInt_inj, toInt_nth_of_lt h hi, absDiff]
      omega
    rw [findIdx?_eq_some_iff_getElem]
    refine ⟨by simpa using hlt, ?_, fun j hj => ?_⟩
    · simpa [intsFrom] using (hn hlt).mpr rfl
    · simpa [intsFrom] using mt (hn (hj.trans hlt)).mp hj.ne
  · rw [findIdx?_eq_none_iff]
    intro a ha
    obtain ⟨i, hi, rfl⟩ := mem_map.mp ha
    rw [mem_range] at hi
    rw [← Bool.not_eq_true, same_int, ← Int64.toInt_inj, toInt_nth_of_lt h hi]
    rw [absDiff] at hi
    omega

theorem position_eq (h : l.WF) (a : α) : l.position a = some (l.toSeq.findIdx? (same · a)) := by
  match l, h with
  | .items _ start n, h | .long _ start n, h =>
    obtain ⟨rs, hrs, hf⟩ := runs_of_held h rfl
    simp [position, hrs, hf]
  | .ints lo hi, h =>
    rw [position, toSeq]
    cases hin : int? a with
    | some n =>
      obtain rfl := eq_int_of_int? hin
      rw [findIdx?_intsFrom h.1]
    | none =>
      refine congrArg some (Eq.symm (findIdx?_eq_none_iff.mpr fun b hb => ?_))
      obtain ⟨i, -, rfl⟩ := mem_map.mp hb
      rw [← Bool.not_eq_true, same_int_iff, hin]
      rintro ⟨⟩

/-- The sequence in ascending order; equal elements stay in theirs. -/
def inOrder (xs : List α) : List α := xs.mergeSort fun a b => (Element.cmp a b).isLE

theorem sorted_makes (h : l.WF) : Makes l.sorted (inOrder l.toSeq) := by
  match l, h with
  | .items _ start n, h | .long _ start n, h =>
    obtain ⟨rs, hrs, hf⟩ := runs_of_held h rfl
    simp only [sorted, hrs, bind_eq_bind, bind_some, hf]
    exact ofVec_makes _
  | .ints lo hi, h =>
    refine ⟨_, rfl, h, (mergeSort_of_pairwise ?_).symm⟩
    exact (pairwise_intsFrom h.1).imp fun hlt => by rw [hlt]; rfl

/-- The elements of the sequence that are equal to none before them. -/
def firsts : List α → List α
  | [] => []
  | a :: xs => a :: (firsts xs).filter fun b => !same a b

theorem uniqueFrom_eq (seen xs : List α) :
    uniqueFrom seen xs = (firsts xs).filter fun b => !seen.any (same b) := by
  induction xs generalizing seen with
  | nil => rfl
  | cons a xs ih =>
    rw [uniqueFrom, firsts]
    split_ifs with hs
    · -- what is equal to the element is equal to one seen
      rw [List.filter_cons_of_neg (by simp [hs]), List.filter_filter, ih]
      refine List.filter_congr fun b _ => ?_
      cases hb : seen.any (same b) with
      | true => rfl
      | false =>
        rw [Bool.not_false, Bool.true_and, eq_comm, Bool.not_eq_true', ← Bool.not_eq_true]
        intro hab
        obtain ⟨c, hc, hac⟩ := List.any_eq_true.mp hs
        rw [same_comm] at hab
        exact Bool.eq_false_iff.mp hb (List.any_eq_true.mpr ⟨c, hc, same_trans hab hac⟩)
    · rw [List.filter_cons_of_pos (by simpa using hs), List.filter_filter, ih]
      refine congrArg _ (List.filter_congr fun b _ => ?_)
      rw [List.any_cons, Bool.not_or, same_comm, Bool.and_comm]

theorem firsts_eq_self (h : xs.Pairwise fun a b => Element.cmp a b = .lt) : firsts xs = xs := by
  induction h with
  | nil => rfl
  | cons hlt _ ih =>
    rw [firsts, ih]
    refine congrArg _ (filter_eq_self.mpr fun b hb => ?_)
    rw [same, hlt b hb]
    rfl

theorem unique_makes (h : l.WF) : Makes l.unique (firsts l.toSeq) := by
  have ha (xs : List α) : uniqueFrom [] xs = firsts xs := by
    rw [uniqueFrom_eq]
    exact filter_eq_self.mpr fun _ _ => rfl
  match l, h with
  | .items _ start n, h | .long _ start n, h =>
    obtain ⟨rs, hrs, hf⟩ := runs_of_held h rfl
    simp only [unique, hrs, bind_eq_bind, bind_some, hf, ha]
    exact fromIter_makes _ _
  | .ints lo hi, h => exact ⟨_, rfl, h, (firsts_eq_self (pairwise_intsFrom h.1)).symm⟩

end ListValue

end Silt.Collections

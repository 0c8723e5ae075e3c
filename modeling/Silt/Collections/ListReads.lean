import Mathlib.Tactic.Linarith
import Silt.Collections.ListValue

/-!
# The sequence a list value stands for

However it is stored, a list stands for the sequence of its elements (`ListValue.toSeq`).  Each way
to read a list gives that sequence: by index, by an iterator from either end, by the iterator that
keeps the list, and by runs.

## Main definitions

* `ListValue.WF` : the elements are inside the storage, and a tree made of them has them.

## Main results

* `ListValue.get_eq`, `ListValue.iter_spec`, `ListValue.runs_spec`, `IntoIter.pull_eq` : what
  each way to read gives.
-/

namespace Silt.Collections

open List Option

open Element Sequence

section Stored

variable {last : Nat}

variable {α V : Type} [Sequence V α]

/-! ### Storage -/

theorem sliceOf_eq {items : List α} {first : Nat} (h : first ≤ last) (hl : last ≤ items.length) :
    sliceOf items first last = some ((items.take last).drop first) := by
  rw [sliceOf, if_pos ⟨h, hl⟩]

theorem part_of_part (items : List α) (start first : Nat) {n : Nat} (h : last ≤ n) :
    ((((items.take (start + n)).drop start).take last).drop first) =
      (items.take (start + last)).drop (start + first) := by
  simp only [drop_take, drop_drop, take_take]
  congr 1
  omega

/-- A bound past the end is the end, and a part that ends before it begins is empty. -/
theorem part_min (items : List α) (first last : Nat) :
    (items.take (min last items.length)).drop (min first (min last items.length)) =
      (items.take last).drop first := by
  rw [← take_eq_take_min]
  simp_all

theorem drop_take_eq_cons (xs : List α) {next : Nat} (h : next < last) (hl : last ≤ xs.length) :
    ∃ a, xs[next]? = some a ∧ (xs.take last).drop next = a :: (xs.take last).drop (next + 1) := by
  have hin : next < (xs.take last).length := by
    rw [length_take]
    omega
  refine ⟨(xs.take last)[next], ?_, drop_eq_getElem_cons hin⟩
  rw [getElem_take, getElem?_eq_getElem (by omega)]

/-- The elements in order. -/
def LongItems.toSeq : LongItems α V → List α
  | .side xs _ => xs
  | .tree t => toList t

/-- A tree made of elements kept side by side has them. -/
def LongItems.WF : LongItems α V → Prop
  | .side xs cached => ∀ t ∈ cached, toList t = xs
  | .tree _ => True

namespace ListValue

/-- The elements of a list are inside its storage: a buffer, which a `u32` counts, a long list's
elements, or the Ints, of which there is one at least and no more than a `usize` counts. -/
def WF : ListValue α V → Prop
  | .items buf start len => start + len ≤ buf.length ∧ buf.length < 2 ^ 32
  | .long body start len => start + len ≤ body.toSeq.length ∧ body.WF
  | .ints lo hi => lo.toInt ≤ hi.toInt ∧ absDiff hi lo + 1 ≤ maxLen

theorem kept_items {buf : List α} {start n : Nat} (h : WF (.items buf start n : ListValue α V)) :
    kept (.items buf start n : ListValue α V) =
      some (.side ((buf.take (start + n)).drop start)) := by
  rw [kept, sliceOf_eq (Nat.le_add_right _ _) h.1]
  rfl

theorem kept_side {xs : List α} {cached : Option V} {start n : Nat}
    (h : WF (.long (.side xs cached) start n)) :
    kept (.long (.side xs cached) start n) = some (.side ((xs.take (start + n)).drop start)) := by
  rw [kept, sliceOf_eq (Nat.le_add_right _ _) (by exact h.1)]
  rfl

theorem ofTree_wf (t : V) : (ofTree t : ListValue α V).WF := ⟨by simp [LongItems.toSeq], trivial⟩

theorem partOf_spec (t : V) (start n : Nat) (h : start + n ≤ (toList t).length) :
    ∃ part, partOf t start n = some part ∧
      toList part = ((toList t).take (start + n)).drop start := by
  refine ⟨_, if_pos h, ?_⟩
  have hs : toList (if start = 0 then t else skip t start) = (toList t).drop start := by
    split_ifs with hz
    · rw [hz, drop_zero]
    · exact toList_skip t start (by omega)
  rw [toList_truncate _ _ (by rw [hs, length_drop]; omega), hs, drop_take, Nat.add_sub_cancel_left]

end ListValue

/-! ### Runs -/

/-- The leaves' part that is the list's. -/
def Leaves.elems (leaves : Leaves α) : List α :=
  (leaves.leaves.flatten.drop leaves.skip).take leaves.left

/-- The leaves have what is left of the list. -/
def Leaves.Enough (leaves : Leaves α) : Prop :=
  leaves.skip + leaves.left ≤ leaves.leaves.flatten.length

theorem nextLeaf_spec (ls : List (List α)) (skip left : Nat) (h : skip + left ≤ ls.flatten.length) :
    match nextLeaf ls skip left with
    | none => left = 0
    | some (run, rest) =>
      run ≠ [] ∧ rest.Enough ∧ rest.leaves.length < ls.length ∧
        (ls.flatten.drop skip).take left = run ++ rest.elems := by
  induction ls generalizing skip with
  | nil =>
    obtain rfl : left = 0 := by simpa using (Nat.le_add_left _ _).trans h
    simp [nextLeaf]
  | cons leaf ls ih =>
    rcases left with - | left
    · simp [nextLeaf]
    rw [nextLeaf]
    · rw [flatten_cons, length_append] at h
      split_ifs with hs
      · -- the leaf comes before the list
        specialize ih (skip - leaf.length) (by omega)
        have hd : (leaf ++ ls.flatten).drop skip = ls.flatten.drop (skip - leaf.length) := by
          rw [drop_append, drop_eq_nil_of_le hs, nil_append]
        grind
      · -- the leaf has the next element of the list
        have hr : ((leaf.take (min leaf.length (skip + (left + 1)))).drop skip).length =
            min (leaf.length - skip) (left + 1) := by
          simp only [length_drop, length_take]
          omega
        refine ⟨?_, ?_, by simp, ?_⟩
        · rw [← length_pos_iff, hr]
          omega
        · simp only [Leaves.Enough, hr]
          omega
        · simp only [Leaves.elems, hr, flatten_cons, drop_zero]
          rw [drop_append, take_append, length_drop, drop_take,
            Nat.sub_eq_zero_of_le (Nat.le_of_not_le hs), drop_zero]
          congr 1
          · grind
          · congr 1
            omega
    · exact Nat.succ_ne_zero left

/-- The elements left. -/
def Runs.elems (runs : Runs α) : List α := runs.left ++ (runs.leaves.map (·.elems)).getD []

/-- The leaves there are have what is left of the list. -/
def Runs.Enough (runs : Runs α) : Prop := ∀ leaves ∈ runs.leaves, leaves.Enough

/-- How many leaves there are. -/
def Runs.leafCount (runs : Runs α) : Nat := (runs.leaves.map (·.leaves.length)).getD 0

theorem Runs.next?_spec {runs : Runs α} (h : runs.Enough) :
    match runs.next? with
    | none => runs.elems = []
    | some (run, rest) =>
      run ≠ [] ∧ rest.Enough ∧ rest.left = [] ∧ runs.elems = run ++ rest.elems ∧
        (runs.left = [] → rest.leafCount < runs.leafCount) ∧ rest.leafCount ≤ runs.leafCount := by
  obtain ⟨left, leaves⟩ := runs
  rcases left with - | ⟨a, left⟩
  · rcases leaves with - | leaves
    · rfl
    · have hn := nextLeaf_spec leaves.leaves leaves.skip leaves.left (h leaves rfl)
      simp only [Runs.next?, isEmpty_nil, if_true, bind_eq_bind, bind_some, Option.pure_def]
      rcases hr : nextLeaf leaves.leaves leaves.skip leaves.left with - | ⟨run, rest⟩ <;>
        rw [hr] at hn
      · simp only [Runs.elems, Leaves.elems, map_some, getD_some, hn,
          take_zero, append_nil, bind_none]
      · obtain ⟨hne, he, hlt, heq⟩ := hn
        refine ⟨hne, ?_, rfl, heq, fun _ => hlt, hlt.le⟩
        rintro - ⟨⟩
        exact he
  · exact ⟨cons_ne_nil _ _, h, rfl, rfl, nofun, le_refl _⟩

theorem Runs.taken_spec (fuel : Nat) {runs : Runs α} (h : runs.Enough) (hl : runs.left = [])
    (hf : runs.leafCount ≤ fuel) :
    (runs.taken fuel).flatten = runs.elems ∧ ∀ run ∈ runs.taken fuel, run ≠ [] := by
  induction fuel generalizing runs with
  | zero =>
    obtain ⟨left, leaves⟩ := runs
    obtain rfl : left = [] := hl
    refine ⟨?_, by simp [Runs.taken]⟩
    rcases leaves with - | ⟨ls, skip, left⟩
    · rfl
    · obtain rfl : ls = [] := by simpa [Runs.leafCount] using hf
      simp [Runs.taken, Runs.elems, Leaves.elems]
  | succ fuel ih =>
    have hn := runs.next?_spec h
    rw [Runs.taken]
    grind

/-- The runs of a list are its elements cut where they are stored, and no run is empty. -/
theorem Runs.collect_spec (runs : Runs α) (h : runs.Enough) :
    runs.collect.flatten = runs.elems ∧ ∀ run ∈ runs.collect, run ≠ [] := by
  have hn := runs.next?_spec h
  rw [Runs.collect, Nat.add_comm, Runs.taken]
  rcases hrs : runs.next? with - | ⟨run, rest⟩ <;> rw [hrs] at hn
  · exact ⟨hn.symm, by simp⟩
  · obtain ⟨hne, he, hnl, heq, -, hle⟩ := hn
    obtain ⟨hf, hrn⟩ := rest.taken_spec _ he hnl hle
    refine ⟨(congrArg (run ++ ·) hf).trans heq.symm, fun r hr => ?_⟩
    rcases mem_cons.mp hr with rfl | hr
    · exact hne
    · exact hrn r hr

end Stored

variable {α V : Type} [Element α] [Sequence V α]

/-! ### Ints -/

theorem toInt_nth {lo : Int64} {i : Nat} (h : lo.toInt + i < 2 ^ 63) :
    (nth lo i).toInt = lo.toInt + i := by
  have hlo := Int64.le_toInt lo
  rw [nth, Int64.toInt_add, Int64.toInt_ofNat', Int.add_bmod_bmod]
  grind

theorem toInt_nth_of_lt {lo hi : Int64} (h : lo.toInt ≤ hi.toInt) {i : Nat}
    (hi' : i < absDiff hi lo + 1) : (nth lo i).toInt = lo.toInt + i := by
  have hhi := Int64.toInt_lt hi
  rw [absDiff] at hi'
  exact toInt_nth (by omega)

theorem nth_zero (lo : Int64) : nth lo 0 = lo := by simp [nth]

theorem nth_nth (lo : Int64) (i j : Nat) : nth (nth lo i) j = nth lo (i + j) := by
  simp [nth, Int64.ofNat_add, Int64.add_assoc]

theorem nth_one (lo : Int64) : nth lo 1 = lo + 1 := rfl

@[simp]
theorem length_intsFrom (lo : Int64) (n : Nat) : (intsFrom lo n : List α).length = n := by
  simp [intsFrom]

theorem intsFrom_succ (lo : Int64) (n : Nat) :
    (intsFrom lo (n + 1) : List α) = int lo :: intsFrom (lo + 1) n := by
  simp only [intsFrom, List.range_succ_eq_map, List.map_cons, List.map_map, nth_zero,
    List.cons.injEq, true_and]
  refine List.map_congr_left fun i _ => ?_
  rw [Function.comp_apply, ← nth_one, nth_nth, Nat.add_comm]

theorem intsFrom_succ_back (lo : Int64) (n : Nat) :
    (intsFrom lo (n + 1) : List α) = intsFrom lo n ++ [int (nth lo n)] := by
  simp [intsFrom, range_succ]

theorem getElem?_intsFrom (lo : Int64) (n i : Nat) :
    (intsFrom lo n : List α)[i]? = if i < n then some (int (nth lo i)) else none := by
  by_cases h : i < n <;> simp [intsFrom, h]

theorem drop_take_intsFrom (lo : Int64) {n first last : Nat} (h : last ≤ n) :
    ((intsFrom lo n : List α).take last).drop first = intsFrom (nth lo first) (last - first) := by
  refine ext_getElem? fun i => ?_
  rw [getElem?_drop, getElem?_take, getElem?_intsFrom, getElem?_intsFrom, nth_nth]
  split_ifs <;> first | rfl | omega

/-! ### The sequence a list stands for -/

namespace ListValue

variable {l : ListValue α V}

/-- The sequence of elements a list stands for. -/
def toSeq : ListValue α V → List α
  | .items buf start len => (buf.take (start + len)).drop start
  | .long body start len => (body.toSeq.take (start + len)).drop start
  | .ints lo hi => intsFrom lo (absDiff hi lo + 1)

theorem len_eq (h : l.WF) : l.len = l.toSeq.length := by
  cases l with
  | items buf start n | long body start n =>
    obtain ⟨hl, -⟩ := h
    simp only [len, toSeq, length_drop, length_take]
    omega
  | ints lo hi => simp [len, toSeq]

theorem isEmpty_iff (h : l.WF) : l.isEmpty ↔ l.toSeq = [] := by
  rw [isEmpty, beq_iff_eq, len_eq h, length_eq_zero_iff]

theorem get_eq (h : l.WF) (index : Nat) : l.get index = some l.toSeq[index]? := by
  match l, h with
  | .items buf start len, ⟨hl, _⟩ =>
    rw [get, sliceOf_eq (Nat.le_add_right _ _) hl]
    rfl
  | .long body start len, ⟨hl, _⟩ =>
    have hg : ((body.toSeq.take (start + len)).drop start)[index]? =
        if index < len then body.toSeq[start + index]? else none := by
      grind
    simp only [get, toSeq, hg]
    split_ifs with hid
    · have hin : start + index < body.toSeq.length := by omega
      cases body <;> simp_all [LongItems.toSeq]
    · rfl
  | .ints lo hi, _ =>
    rw [get, toSeq, getElem?_intsFrom]
    rfl

end ListValue

/-! ### Iterators -/

/-- The elements left. -/
def Iter.elems : Iter α → List α
  | .items left | .tree left => left
  | .ints left => intsFrom left.next left.left

theorem Iter.len_eq (it : Iter α) : it.len = it.elems.length := by
  cases it <;> simp [Iter.len, Iter.elems]

/-- What is taken from the front of a sequence. -/
def front : List α → Option (α × List α)
  | [] => none
  | a :: xs => some (a, xs)

/-- What is taken from the back of a sequence. -/
def back (xs : List α) : Option (α × List α) := xs.getLast?.map fun a => (a, xs.dropLast)

theorem Iter.next?_elems (it : Iter α) :
    it.next?.map (fun r => (r.1, r.2.elems)) = front it.elems := by
  match it with
  | .items [] | .tree [] | .items (_ :: _) | .tree (_ :: _) | .ints ⟨_, 0⟩ => rfl
  | .ints ⟨next, left + 1⟩ =>
    simp [Iter.next?, IntsLeft.next?, Iter.elems, intsFrom_succ, front]

theorem Iter.nextBack?_elems (it : Iter α) :
    it.nextBack?.map (fun r => (r.1, r.2.elems)) = back it.elems := by
  match it with
  | .items left | .tree left =>
    simp only [Iter.nextBack?, back, Option.map_map]
    rfl
  | .ints ⟨next, 0⟩ => rfl
  | .ints ⟨next, left + 1⟩ =>
    simp [Iter.nextBack?, IntsLeft.nextBack?, Iter.elems, intsFrom_succ_back, back]

/-- What a caller gets that asks for an element from the front (`true`) or from the back, time
after time. -/
def Iter.pull : List Bool → Iter α → List (Option α)
  | [], _ => []
  | fromFront :: script, it =>
    match if fromFront then it.next? else it.nextBack? with
    | none => none :: it.pull script
    | some (a, it) => some a :: it.pull script

/-- What is taken from a sequence, from the front (`true`) or from the back. -/
def pulled : List Bool → List α → List (Option α)
  | [], _ => []
  | fromFront :: script, xs =>
    match if fromFront then front xs else back xs with
    | none => none :: pulled script xs
    | some (a, xs) => some a :: pulled script xs

theorem Iter.pull_eq (script : List Bool) (it : Iter α) :
    it.pull script = pulled script it.elems := by
  induction script generalizing it with
  | nil => rfl
  | cons f script ih =>
    have hs : (if f then it.next? else it.nextBack?).map (fun r => (r.1, r.2.elems)) =
        if f then front it.elems else back it.elems := by
      cases f
      · exact it.nextBack?_elems
      · exact it.next?_elems
    rw [Iter.pull, pulled, ← hs]
    grind

theorem Iter.taken_eq (fuel : Nat) (it : Iter α) : it.taken fuel = it.elems.take fuel := by
  induction fuel generalizing it with
  | zero => simp [Iter.taken]
  | succ fuel ih =>
    have hs := it.next?_elems
    rw [Iter.taken]
    rcases hn : it.next? with - | ⟨a, it'⟩ <;> rw [hn] at hs
    · rcases he : it.elems with - | ⟨b, xs⟩
      · rfl
      · rw [he] at hs
        cases hs
    · rcases he : it.elems with - | ⟨b, xs⟩ <;> rw [he] at hs
      · cases hs
      · obtain ⟨rfl, rfl⟩ : a = b ∧ it'.elems = xs := by simpa [front] using hs
        simp [ih]

theorem Iter.takenBack_eq (fuel : Nat) (it : Iter α) :
    it.takenBack fuel = it.elems.reverse.take fuel := by
  induction fuel generalizing it with
  | zero => simp [Iter.takenBack]
  | succ fuel ih =>
    have hs := it.nextBack?_elems
    rw [Iter.takenBack]
    rcases hn : it.nextBack? with - | ⟨a, it'⟩ <;> rw [hn] at hs
    · rcases eq_nil_or_concat it.elems with he | ⟨xs, b, he⟩ <;> rw [he] at hs ⊢
      · rfl
      · simp [back] at hs
    · rcases eq_nil_or_concat it.elems with he | ⟨xs, b, he⟩ <;> rw [he] at hs ⊢
      · cases hs
      · obtain ⟨rfl, rfl⟩ : a = b ∧ it'.elems = xs := by simpa [back] using hs
        simp [ih]

theorem Iter.collect_eq (it : Iter α) : it.collect = it.elems := by
  rw [Iter.collect, Iter.taken_eq, Iter.len_eq, take_length]

theorem Iter.rev_eq (it : Iter α) : it.rev = it.elems.reverse := by
  rw [Iter.rev, Iter.takenBack_eq, Iter.len_eq, ← length_reverse, take_length]

namespace ListValue

variable {l : ListValue α V}

theorem iterPart_spec (h : l.WF) {first last : Nat} (hle : first ≤ last)
    (hl : last ≤ l.toSeq.length) :
    ∃ it, l.iterPart first last = some it ∧ it.elems = (l.toSeq.take last).drop first := by
  match l, h with
  | .items buf start n, h =>
    refine ⟨.items _, ?_, rfl⟩
    have hs := sliceOf_eq hle hl
    simp only [toSeq] at hs
    simp only [iterPart, kept_items h, bind_eq_bind, bind_some, hs]
    rfl
  | .long (.side xs cached) start n, h =>
    refine ⟨.items _, ?_, rfl⟩
    have hs := sliceOf_eq hle hl
    simp only [toSeq, LongItems.toSeq] at hs
    simp only [iterPart, kept_side h, bind_eq_bind, bind_some, hs]
    rfl
  | .long (.tree t) start n, h =>
    have hn := len_eq h
    simp only [len] at hn
    have hin : start + last ≤ (toList t).length := by
      have := h.1
      simp only [LongItems.toSeq] at this
      omega
    have hs := sliceOf_eq (Nat.add_le_add_left hle start) hin
    refine ⟨.tree (((toList t).take (start + last)).drop (start + first)), ?_, ?_⟩
    · simp only [iterPart, kept, bind_eq_bind, bind_some, hs]
      rfl
    · exact (part_of_part _ _ _ (by omega)).symm
  | .ints lo hi, _ =>
    refine ⟨.ints _, rfl, ?_⟩
    rw [toSeq, length_intsFrom] at hl
    simp only [Iter.elems, toSeq, drop_take_intsFrom lo hl]

theorem iter_spec (h : l.WF) : ∃ it, l.iter = some it ∧ it.elems = l.toSeq := by
  obtain ⟨it, hit, he⟩ := iterPart_spec h (Nat.zero_le l.len) (len_eq h).le
  refine ⟨it, hit, ?_⟩
  rw [he, len_eq h, take_length, drop_zero]

theorem runs_spec (h : l.WF) :
    ∃ rs, l.runs = some rs ∧ (∀ run ∈ rs.collect, run ≠ []) ∧
      rs.collect.flatten = if l.writtenOut then [] else l.toSeq := by
  match l, h with
  | .items buf start n, h =>
    refine ⟨⟨_, none⟩, by rw [runs, kept_items h]; rfl, ?_⟩
    obtain ⟨hf, hne⟩ := Runs.collect_spec ⟨(buf.take (start + n)).drop start, none⟩ nofun
    exact ⟨hne, hf.trans (append_nil _)⟩
  | .long (.side xs cached) start n, h =>
    refine ⟨⟨_, none⟩, by rw [runs, kept_side h]; rfl, ?_⟩
    obtain ⟨hf, hne⟩ := Runs.collect_spec ⟨(xs.take (start + n)).drop start, none⟩ nofun
    exact ⟨hne, hf.trans (append_nil _)⟩
  | .long (.tree t) start n, h =>
    refine ⟨⟨[], some ⟨leaves t, start, n⟩⟩, rfl, ?_⟩
    obtain ⟨hf, hne⟩ := Runs.collect_spec ⟨[], some ⟨leaves t, start, n⟩⟩ (by
      rintro - ⟨⟩
      simpa only [Leaves.Enough, flatten_leaves, LongItems.toSeq] using h.1)
    refine ⟨hne, hf.trans ?_⟩
    simp [Runs.elems, Leaves.elems, flatten_leaves, writtenOut, toSeq, LongItems.toSeq, drop_take]
  | .ints lo hi, _ => exact ⟨⟨[], none⟩, rfl, by simp [Runs.collect, Runs.taken, Runs.next?], rfl⟩

theorem runs_of_held (h : l.WF) (held : l.writtenOut = false) :
    ∃ rs, l.runs = some rs ∧ rs.collect.flatten = l.toSeq := by
  obtain ⟨rs, hrs, -, hf⟩ := runs_spec h
  exact ⟨rs, hrs, by simpa [held] using hf⟩

end ListValue

/-! ### The iterator that keeps the list -/

namespace IntoIter

/-- The elements left. -/
def elems : IntoIter α V → List α
  | .items xs next last | .side xs next last => (xs.take last).drop next
  | .tree t next last leaf => leaf.reverse ++ ((toList t).take last).drop next
  | .ints left => intsFrom left.next left.left

/-- The elements left are inside the storage. -/
def WF : IntoIter α V → Prop
  | .items xs next last | .side xs next last => next ≤ last ∧ last ≤ xs.length
  | .tree t next last _ => next ≤ last ∧ last ≤ (toList t).length
  | .ints _ => True

theorem nextOfLong_spec {t : V} {next last : Nat} (hl : last ≤ (toList t).length)
    (h : next < last) :
    ∃ a it, nextOfLong t next last = some (some (a, it)) ∧ it.WF ∧
      ((toList t).take last).drop next = a :: it.elems := by
  obtain ⟨hf, he, hc⟩ := chunkAt_spec t next (h.trans_le hl)
  generalize hat : chunkAt t next = at' at hf he hc
  obtain ⟨first, items⟩ := at'
  simp only at hf he hc
  generalize hu : min (first + items.length) last = upto
  -- the part of the leaf is the part of the tree
  have hp : (items.take (upto - first)).drop (next - first) = ((toList t).take upto).drop next := by
    rw [← hc, ← Nat.add_sub_cancel_left (n := first) (m := items.length), ← drop_take,
      part_of_part _ _ _ (by omega)]
    congr 2 <;> omega
  obtain ⟨a, -, hcn⟩ := drop_take_eq_cons (toList t) (by omega : next < upto) (by omega)
  refine ⟨a, .tree t upto last (((toList t).take upto).drop (next + 1)).reverse, ?_,
    ⟨by omega, hl⟩, ?_⟩
  · rw [nextOfLong, if_neg h.ne, if_neg (by omega), hat]
    simp only [hu]
    rw [sliceOf_eq (by omega) (by omega), hp, hcn]
    simp
  · have ht : ((toList t).take last).take upto = (toList t).take upto := by
      rw [take_take, Nat.min_eq_left (by omega)]
    calc ((toList t).take last).drop next
        = (((toList t).take last).take upto ++ ((toList t).take last).drop upto).drop next := by
          rw [take_append_drop]
      _ = ((toList t).take upto).drop next ++ ((toList t).take last).drop upto := by
          rw [ht, drop_append_of_le_length (by rw [length_take]; omega)]
      _ = a :: (IntoIter.tree t upto last _).elems := by
          rw [hcn, elems, reverse_reverse, cons_append]

theorem next?_spec {it : IntoIter α V} (h : it.WF) :
    ∃ got, it.next? = some got ∧
      match got with
      | none => it.elems = []
      | some (a, rest) => rest.WF ∧ it.elems = a :: rest.elems := by
  match it, h with
  | .items xs next last, ⟨hle, hl⟩ =>
    rw [IntoIter.next?]
    split_ifs with heq
    · exact ⟨none, rfl, by simp [elems, heq]⟩
    · obtain ⟨a, ha, hc⟩ := drop_take_eq_cons xs (by omega : next < last) hl
      exact ⟨some (a, .items xs (next + 1) last), by rw [ha]; rfl, ⟨by omega, hl⟩, hc⟩
  | .side xs next last, ⟨hle, hl⟩ =>
    rw [IntoIter.next?]
    split_ifs with heq
    · exact ⟨none, rfl, by simp [elems, heq]⟩
    · obtain ⟨a, ha, hc⟩ := drop_take_eq_cons xs (by omega : next < last) hl
      exact ⟨some (a, .side xs (next + 1) last), by rw [ha]; rfl, ⟨by omega, hl⟩, hc⟩
  | .tree t next last leaf, ⟨hle, hl⟩ =>
    rw [IntoIter.next?]
    rcases eq_nil_or_concat leaf with rfl | ⟨leaf', a, rfl⟩
    · rcases hle.eq_or_lt with rfl | hlt
      · refine ⟨none, by simp [nextOfLong], by simp [elems]⟩
      · obtain ⟨a, it, hn, hwf, hc⟩ := nextOfLong_spec hl hlt
        exact ⟨some (a, it), hn, hwf, by simpa [elems] using hc⟩
    · refine ⟨some (a, .tree t next last leaf'), by simp, ⟨hle, hl⟩, by simp [elems]⟩
  | .ints ⟨next, 0⟩, _ => exact ⟨none, rfl, rfl⟩
  | .ints ⟨next, left + 1⟩, _ =>
    exact ⟨some (int next, .ints ⟨next + 1, left⟩), rfl, trivial, intsFrom_succ next left⟩

/-- What a caller gets that asks for an element time after time. -/
def pull : Nat → IntoIter α V → Option (List (Option α))
  | 0, _ => some []
  | n + 1, it =>
    match it.next? with
    | none => none
    | some none => (it.pull n).map (none :: ·)
    | some (some (a, it)) => (it.pull n).map (some a :: ·)

theorem pull_eq (n : Nat) {it : IntoIter α V} (h : it.WF) :
    it.pull n = some ((List.range n).map (it.elems[·]?)) := by
  induction n generalizing it with
  | zero => rfl
  | succ n ih =>
    obtain ⟨got, hg, hs⟩ := next?_spec h
    rw [pull, hg, List.range_succ_eq_map]
    rcases got with - | ⟨a, rest⟩
    · simp only at hs
      simp [ih h, hs, Function.comp_def]
    · obtain ⟨hwf, hc⟩ := hs
      simp [ih hwf, hc]

end IntoIter

namespace ListValue

theorem intoIter_spec {l : ListValue α V} (h : l.WF) :
    l.intoIter.WF ∧ l.intoIter.elems = l.toSeq := by
  match l, h with
  | .items _ start n, h | .long (.side _ _) start n, h => exact ⟨⟨Nat.le_add_right _ _, h.1⟩, rfl⟩
  | .long (.tree t) start n, h => exact ⟨⟨Nat.le_add_right _ _, h.1⟩, rfl⟩
  | .ints lo hi, _ => exact ⟨trivial, rfl⟩

end ListValue

end Silt.Collections

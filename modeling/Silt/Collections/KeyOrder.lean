import Silt.Collections.KeyReads
import Silt.Collections.KeyTree

/-!
# The order, the equality and the hash of values

Two values compare as their trees do in lexicographic order, they are equal where the trees are the
same, and a hash reads nothing of a value that its tree does not have.

## Main definitions

* `Compares` : a visitor that stops where two values differ, with what it makes of their order.

## Main results

* `Compares.walk_eq` : what such a visitor makes of the walk through two values.
* `order_equality_and_hash_agree` : the order is total, and equality and hash agree with it.
* `near_and_far_walk_alike` : each visitor is shown the same by calls and by the stack.
-/

namespace Silt.Collections

open List

open Std

variable {declared : Nat → List Text} {σ Stop : Type}

variable {a b : Value declared}

/-! ### Lists that hold no element -/

theorem cmp_key (a b : Value declared) :
    Rose.cmp a.key b.key =
      (Value.cmpHeads a b).then (Rose.cmpAll (a.items.map Value.key) (b.items.map Value.key)) := by
  rw [a.key_eq, b.key_eq, Rose.cmp_node, cmpHeads_eq]

theorem cmp_key_int (a : Value declared) (n : Int64) :
    Rose.cmp a.key (Value.int n : Value declared).key = Value.cmpHeads a (.int n) := by
  rw [cmp_key]
  cases h : Value.cmpHeads a (.int n) with
  | eq =>
    rw [cmpHeads_eq] at h
    cases Alike.of_rank (rank_eq_of_head_eq (LawfulEqCmp.eq_of_compare h)) with
    | leaf _ _ => rfl
  | lt | gt => rfl

/-- Going through the items and the Ints side by side and then comparing their numbers is comparing
the trees. -/
theorem cmpZipped_eq (items : List (Value declared)) (n : Int64) (left : Nat) :
    (match cmpZipped items n left with
      | .eq => compare items.length left
      | unequal => unequal) =
      Rose.cmpAll (items.map Value.key)
        ((Value.ints n left : List (Value declared)).map Value.key) := by
  induction items generalizing n left with
  | nil => cases left <;> rfl
  | cons item items ih =>
    cases left with
    | zero => rfl
    | succ left =>
      rw [Value.ints, map_cons, map_cons, Rose.cmpAll_cons, cmp_key_int, ← ih, cmpZipped]
      cases Value.cmpHeads item (.int n) with
      | eq =>
        cases cmpZipped items (n + 1) left with
        | eq => simp [compare, compareOfLessAndEq]
        | lt | gt => rfl
      | lt | gt => rfl

theorem cmp_key_int_int (n m : Int64) :
    Rose.cmp (Value.int n : Value declared).key (Value.int m : Value declared).key =
      compare n.toInt m.toInt :=
  cmp_key_int (.int n) m

theorem cmpAll_ints (lo : Int64) (n m : Nat) :
    Rose.cmpAll ((Value.ints lo n : List (Value declared)).map Value.key)
      ((Value.ints lo m : List (Value declared)).map Value.key) = compare n m := by
  induction n generalizing lo m with
  | zero => cases m <;> rfl
  | succ n ih =>
    cases m with
    | zero => rfl
    | succ m =>
      have hs : compare lo.toInt lo.toInt = .eq := ReflCmp.compare_self
      rw [Value.ints, Value.ints, map_cons, map_cons, Rose.cmpAll_cons, cmp_key_int_int, hs, ih]
      simp [compare, compareOfLessAndEq]

theorem cmpAll_ranges (a b : IntRange) :
    (compare a.lo.toInt b.lo.toInt).then (compare a.hi.toInt b.hi.toInt) =
      Rose.cmpAll ((Value.unheld (.ints a) : List (Value declared)).map Value.key)
        ((Value.unheld (.ints b) : List (Value declared)).map Value.key) := by
  obtain ⟨aLo, aHi, hal, _⟩ := a
  obtain ⟨bLo, bHi, hbl, _⟩ := b
  simp only [Value.unheld]
  by_cases hlo : aLo = bLo
  · subst hlo
    have hs : compare aLo.toInt aLo.toInt = .eq := ReflCmp.compare_self
    have ha : aHi.toInt = aLo.toInt + (absDiff aHi aLo : Nat) := by
      simp only [absDiff]
      omega
    have hb : bHi.toInt = aLo.toInt + (absDiff bHi aLo : Nat) := by
      simp only [absDiff]
      omega
    rw [hs, cmpAll_ints, ha, hb]
    simp [compare, compareOfLessAndEq]
  · have hne : aLo.toInt ≠ bLo.toInt := fun h => hlo (Int64.toInt_inj.mp h)
    rw [Value.ints, Value.ints, map_cons, map_cons, Rose.cmpAll_cons, cmp_key_int_int]
    rcases hc : compare aLo.toInt bLo.toInt with _ | _ | _
    · rfl
    · exact absurd (LawfulEqCmp.eq_of_compare hc) hne
    · rfl

theorem cmpHeldInts_eq (rs : List (Run (Value declared))) (range : IntRange) :
    cmpHeldInts (.held rs : Elements (Value declared)) range.lo range.hi =
      Rose.cmpAll ((Value.elements (.held rs)).map Value.key)
        ((Value.unheld (.ints range) : List (Value declared)).map Value.key) :=
  cmpZipped_eq _ _ _

/-- A list that holds no element is ordered as if it held them. -/
theorem cmpWithoutElements_eq {as bs : Elements (Value declared)} {o : Ordering}
    (h : cmpWithoutElements as bs = some o) :
    o = Rose.cmpAll ((Value.elements as).map Value.key) ((Value.elements bs).map Value.key) := by
  have hin : ∀ range, (Value.elements (.ints range) : List (Value declared)) =
      Value.unheld (.ints range) := fun range => by
    simp [Value.elements, Value.held, Value.runs]
  cases as with
  | held as =>
    cases bs with
    | held bs => simp [cmpWithoutElements, Value.rangeEnds] at h
    | ints b =>
      simp only [cmpWithoutElements, Value.rangeEnds, Option.some.injEq] at h
      rw [← h, cmpHeldInts_eq, hin]
  | ints a =>
    cases bs with
    | held bs =>
      simp only [cmpWithoutElements, Value.rangeEnds, Option.some.injEq] at h
      rw [← h, cmpHeldInts_eq, hin, ← Rose.cmpAll_swap]
    | ints b =>
      simp only [cmpWithoutElements, Value.rangeEnds, Option.some.injEq] at h
      rw [← h, cmpAll_ranges, hin, hin]

/-! ### Visitors that stop where two values differ -/

/-- Going on at two that are alike, and stopping at two that differ. -/
def verdict (stop : Ordering → Stop) (o : Ordering) : Except Stop Unit :=
  if o = .eq then .ok () else .error (stop o)

/-- The visitor makes `stop` of the order of two values.  Where their lengths differ it may stop
before their parts, if what it makes of an order is one and the same for all of them. -/
structure Compares (visit : Visit declared 1 Unit Stop) (stop : Ordering → Stop) : Prop where
  names : visit.names = false
  heads (values : Each 1 (Value declared)) :
    visit.heads values () = verdict stop (Value.cmpHeads (values 0) (values 1))
  lens (lens : Each 1 Nat) : visit.lens lens () = .ok () ∨
    lens 0 ≠ lens 1 ∧ ∀ o, visit.lens lens () = .error (stop o)
  lists (lists : Each 1 (Elements (Value declared))) :
    match cmpWithoutElements (lists 0) (lists 1) with
    | none => visit.lists lists () = .ok (true, ()) ∨
      Value.listLen (lists 0) ≠ Value.listLen (lists 1) ∧
        ∀ o, visit.lists lists () = .error (stop o)
    | some o => visit.lists lists () = (verdict stop o).map fun _ => (false, ())
  uneven (ended : Each 1 Bool) :
    visit.uneven ended () = .error (stop (if ended 0 then .lt else .gt))

theorem compares_equal : Compares (equal : Visit declared 1 Unit Unit) fun _ => () where
  names := rfl
  heads _ := rfl
  lens lens := by
    by_cases h : lens 0 = lens 1
    · exact .inl (if_pos h)
    · exact .inr ⟨h, fun _ => if_neg h⟩
  lists lists := by
    simp only [equal]
    cases cmpWithoutElements (lists 0) (lists 1) with
    | none => grind
    | some o => cases o <;> rfl
  uneven _ := rfl

theorem compares_order : Compares (order : Visit declared 1 Unit Ordering) id where
  names := rfl
  heads values := by
    simp only [order, verdict]
    cases Value.cmpHeads (values 0) (values 1) <;> rfl
  lens _ := .inl rfl
  lists lists := by
    simp only [order]
    cases cmpWithoutElements (lists 0) (lists 1) with
    | none => exact .inl rfl
    | some o => cases o <;> rfl
  uneven _ := rfl

namespace Compares

variable {visit : Visit declared 1 Unit Stop} {stop : Ordering → Stop}

theorem endsUneven (h : Compares visit stop) : visit.EndsUneven := by
  intro ended _ _
  exact ⟨_, h.uneven ended⟩

theorem tell_eq (h : Compares visit stop) (name : Option Text) (s : Unit) :
    visit.tell name s = s := by
  simp [Visit.tell, h.names]

/-- Stopping at the first of two that differ is what the two together make. -/
theorem step_then (o p : Ordering) :
    (Flow.step (verdict stop o) >>= fun _ => Flow.step (verdict stop p)) =
      Flow.step (verdict stop (o.then p)) := by
  cases o <;> rfl

theorem part_eq (h : Compares visit stop) {next : Each 1 (Value declared)}
    (hb : Value.cmpHeads (next 0) (next 1) = .eq → (next 0).hasParts →
      visit.reads next () = Flow.step (verdict stop
        (Rose.cmpAll ((next 0).items.map Value.key) ((next 1).items.map Value.key)))) :
    visit.part visit.reads next () =
      Flow.step (verdict stop (Rose.cmp (next 0).key (next 1).key)) := by
  rw [Visit.part, h.heads, cmp_key, ← step_then]
  cases hh : Value.cmpHeads (next 0) (next 1) with
  | lt | gt => rfl
  | eq =>
    split
    · rename_i hp
      exact hb hh hp
    · rename_i hp
      rw [cmpHeads_eq] at hh
      have ha := Alike.of_rank (rank_eq_of_head_eq (LawfulEqCmp.eq_of_compare hh))
      revert ha hp
      generalize next 0 = a, next 1 = b
      intro hp ha
      cases ha with
      | leaf _ _ => rfl
      | _ => exact absurd rfl hp

/-- The rows of two lists make the order of the lists' trees. -/
theorem readRows_eq (h : Compares visit stop) (names : Option (TypeInfo declared))
    (lists : Each 1 (List (Value declared)))
    (hp : ∀ next : Each 1 (Value declared), next 0 ∈ lists 0 →
      visit.part visit.reads next () =
        Flow.step (verdict stop (Rose.cmp (next 0).key (next 1).key))) :
    visit.readRows visit.reads (Rows.of names lists) () =
      Flow.step (verdict stop
        (Rose.cmpAll ((lists 0).map Value.key) ((lists 1).map Value.key))) := by
  induction hx : lists 0 generalizing lists with
  | nil =>
    rw [Rows.of_eq, nextOf]
    cases hy : lists 1 with
    | nil =>
      rw [among_none (Fin.forall_fin_two.mpr ⟨by simp [hx], by simp [hy]⟩)]
      rfl
    | cons y ys =>
      rw [among_some ⟨0, by simp [hx]⟩ ⟨1, by simp [hy]⟩]
      simp [Visit.readRows, h.uneven, hx, Rose.cmpAll, verdict]
  | cons x xs ih =>
    rw [Rows.of_eq, nextOf]
    cases hy : lists 1 with
    | nil =>
      rw [among_some ⟨1, by simp [hy]⟩ ⟨0, by simp [hx]⟩]
      simp [Visit.readRows, h.uneven, hx, Rose.cmpAll, verdict]
    | cons y ys =>
      have ha : among (fun i => (lists i).head?) = .all ![x, y] :=
        among_all (Fin.forall_fin_two.mpr ⟨by simp [hx], by simp [hy]⟩)
      have hr := ih (fun i => (lists i).tail) (fun next hn => hp next (by
        grind)) (by simp [hx])
      rw [ha]
      simp only [Visit.readRows, h.tell_eq]
      rw [hp ![x, y] (by simp [hx]), map_cons, map_cons, Rose.cmpAll_cons, ← step_then]
      refine bind_congr fun s => ?_
      simpa [hy] using hr

theorem cmpAll_ne_eq {xs ys : List (Value declared)} (h : xs.length ≠ ys.length) :
    Rose.cmpAll (xs.map Value.key) (ys.map Value.key) ≠ .eq := fun heq =>
  h (by simpa using congrArg List.length (Rose.eq_of_cmpAll _ _ heq))

/-- A visitor that may stop where the lengths differ makes the order of the lists' trees. -/
theorem lens_then (h : Compares visit stop) (xs ys : List (Value declared)) (lens : Each 1 Nat)
    (hl : lens 0 ≠ lens 1 → xs.length ≠ ys.length) {f : Unit → Flow Stop Unit}
    (hf : f () = Flow.step (verdict stop (Rose.cmpAll (xs.map Value.key) (ys.map Value.key)))) :
    Flow.step (visit.lens lens ()) >>= f =
      Flow.step (verdict stop (Rose.cmpAll (xs.map Value.key) (ys.map Value.key))) := by
  rcases h.lens lens with hok | ⟨hne, hs⟩
  · rw [hok, ← hf]
    rfl
  · rw [hs, verdict, if_neg (cmpAll_ne_eq (hl hne))]
    rfl

/-- What the visitor makes of two lists: their order, whether they hold their elements or not. -/
theorem lists_then (h : Compares visit stop) (lists : Each 1 (Elements (Value declared)))
    {f : Bool × Unit → Flow Stop Unit} (hdn : f (false, ()) = pure ())
    (hf : f (true, ()) = Flow.step (verdict stop (Rose.cmpAll ((Value.held (lists 0)).map Value.key)
        ((Value.held (lists 1)).map Value.key)))) :
    Flow.step (visit.lists lists ()) >>= f =
      Flow.step (verdict stop (Rose.cmpAll ((Value.elements (lists 0)).map Value.key)
        ((Value.elements (lists 1)).map Value.key))) := by
  have hl := h.lists lists
  cases hc : cmpWithoutElements (lists 0) (lists 1) with
  | some o =>
    simp only [hc] at hl
    rw [hl, ← cmpWithoutElements_eq hc, verdict]
    split
    · exact hdn
    · rfl
  | none =>
    generalize lists 0 = as, lists 1 = bs at hc hf hl
    cases as with
    | ints _ => cases bs <;> simp [cmpWithoutElements, Value.rangeEnds] at hc
    | held as =>
      cases bs with
      | ints _ => simp [cmpWithoutElements, Value.rangeEnds] at hc
      | held bs =>
        rcases hl with hok | ⟨hne, hs⟩
        · rw [hok]
          exact hf
        · have hd : (Value.elements (.held as)).length ≠ (Value.elements (.held bs)).length := hne
          rw [hs, verdict, if_neg (cmpAll_ne_eq hd)]
          rfl

theorem length_interleaved (entries : List (Value declared × Value declared)) :
    (Value.interleaved entries).length = 2 * entries.length := by
  induction entries with
  | nil => rfl
  | cons entry entries ih =>
    simp only [Value.interleaved, length_cons, ih]
    omega

/-- What the visitor makes of the parts of two values whose heads are alike. -/
theorem reads_eq (h : Compares visit stop) (values : Each 1 (Value declared))
    (hh : Value.cmpHeads (values 0) (values 1) = .eq) (hp : (values 0).hasParts) :
    visit.reads values () = Flow.step (verdict stop
      (Rose.cmpAll ((values 0).items.map Value.key) ((values 1).items.map Value.key))) := by
  induction hs : (values 0).size using Nat.strong_induction_on generalizing values with
  | _ size ih =>
    subst hs
    have hr : ∀ names (lists : Each 1 (List (Value declared))),
        lists 0 = (values 0).parts → visit.readRows visit.reads (Rows.of names lists) () = Flow.step
          (verdict stop (Rose.cmpAll ((lists 0).map Value.key) ((lists 1).map Value.key))) :=
      fun names lists hl => h.readRows_eq names lists fun next hn =>
        h.part_eq fun hh hp =>
          ih _ (Value.size_lt_of_mem_parts (hl ▸ hn)) next hh hp rfl
    rw [cmpHeads_eq] at hh
    have hal := Alike.of_rank (rank_eq_of_head_eq (LawfulEqCmp.eq_of_compare hh))
    generalize ha : values 0 = a at hal
    generalize hb : values 1 = b at hal
    rw [Visit.reads_eq]
    cases hal with
    | leaf _ _ => simp [ha, Value.hasParts] at hp
    | list as bs =>
      rw [Visit.readParts_list _ ha]
      refine (h.lists_then _ rfl ?_).trans ?_
      · refine hr none (fun i => Value.held ((values i).listOr as)) ?_
        simp [ha, Value.listOr, Value.parts]
      · simp [ha, hb, Value.listOr, Value.items, Value.unkept, Value.parts, Value.elements]
    | tuple as bs | variant _ _ _ _ as bs | vmClosure _ _ as bs =>
      simp only [Visit.readParts, Visit.parts, Visit.runs, ha, Visit.runsOf, bind_assoc, pure_bind]
      refine h.lens_then as bs _ (by simp [ha, hb, Value.run]) ?_
      refine (hr none (fun i => (values i).run) ?_).trans ?_
      · simp [ha, Value.run, Value.parts]
      · simp [ha, hb, Value.run]
    | record _ _ as bs =>
      simp only [Visit.readParts, Visit.parts, Visit.runs, ha, pure_bind]
      refine (hr _ (fun i => (values i).fields) ?_).trans ?_
      · simp [ha, Value.fields, Value.parts]
      · simp [ha, hb, Value.fields, Value.items, Value.unkept, Value.parts]
    | set as bs =>
      simp only [Visit.readParts, Visit.parts, Visit.runs, Visit.Parts.ofMany, ha, pure_bind,
        bind_assoc]
      refine h.lens_then as bs _ (by simp [ha, hb, Value.setOr]) ?_
      refine (hr none (fun i => (values i).setOr as) ?_).trans ?_
      · simp [ha, Value.setOr, Value.parts]
      · simp [ha, hb, Value.setOr]
    | map as bs =>
      simp only [Visit.readParts, Visit.parts, Visit.runs, Visit.Parts.ofMany, ha, pure_bind,
        bind_assoc]
      refine h.lens_then (Value.interleaved as) (Value.interleaved bs) _ ?_ ?_
      · simp [ha, hb, Value.mapOr, length_interleaved]
      · refine (hr none (fun i => Value.interleaved ((values i).mapOr as)) ?_).trans ?_
        · simp [ha, Value.mapOr, Value.parts]
        · simp [ha, hb, Value.mapOr]

theorem walk_eq (h : Compares visit stop) (values : Each 1 (Value declared)) :
    visit.walk values () = Flow.step (verdict stop (Rose.cmp (values 0).key (values 1).key)) := by
  rw [Visit.walk_eq h.endsUneven, h.part_eq (h.reads_eq values)]

end Compares

/-! ### The hash -/

theorem textCode_injective : Function.Injective textCode :=
  map_injective_iff.mpr fun a b h => by
    simpa [UInt8.toNat_inj] using h

theorem totalOrder_injective : Function.Injective Value.totalOrder := by
  intro a b h
  apply Int64.toInt_inj.mp
  have := a.le_toInt
  have := b.le_toInt
  simp only [Value.totalOrder] at h
  split at h <;> split at h <;> omega

theorem hashHead_eq (h : a.head = b.head) : Value.hashHead a = Value.hashHead b := by
  have hr := rank_eq_of_head_eq h
  have hp : a.payload = b.payload := (List.cons.inj h).2
  cases Alike.of_rank hr with
  | leaf a b =>
    cases a <;> cases b <;> simp [Value.rank] at hr <;>
      simp_all [Value.hashHead, Value.payload, Value.rank, textCode_injective.eq_iff,
        totalOrder_injective.eq_iff, Int64.toInt_inj]
  | variant _ _ _ _ _ _ => simp_all [Value.hashHead, Value.payload, Value.rank]
  | list _ _ | tuple _ _ | map _ _ | set _ _ | record _ _ _ _ | vmClosure _ _ _ _ => rfl

theorem hasParts_eq (h : a.head = b.head) : a.hasParts = b.hasParts := by
  cases Alike.of_rank (rank_eq_of_head_eq h) <;> rfl

/-- The Int a value is, if it is one. -/
def Value.int? : Value declared → Option Int64
  | .leaf (.int n) => some n
  | _ => none

theorem int?_eq (h : a.head = b.head) : a.int? = b.int? := by
  have hr := rank_eq_of_head_eq h
  have hp : a.payload = b.payload := (List.cons.inj h).2
  cases Alike.of_rank hr with
  | leaf a b =>
    cases a <;> cases b <;> simp [Value.rank] at hr <;>
      simp_all [Value.int?, Value.payload, Int64.toInt_inj]
  | _ => rfl

theorem head_eq_of_key_eq (h : a.key = b.key) : a.head = b.head := by
  rw [a.key_eq, b.key_eq] at h
  exact (Rose.node.inj h).1

theorem items_eq_of_key_eq (h : a.key = b.key) : a.items.map Value.key = b.items.map Value.key := by
  rw [a.key_eq, b.key_eq] at h
  exact (Rose.node.inj h).2

theorem ascendingFrom_cons (last : Int64) (x : Value declared) (xs : List (Value declared)) :
    Value.ascendingFrom last (x :: xs) = x.int?.bind fun n =>
      if last.toInt + 1 = n.toInt then Value.ascendingFrom n xs else none := by
  match x with
  | .leaf l => cases l <;> rfl
  | .list _ | .tuple _ | .map _ | .set _ | .record _ _ | .variant _ _ _ | .vmClosure _ _ => rfl

theorem ascendingFrom_eq (last : Int64) {xs ys : List (Value declared)}
    (h : xs.map Value.key = ys.map Value.key) :
    Value.ascendingFrom last xs = Value.ascendingFrom last ys := by
  induction xs generalizing last ys with
  | nil =>
    obtain rfl : ys = [] := by simpa using h.symm
    rfl
  | cons x xs ih =>
    cases ys with
    | nil => simp at h
    | cons y ys =>
      obtain ⟨hx, hxs⟩ := List.cons.inj h
      rw [ascendingFrom_cons, ascendingFrom_cons, int?_eq (head_eq_of_key_eq hx)]
      congr 1
      funext n
      rw [ih n hxs]

theorem ascendingFrom_ints (lo hi : Int64) (n : Nat) (h : hi.toInt = lo.toInt + n) :
    Value.ascendingFrom lo (Value.ints (lo + 1) n : List (Value declared)) = some hi := by
  induction n generalizing lo with
  | zero =>
    obtain rfl : hi = lo := Int64.toInt_inj.mp (by simpa using h)
    rfl
  | succ n ih =>
    have hn : (nth lo 1).toInt = lo.toInt + (1 : Nat) := toInt_nth (by
      have := hi.toInt_lt
      omega)
    change (lo + 1).toInt = lo.toInt + 1 at hn
    rw [Value.ints, ascendingFrom_cons]
    simp only [Value.int?, Option.bind_some, hn, if_true]
    exact ih (lo + 1) (by rw [h, hn]; push_cast; omega)

/-- The first and the last of items that are Ints, each one more than the one before. -/
def ascendingItems : List (Value declared) → Option (Int64 × Int64)
  | [] => none
  | x :: xs => x.int?.bind fun lo => (Value.ascendingFrom lo xs).map fun last => (lo, last)

theorem ascendingInts_eq (es : Elements (Value declared)) :
    Value.ascendingInts es = ascendingItems (Value.elements es) := by
  cases es with
  | held rs =>
    simp only [Value.ascendingInts, Value.elements, Value.unheld, nil_append]
    generalize Value.held (.held rs) = xs
    match xs with
    | [] => rfl
    | .leaf l :: xs => cases l <;> rfl
    | .list _ :: _ | .tuple _ :: _ | .map _ :: _ | .set _ :: _ | .record _ _ :: _
    | .variant _ _ _ :: _ | .vmClosure _ _ :: _ => rfl
  | ints range =>
    have hle := range.le
    simp only [Value.ascendingInts, Value.elements, Value.unheld, Value.held, Value.runs,
      flatMap_nil, append_nil, Value.ints, ascendingItems, Value.int?, Option.bind_some]
    rw [ascendingFrom_ints range.lo range.hi]
    · rfl
    · simp only [absDiff]
      omega

theorem ascendingItems_eq {xs ys : List (Value declared)}
    (h : xs.map Value.key = ys.map Value.key) : ascendingItems xs = ascendingItems ys := by
  cases xs with
  | nil =>
    obtain rfl : ys = [] := by simpa using h.symm
    rfl
  | cons x xs =>
    cases ys with
    | nil => simp at h
    | cons y ys =>
      obtain ⟨hx, hxs⟩ := List.cons.inj h
      rw [ascendingItems, ascendingItems, int?_eq (head_eq_of_key_eq hx)]
      congr 1
      funext n
      rw [ascendingFrom_eq n hxs]

theorem names_eq {a b : TypeInfo declared} {as bs : List (Value declared)}
    (h : (Value.record a as).head = (Value.record b bs).head) : a.names = b.names := by
  have hp : (Value.record a as).payload = (Value.record b bs).payload := (List.cons.inj h).2
  simp only [Value.payload, List.cons.injEq, and_true, Nat.cast_inj] at hp
  obtain ⟨hid, hn⟩ := hp
  by_cases ha : a.id = anonRecord
  · rw [if_pos ha, if_pos (hid ▸ ha)] at hn
    exact map_injective_iff.mpr textCode_injective hn
  · rw [a.lawful ha, b.lawful (hid ▸ ha), hid]

theorem listLen_eq (es : Elements (Value declared)) :
    Value.listLen es = (Value.elements es).length := by
  have hin : ∀ (lo : Int64) (n : Nat), (Value.ints lo n : List (Value declared)).length = n :=
    fun lo n => by
      induction n generalizing lo with
      | zero => rfl
      | succ n ih => rw [Value.ints, length_cons, ih]
  cases es with
  | held rs => rfl
  | ints range => simp [Value.listLen, Value.elements, Value.unheld, Value.held, Value.runs, hin]

section Hashed

variable (write : Value.Write → σ → σ)

theorem endsUneven_hashed : (hashed write : Visit declared 0 σ Empty).EndsUneven := by
  rintro ended s ⟨i, j, hij⟩
  exact absurd (congrArg ended ((Fin.fin_one_eq_zero i).trans (Fin.fin_one_eq_zero j).symm)) hij

variable {write}

theorem hashed_lens_then {lens lens' : Each 0 Nat} (h : lens 0 = lens' 0)
    {f g : σ → Flow Empty σ} (hfg : ∀ s, f s = g s) (s : σ) :
    Flow.step ((hashed write : Visit declared 0 σ Empty).lens lens s) >>= f =
      Flow.step ((hashed write : Visit declared 0 σ Empty).lens lens' s) >>= g := by
  simp only [hashed, h]
  exact bind_congr hfg

/-- Of two lists with the same elements the hash goes on to the elements of both, which both then
hold, or of neither. -/
theorem hashed_lists_then {lists lists' : Each 0 (Elements (Value declared))}
    (h : (Value.elements (lists 0)).map Value.key = (Value.elements (lists' 0)).map Value.key)
    {f g : Bool × σ → Flow Empty σ} (hd : ∀ s, f (false, s) = g (false, s))
    (hfg : (Value.held (lists 0)).map Value.key = (Value.held (lists' 0)).map Value.key →
      ∀ s, f (true, s) = g (true, s)) (s : σ) :
    Flow.step ((hashed write).lists lists s) >>= f =
      Flow.step ((hashed write).lists lists' s) >>= g := by
  have hl : Value.listLen (lists 0) = Value.listLen (lists' 0) := by
    simpa [listLen_eq] using congrArg List.length h
  have ha : Value.ascendingInts (lists 0) = Value.ascendingInts (lists' 0) := by
    rw [ascendingInts_eq, ascendingInts_eq, ascendingItems_eq h]
  have hh : Value.ascendingInts (lists' 0) = none → Value.elements (lists 0) = Value.held
      (lists 0) ∧ Value.elements (lists' 0) = Value.held (lists' 0) := fun hn => by
    rw [hn] at ha
    revert ha hn
    cases lists 0 <;> cases lists' 0 <;> simp [Value.ascendingInts, Value.elements, Value.unheld]
  simp only [hashed, hl, ha]
  cases hr : Value.ascendingInts (lists' 0) with
  | some ends => exact hd _
  | none =>
    obtain ⟨hf, hs⟩ := hh hr
    rw [hf, hs] at h
    exact hfg h _

theorem hashed_part_eq {v w : Each 0 (Value declared)} (h : (v 0).key = (w 0).key)
    (hb : ∀ s, (hashed write).reads v s = (hashed write).reads w s) (s : σ) :
    (hashed write).part (hashed write).reads v s =
      (hashed write).part (hashed write).reads w s := by
  have hh := head_eq_of_key_eq h
  simp only [Visit.part, hashed, hashHead_eq hh, hasParts_eq hh]
  refine bind_congr fun s => ?_
  split
  · exact hb s
  · rfl

theorem hashed_readRows_eq {names names' : Option (TypeInfo declared)}
    (hn : names.map TypeInfo.names = names'.map TypeInfo.names)
    {lists lists' : Each 0 (List (Value declared))}
    (h : (lists 0).map Value.key = (lists' 0).map Value.key)
    (hp : ∀ v w : Each 0 (Value declared), v 0 ∈ lists 0 → (v 0).key = (w 0).key → ∀ s,
      (hashed write).part (hashed write).reads v s = (hashed write).part (hashed write).reads w s)
    (s : σ) :
    (hashed write).readRows (hashed write).reads (Rows.of names lists) s =
      (hashed write).readRows (hashed write).reads (Rows.of names' lists') s := by
  have hnm : ∀ {lists lists' : Each 0 (List (Value declared))}, (lists 0).length =
      (lists' 0).length → Visit.nameOf names lists = Visit.nameOf names' lists' := fun hl => by
    cases names <;> cases names' <;> simp_all [Visit.nameOf, Visit.nextName]
  have hl := by simpa using congrArg List.length h
  induction hx : lists 0 generalizing lists lists' s with
  | nil =>
    have hy : lists' 0 = [] := by simpa [hx] using hl.symm
    rw [Rows.of_eq, Rows.of_eq, nextOf, nextOf, among_none (Fin.forall_fin_one.mpr (by simp [hx])),
      among_none (Fin.forall_fin_one.mpr (by simp [hy])), hnm hl]
  | cons x xs ih =>
    cases hy : lists' 0 with
    | nil => simp [hx, hy] at hl
    | cons y ys =>
      rw [hx, hy] at h
      obtain ⟨hkey, hk⟩ := List.cons.inj h
      have ha : among (fun i => (lists i).head?) = .all fun _ => x :=
        among_all (Fin.forall_fin_one.mpr (by simp [hx]))
      have ha' : among (fun i => (lists' i).head?) = .all fun _ => y :=
        among_all (Fin.forall_fin_one.mpr (by simp [hy]))
      have hm : ∀ v, v ∈ (lists 0).tail → v ∈ lists 0 := fun v hv => mem_of_mem_tail hv
      rw [Rows.of_eq, Rows.of_eq, nextOf, nextOf, ha, ha']
      simp only [Visit.readRows]
      grind

theorem hashed_reads_eq (v w : Each 0 (Value declared)) (h : (v 0).key = (w 0).key) (s : σ) :
    (hashed write).reads v s = (hashed write).reads w s := by
  induction hs : (v 0).size using Nat.strong_induction_on generalizing v w s with
  | _ size ih =>
    subst hs
    have hr : ∀ names names' (lists lists' : Each 0 (List (Value declared))),
        lists 0 = (v 0).parts → names.map TypeInfo.names = names'.map TypeInfo.names →
        (lists 0).map Value.key = (lists' 0).map Value.key → ∀ s,
        (hashed write).readRows (hashed write).reads (Rows.of names lists) s =
          (hashed write).readRows (hashed write).reads (Rows.of names' lists') s :=
      fun names names' lists lists' hl hn hk s =>
        hashed_readRows_eq hn hk (fun a b ha hkey => hashed_part_eq hkey fun s =>
          ih _ (Value.size_lt_of_mem_parts (hl ▸ ha)) a b hkey s rfl) s
    have hh := head_eq_of_key_eq h
    have hit := items_eq_of_key_eq h
    have hln : (v 0).items.length = (w 0).items.length := by
      simpa using congrArg List.length hit
    rw [Visit.reads_eq, Visit.reads_eq]
    have hal := Alike.of_rank (rank_eq_of_head_eq hh)
    generalize ha : v 0 = a at hal hh hit hln
    generalize hb : w 0 = b at hal hh hit hln
    cases hal with
    | leaf a b => simp only [Visit.readParts, Visit.parts, Visit.runs, Visit.Parts.ofMany, ha, hb]
    | list as bs =>
      rw [Visit.readParts_list _ ha, Visit.readParts_list _ hb]
      refine hashed_lists_then ?_ (fun s => ?_) (fun hhl s => ?_) s
      · simp only [ha, hb, Value.listOr]
        exact hit
      · rfl
      · exact hr none none _ _ (by simp [ha, Value.listOr, Value.parts]) rfl hhl s
    | tuple as bs | variant _ _ _ _ as bs | vmClosure _ _ as bs =>
      simp only [Visit.readParts, Visit.parts, Visit.runs, ha, hb, Visit.runsOf, bind_assoc,
        pure_bind]
      refine hashed_lens_then ?_ (fun s => hr none none _ _ ?_ rfl ?_ s) s
      · simp only [ha, hb, Value.run]
        exact hln
      · simp [ha, Value.run, Value.parts]
      · simp only [ha, hb, Value.run]
        exact hit
    | record ty ty' as bs =>
      simp only [Visit.readParts, Visit.parts, Visit.runs, ha, hb, pure_bind]
      refine hr (some ty) (some ty') _ _ ?_ (congrArg some (names_eq hh)) ?_ s
      · simp [ha, Value.fields, Value.parts]
      · simp only [ha, hb, Value.fields]
        exact hit
    | set as bs =>
      simp only [Visit.readParts, Visit.parts, Visit.runs, Visit.Parts.ofMany, ha, hb, pure_bind,
        bind_assoc]
      refine hashed_lens_then ?_ (fun s => hr none none _ _ ?_ rfl ?_ s) s
      · simp only [ha, hb, Value.setOr]
        exact hln
      · simp [ha, Value.setOr, Value.parts]
      · simp only [ha, hb, Value.setOr]
        exact hit
    | map as bs =>
      simp only [Visit.readParts, Visit.parts, Visit.runs, Visit.Parts.ofMany, ha, hb, pure_bind,
        bind_assoc]
      refine hashed_lens_then ?_ (fun s => hr none none _ _ ?_ rfl ?_ s) s
      · have : (Value.interleaved as).length = (Value.interleaved bs).length := hln
        rw [Compares.length_interleaved, Compares.length_interleaved] at this
        simp only [ha, hb, Value.mapOr]
        omega
      · simp [ha, Value.mapOr, Value.parts]
      · simp only [ha, hb, Value.mapOr]
        exact hit

theorem hash_eq {a b : Value declared} (h : a.key = b.key) (s : σ) :
    a.hash write s = b.hash write s := by
  rw [Value.hash, Value.hash, Visit.walk_eq (endsUneven_hashed write),
    Visit.walk_eq (endsUneven_hashed write),
    hashed_part_eq (v := ![a]) (w := ![b]) h fun s => hashed_reads_eq _ _ h s]

variable (write) in
theorem hash_isSome (a : Value declared) (s : σ) : (a.hash write s).isSome := by
  obtain ⟨outcome, h⟩ := Visit.walk_ends (endsUneven_hashed write) ![a] s
  rw [Value.hash, h]
  cases outcome with
  | ok s => rfl
  | error stop => cases stop

end Hashed

/-! ### The three agree -/

theorem cmp_eq (a b : Value declared) : a.cmp b = some (compare a.key b.key) := by
  rw [Value.cmp, compares_order.walk_eq]
  change Option.map _ (some (verdict id (Rose.cmp a.key b.key))) = some (Rose.cmp a.key b.key)
  cases Rose.cmp a.key b.key <;> rfl

theorem eq_eq (a b : Value declared) : a.eq b = some (compare a.key b.key == .eq) := by
  rw [Value.eq, compares_equal.walk_eq]
  change Option.map _ (some (verdict (fun _ => ()) (Rose.cmp a.key b.key))) =
    some (Rose.cmp a.key b.key == .eq)
  cases Rose.cmp a.key b.key <;> rfl

example : (.list (.ints ⟨1, 3, by decide, by decide⟩) : Value fun _ => []).eq
    (.list (.held [⟨.int 1, []⟩, ⟨.int 2, [.int 3]⟩])) = some true := by decide

/-- The values and their order, as the elements of a list and the keys of a map. -/
instance : Element (Value declared) where
  int := .int
  int? := Value.int?
  cmp a b := compare a.key b.key
  int?_int _ := rfl
  eq_int_of_int? {a n} h := by
    match a with
    | .leaf (.int m) =>
      obtain rfl : m = n := by simpa [Value.int?] using h
      rfl
  trans_cmp :=
    { eq_swap := OrientedCmp.eq_swap
      isLE_trans := TransCmp.isLE_trans }
  cmp_int := cmp_key_int_int
  int?_of_cmp {a n} h := by
    have hkey : (Value.int n : Value declared).key = a.key := LawfulEqCmp.eq_of_compare h
    exact (int?_eq (head_eq_of_key_eq hkey)).symm

/-- The order of values is that of their keys.  It is total, two values are equal where neither
comes before the other, and equal values feed a hasher alike, however their lists are stored. -/
theorem order_equality_and_hash_agree (declared : Nat → List Text) :
    ∃ order : Value declared → Value declared → Ordering, (∀ a b, a.cmp b = some (order a b)) ∧
      (∀ a b, order a b = compare a.key b.key) ∧
      (∀ a, order a a = .eq) ∧
      (∀ a b, order a b = (order b a).swap) ∧
      (∀ a b, (order a b).isLE ∨ (order b a).isLE) ∧
      (∀ a b c, (order a b).isLE → (order b c).isLE → (order a c).isLE) ∧
      (∀ a b, a.eq b = some (order a b == .eq)) ∧
      (∀ a b, (order a b).isLE → (order b a).isLE → a.eq b = some true) ∧
      (∀ a b : Value declared, a.eq b = some true →
        ∀ (σ : Type) (write : Value.Write → σ → σ) (s : σ),
        ∃ s', a.hash write s = some s' ∧ b.hash write s = some s') := by
  refine ⟨fun a b => compare a.key b.key, cmp_eq, fun a b => rfl, fun a => ReflCmp.compare_self,
    fun a b => OrientedCmp.eq_swap, fun a b => ?_, fun a b c hab hbc => TransCmp.isLE_trans hab hbc,
    eq_eq, fun a b hab hba => ?_, fun a b heq σ write s => ?_⟩
  · simp only [show compare b.key a.key = (compare a.key b.key).swap from OrientedCmp.eq_swap]
    cases compare a.key b.key <;> simp
  · rw [eq_eq, OrientedCmp.isLE_antisymm hab hba]
    rfl
  · rw [eq_eq] at heq
    have hkey : a.key = b.key := by simpa using heq
    obtain ⟨s', hs'⟩ := Option.isSome_iff_exists.mp (hash_isSome write b s)
    exact ⟨s', (hash_eq hkey s).trans hs', hs'⟩

/-- A declared record with two fields. -/
def point : TypeInfo fun _ => [[120], [121]] := ⟨1, [[120], [121]], fun _ => rfl⟩

/-- Two records of one type whose lists are stored as a range and as runs feed a hasher alike. -/
theorem order_equality_and_hash_agree_point :
    let a := Value.record point [.int 1, .list (.ints ⟨1, 2, by decide, by decide⟩)]
    let b := Value.record point [.int 1, .list (.held [⟨.int 1, []⟩, ⟨.int 2, []⟩])]
    a.cmp b = some .eq ∧ ∀ (σ : Type) (write : Value.Write → σ → σ) (s : σ),
      ∃ s', a.hash write s = some s' ∧ b.hash write s = some s' := by
  intro a b
  obtain ⟨order, hc, -, -, -, -, -, he, -, hh⟩ := order_equality_and_hash_agree _
  have hab : a.eq b = some true := by decide
  refine ⟨?_, hh a b hab⟩
  rw [he] at hab
  rw [hc]
  simpa using hab

/-- The walk from near and from far shows each visitor the same, step by step, and makes the same
of it as calls alone do and as the reading of the parts does, at whatever level it takes to its
stack. -/
theorem near_and_far_walk_alike (declared : Nat → List Text) :
    ((order : Visit declared 1 Unit Ordering).WalksAlike ∧
      (order : Visit declared 1 Unit Ordering).logged.WalksAlike ∧
      ∀ left, (order : Visit declared 1 Unit Ordering).through left = order.reads) ∧
    ((equal : Visit declared 1 Unit Unit).WalksAlike ∧
      (equal : Visit declared 1 Unit Unit).logged.WalksAlike ∧
      ∀ left, (equal : Visit declared 1 Unit Unit).through left = equal.reads) ∧
    ∀ (σ : Type) (write : Value.Write → σ → σ),
      (hashed write : Visit declared 0 σ Empty).WalksAlike ∧
      (hashed write : Visit declared 0 σ Empty).logged.WalksAlike ∧
      ∀ left, (hashed write : Visit declared 0 σ Empty).through left = (hashed write).reads := by
  have ha {n : Nat} {σ Stop : Type} {visit : Visit declared n σ Stop} (he : visit.EndsUneven) :
      visit.WalksAlike ∧ visit.logged.WalksAlike ∧ ∀ left, visit.through left = visit.reads :=
    ⟨he.walksAlike, he.logged.walksAlike, fun left => funext (Visit.through_eq_reads he left)⟩
  refine ⟨ha compares_order.endsUneven, ha compares_equal.endsUneven, ?_⟩
  intro σ write
  exact ha (endsUneven_hashed write)

end Silt.Collections

import Silt.Collections.KeyWalk

/-!
# The rows a walk reads

What a walk through the parts of values reads is a table: row after row the next part of each value,
until some value has no part left.  The rows do not depend on the runs the parts are kept in, nor on
whether the walk comes to them by a call or from its stack.

## Main definitions

* `Rows` : the rows of a table; `Visit.readRows` goes through them.
* `Visit.reads` : the walk through the parts of values, row by row.

## Main results

* `Visit.through_eq_reads`, `Visit.walk_eq` : the walk of the source is that walk.
* `Visit.walk_ends` : every walk comes to an end.
* `Visit.EndsUneven.walksAlike` : where the walk takes to its stack makes no difference.
-/

namespace Silt.Collections

open List

variable {declared : Nat → List Text} {n : Nat} {α β σ Stop : Type}

variable {items : Each n (Option α)}

/-! ### Things taken together -/

theorem among_all {all : Each n α} (h : ∀ i, items i = some (all i)) : among items = .all all := by
  simp [among, h]

theorem among_none (h : ∀ i, items i = none) : among items = .none := by
  simp [among, h]

theorem among_some (hnn : ∃ i, items i = none) (hsm : ∃ i, items i ≠ none) :
    among items = .some fun i => (items i).isNone := by
  have hall : ¬ ∀ i, (items i).isSome := by simpa using hnn
  have ha : ∃ i, (items i).isSome := by simpa [Option.isSome_iff_ne_none] using hsm
  rw [among, dif_neg hall, if_pos ha]

theorem among_cases (items : Each n (Option α)) :
    (∃ all, (∀ i, items i = some (all i)) ∧ among items = .all all) ∨
    ((∀ i, items i = none) ∧ among items = .none) ∨
    ((∃ i, items i = none) ∧ (∃ i, items i ≠ none) ∧
      among items = .some fun i => (items i).isNone) := by
  by_cases hall : ∀ i, (items i).isSome
  · have h : ∀ i, items i = some ((items i).get (hall i)) := fun i => by simp
    exact .inl ⟨_, h, among_all h⟩
  · by_cases ha : ∃ i, (items i).isSome
    · have hnn : ∃ i, items i = none := by simpa using hall
      have hsm : ∃ i, items i ≠ none := by simpa [Option.isSome_iff_ne_none] using ha
      exact .inr (.inr ⟨hnn, hsm, among_some hnn hsm⟩)
    · have h : ∀ i, items i = none := fun i => by
        have := not_exists.mp ha i
        simpa using this
      exact .inr (.inl ⟨h, among_none h⟩)

theorem among_ended {ended : Each n Bool} (h : among items = .some ended) :
    ∃ i j, ended i ≠ ended j := by
  obtain ⟨all, _, ha⟩ | ⟨_, ha⟩ | ⟨⟨i, hi⟩, ⟨j, hj⟩, ha⟩ := among_cases items
  · simp [ha] at h
  · simp [ha] at h
  · obtain rfl : (fun i => (items i).isNone) = ended := by simpa [ha] using h
    exact ⟨i, j, by simp [hi, hj]⟩

/-! ### Rows -/

/-- Rows of parts side by side, each with the name the first of them has, and how they end: with
some values ended where others have a part left, or all ended. -/
inductive Rows (declared : Nat → List Text) (n : Nat) where
  | last (name : Option Text) (ended : Option (Each n Bool))
  | row (name : Option Text) (next : Each n (Value declared)) (rest : Rows declared n)

namespace Rows

/-- The rows of lists side by side. -/
def of (names : Option (TypeInfo declared)) (lists : Each n (List (Value declared))) :
    Rows declared n :=
  match _h : among fun i => (lists i).head? with
  | .all next => .row (Visit.nameOf names lists) next (of names fun i => (lists i).tail)
  | .none => .last (Visit.nameOf names lists) none
  | .some ended => .last (Visit.nameOf names lists) (some ended)
termination_by (lists 0).length
decreasing_by
  cases hl : lists 0 with
  | cons v vs => simp
  | nil =>
    rcases among_cases fun i => (lists i).head? with ⟨all, hall, _⟩ | ⟨_, hn⟩ | ⟨_, _, hs⟩
    · simpa [hl] using hall 0
    · simp [hn] at _h
    · simp [hs] at _h

variable {names : Option (TypeInfo declared)} {lists : Each n (List (Value declared))}

theorem of_eq : of names lists =
    match nextOf lists with
    | (.all next, rest) => .row (Visit.nameOf names lists) next (of names rest)
    | (.none, _) => .last (Visit.nameOf names lists) none
    | (.some ended, _) => .last (Visit.nameOf names lists) (some ended) := by
  rw [of]
  simp only [nextOf]
  split <;> simp_all

theorem of_cons (next : Each n (Value declared)) (rest : Each n (List (Value declared))) :
    of names (fun i => next i :: rest i) =
      .row (Visit.nameOf names fun i => next i :: rest i) next (of names rest) := by
  have h : among (fun i => (next i :: rest i).head?) = .all next := among_all fun _ => rfl
  rw [of_eq, nextOf, h]
  rfl

/-- The first parts of the rows. -/
def column : Rows declared n → List (Value declared)
  | .last _ _ => []
  | .row _ next rest => next 0 :: rest.column

/-- The first parts of the rows are the first list, as far as the rows go. -/
theorem column_of (names : Option (TypeInfo declared)) (lists : Each n (List (Value declared))) :
    ∃ left, lists 0 = (of names lists).column ++ left := by
  fun_induction of names lists with
  | case1 lists next h ih =>
    obtain ⟨left, hlf⟩ := ih
    obtain ⟨all, hall, ha⟩ | ⟨_, hn⟩ | ⟨_, _, hs⟩ := among_cases fun i => (lists i).head?
    · cases hl : lists 0 with
      | nil => simpa [hl] using hall 0
      | cons v vs =>
        have hv : next 0 = v := by
          grind
        exact ⟨left, by simpa [column, hv, hl] using hlf⟩
    · simp [hn] at h
    · simp [hs] at h
  | case2 lists h | case3 lists ended h => exact ⟨lists 0, by simp [column]⟩

theorem sizes_column_of (names : Option (TypeInfo declared))
    (lists : Each n (List (Value declared))) : sizes (of names lists).column ≤ sizes (lists 0) := by
  obtain ⟨left, h⟩ := column_of names lists
  rw [h, sizes_append]
  exact Nat.le_add_right _ _

end Rows

/-! ### Going through rows -/

namespace Visit

variable {values : Each n (Value declared)}

variable (visit : Visit declared n σ Stop)

/-- Go through rows; `below` goes through the parts of a part. -/
def readRows (below : Each n (Value declared) → σ → Flow Stop σ) :
    Rows declared n → σ → Flow Stop σ
  | .last name none, s => pure (visit.tell name s)
  | .last name (some ended), s => Flow.step (visit.uneven ended (visit.tell name s))
  | .row name next rest, s => do
    let s ← visit.part below next (visit.tell name s)
    readRows below rest s

variable {visit} {f g : Each n (Value declared) → σ → Flow Stop σ}

theorem part_congr {next : Each n (Value declared)} (h : f next = g next) (s : σ) :
    visit.part f next s = visit.part g next s := by
  simp only [part, h]

theorem readRows_congr {rows : Rows declared n}
    (h : ∀ next : Each n (Value declared), next 0 ∈ rows.column → f next = g next) (s : σ) :
    visit.readRows f rows s = visit.readRows g rows s := by
  induction rows generalizing s with
  | last name ended => cases ended <;> rfl
  | row name next rest ih =>
    rw [readRows, readRows, part_congr (h next (by simp [Rows.column]))]
    exact bind_congr fun s => ih (fun next hnx => h next (by simp [Rows.column, hnx])) s

@[simp]
theorem tell_none (s : σ) : visit.tell none s = s := by
  simp [tell]

/-! ### The parts left, as rows -/

namespace Parts

/-- The rows of the parts left. -/
def rows : Parts declared n → Rows declared n
  | .values vs => Rows.of none vs
  | .elements runs more => Rows.of none fun i => runs i ++ (more i).flatMap Run.items
  | .fields ty vs => Rows.of (some ty) vs
  | .entries left none => Rows.of none fun i => Value.interleaved (left i)
  | .entries left (some vs) => .row none vs (Rows.of none fun i => Value.interleaved (left i))
  | .members left => Rows.of none left

/-- The first of the entries' keys and values, and those after it. -/
theorem among_interleaved (left : Each n (List (Value declared × Value declared))) :
    among (fun i => (Value.interleaved (left i)).head?) =
      match among fun i => (left i).head? with
      | .all next => .all fun i => (next i).1
      | .none => .none
      | .some ended => .some ended := by
  have hh : ∀ i, (Value.interleaved (left i)).head? = (left i).head?.map Prod.fst := fun i => by
    cases h : left i <;> simp [Value.interleaved]
  obtain ⟨all, hall, ha⟩ | ⟨hnn, ha⟩ | ⟨hnn, hsm, ha⟩ := among_cases fun i => (left i).head?
  · rw [ha]
    exact among_all fun i => by rw [hh, hall]; rfl
  · rw [ha]
    exact among_none fun i => by rw [hh, hnn]; rfl
  · rw [ha, among_some]
    · simp [hh]
    · simpa [hh] using hnn
    · simpa [hh] using hsm

/-- The rows of entries of which none is at its end: the keys and then the values. -/
theorem of_interleaved {left : Each n (List (Value declared × Value declared))}
    {next : Each n (Value declared × Value declared)}
    (h : among (fun i => (left i).head?) = .all next) :
    Rows.of none (fun i => Value.interleaved (left i)) =
      .row none (fun i => (next i).1)
        (.row none (fun i => (next i).2)
          (Rows.of none fun i => Value.interleaved (left i).tail)) := by
  obtain ⟨all, hall, ha⟩ | ⟨_, hn⟩ | ⟨_, _, hs⟩ := among_cases fun i => (left i).head?
  · obtain rfl : next = all := by simpa [h] using ha
    have hlf : (fun i => Value.interleaved (left i)) = fun i =>
        (next i).1 :: (next i).2 :: Value.interleaved (left i).tail := by
      funext i
      cases hl : left i with
      | nil => simpa [hl] using hall i
      | cons entry entries =>
        obtain rfl : entry = next i := by simpa [hl] using hall i
        rfl
    rw [hlf, Rows.of_cons, Rows.of_cons]
    rfl
  · simp [hn] at h
  · simp [hs] at h

theorem nextRun_items (run : List (Value declared)) (more : List (Run (Value declared))) :
    (nextRun run more).1 ++ (nextRun run more).2.flatMap Run.items =
      run ++ more.flatMap Run.items := by
  cases run <;> cases more <;> simp [nextRun]

/-- After the next run is taken, what is left of a run is empty only if the list has no element
left. -/
theorem nextRun_eq_nil {run : List (Value declared)} {more : List (Run (Value declared))}
    (h : (nextRun run more).1 = []) : run ++ more.flatMap Run.items = [] := by
  cases run <;> cases more <;> simp_all [nextRun, Run.items]

theorem head?_nextRun (run : List (Value declared)) (more : List (Run (Value declared))) :
    (nextRun run more).1.head? = (run ++ more.flatMap Run.items).head? := by
  cases h : (nextRun run more).1 with
  | nil => simp [nextRun_eq_nil h]
  | cons v vs => rw [← nextRun_items, h]; simp

theorem tail_nextRun {run : List (Value declared)} {more : List (Run (Value declared))}
    (h : (nextRun run more).1 ≠ []) :
    (nextRun run more).1.tail ++ (nextRun run more).2.flatMap Run.items =
      (run ++ more.flatMap Run.items).tail := by
  rw [← nextRun_items run more, tail_append_of_ne_nil h]

/-- The rows of lists whose first runs are taken are those of their elements, kept in one run each
or not. -/
theorem rows_firstRuns (more : Each n (List (Run (Value declared)))) :
    (Parts.elements (nextRuns (fun _ => []) more).1 (nextRuns (fun _ => []) more).2).rows =
      Rows.of none fun i => (more i).flatMap Run.items :=
  congrArg (Rows.of none) (funext fun i => nextRun_items [] (more i))

theorem rows_firstRuns_of_isEmpty {more : Each n (List (Run (Value declared)))}
    (h : ∀ i, ((nextRuns (fun _ => []) more).2 i).isEmpty) :
    (Parts.values (nextRuns (fun _ => []) more).1).rows =
      Rows.of none fun i => (more i).flatMap Run.items := by
  have hnl : ∀ i, (nextRuns (fun _ => []) more).2 i = [] := by simpa using h
  rw [← rows_firstRuns]
  simp only [rows, hnl, flatMap_nil, append_nil]

theorem rows_eq (parts : Parts declared n) : parts.rows =
    match parts.next with
    | (.all next, rest) => .row parts.name next rest.rows
    | (.none, _) => .last parts.name none
    | (.some ended, _) => .last parts.name (some ended) := by
  cases parts with
  | values vs | fields ty vs =>
    rw [rows, Rows.of_eq]
    simp only [next, firstOf]
    rcases nextOf vs with ⟨_ | _ | _, _⟩ <;> rfl
  | members left =>
    rw [rows, Rows.of_eq]
    simp only [next]
    rcases nextOf left with ⟨_ | _ | _, _⟩ <;> rfl
  | elements runs more =>
    rw [rows, Rows.of_eq]
    simp only [next, firstOf, nextOf, nextRuns, head?_nextRun]
    obtain ⟨all, hall, ha⟩ | ⟨hnn, ha⟩ | ⟨hnn, hsm, ha⟩ :=
      among_cases fun i => (runs i ++ (more i).flatMap Run.items).head?
    · rw [ha]
      have hne : ∀ i, (nextRun (runs i) (more i)).1 ≠ [] := fun i h => by
        simpa [nextRun_eq_nil h] using hall i
      simp only [rows, tail_nextRun (hne _)]
      rfl
    · rw [ha]
      rfl
    · rw [ha]
      rfl
  | entries left vs =>
    cases vs with
    | some vs => rfl
    | none =>
      cases h : among fun i => (left i).head? with
      | all next =>
        simp only [Parts.next, nextOf, h]
        rw [rows, of_interleaved h]
        rfl
      | none | some _ =>
        simp only [Parts.next, nextOf, h]
        rw [rows, Rows.of_eq, nextOf, among_interleaved, h]
        rfl

theorem next_ended {parts rest : Parts declared n} {ended : Each n Bool}
    (h : parts.next = (.some ended, rest)) : ∃ i j, ended i ≠ ended j := by
  cases parts with
  | values vs | fields ty vs | members left | elements runs more =>
    exact among_ended (congrArg Prod.fst h)
  | entries left vs =>
    cases vs with
    | some vs => simp [next] at h
    | none =>
      simp only [next, nextOf] at h
      cases ha : among fun i => (left i).head? with
      | all next | none => simp [ha] at h
      | some missing =>
        obtain rfl : missing = ended := by simpa [ha] using congrArg Prod.fst h
        exact among_ended ha

theorem rows_of_isDone {parts : Parts declared n} (h : parts.isDone) :
    parts.rows = .last none none := by
  have hof : ∀ (names : Option (TypeInfo declared)) (lists : Each n (List (Value declared))),
      (∀ i, lists i = []) → Rows.of names lists = .last none none := fun names lists hnl => by
    rw [Rows.of_eq, nextOf, among_none fun i => by simp [hnl i]]
    cases names <;> simp [nameOf, nextName, hnl 0]
  cases parts with
  | values vs | members left | fields ty vs => exact hof _ _ (by simpa [isDone] using h)
  | elements runs more =>
    obtain ⟨hr, hm⟩ : (∀ i, runs i = []) ∧ ∀ i, more i = [] := by simpa [isDone] using h
    exact hof _ _ fun i => by simp [hr i, hm i]
  | entries left vs =>
    cases vs with
    | some vs => simp [isDone] at h
    | none =>
      have hlf : ∀ i, left i = [] := by simpa [isDone] using h
      exact hof _ _ fun i => by simp [hlf i, Value.interleaved]

end Parts

/-! ### Near where the walk began -/

variable (below : Each n (Value declared) → σ → Flow Stop σ)

theorem length_tail_lt {lists : Each n (List α)} {next : Each n α} {rest : Each n (List α)}
    (h : nextOf lists = (.all next, rest)) : (rest 0).length < (lists 0).length := by
  simp only [nextOf, Prod.mk.injEq] at h
  obtain ⟨hnx, rfl⟩ := h
  obtain ⟨all, hall, _⟩ | ⟨_, hn⟩ | ⟨_, _, hs⟩ := among_cases fun i => (lists i).head?
  · cases hl : lists 0 with
    | nil => simpa [hl] using hall 0
    | cons _ _ => simp [hl]
  · simp [hn] at hnx
  · simp [hs] at hnx

theorem throughRuns_eq (names : Option (TypeInfo declared)) (fuel : Nat)
    (runs : Each n (List (Value declared))) (s : σ) (h : (runs 0).length < fuel) :
    visit.throughRuns below names fuel runs s = visit.readRows below (Rows.of names runs) s := by
  induction fuel generalizing runs s with
  | zero => exact absurd h (Nat.not_lt_zero _)
  | succ fuel ih =>
    rw [throughRuns, Rows.of_eq]
    simp only [firstOf]
    rcases hnx : nextOf runs with ⟨next | _ | ended, rest⟩
    · have hlt := length_tail_lt hnx
      exact bind_congr fun s => ih rest s (by omega)
    · rfl
    · rfl

theorem throughMembers_eq (fuel : Nat) (left : Each n (List (Value declared))) (s : σ)
    (h : (left 0).length < fuel) :
    visit.throughMembers below fuel left s = visit.readRows below (Rows.of none left) s := by
  induction fuel generalizing left s with
  | zero => exact absurd h (Nat.not_lt_zero _)
  | succ fuel ih =>
    rw [throughMembers, Rows.of_eq]
    rcases hnx : nextOf left with ⟨next | _ | ended, rest⟩
    · have hlt := length_tail_lt hnx
      simp only [readRows, nameOf, Option.bind_none, tell_none]
      exact bind_congr fun s => ih rest s (by omega)
    · simp [readRows, nameOf]
    · simp [readRows, nameOf]

theorem throughEntries_eq (fuel : Nat) (left : Each n (List (Value declared × Value declared)))
    (s : σ) (h : (left 0).length < fuel) :
    visit.throughEntries below fuel left s =
      visit.readRows below (Rows.of none fun i => Value.interleaved (left i)) s := by
  induction fuel generalizing left s with
  | zero => exact absurd h (Nat.not_lt_zero _)
  | succ fuel ih =>
    rw [throughEntries]
    rcases hnx : nextOf left with ⟨next | _ | ended, rest⟩
    · have hlt := length_tail_lt hnx
      obtain ⟨ha, rfl⟩ := Prod.mk.injEq .. ▸ hnx
      rw [Parts.of_interleaved ha]
      simp only [readRows, tell_none]
      grind
    · obtain ⟨ha, _⟩ := Prod.mk.injEq .. ▸ hnx
      rw [Rows.of_eq, nextOf, Parts.among_interleaved, ha]
      simp [readRows, nameOf]
    · obtain ⟨ha, _⟩ := Prod.mk.injEq .. ▸ hnx
      rw [Rows.of_eq, nextOf, Parts.among_interleaved, ha]
      simp [readRows, nameOf]

theorem readRows_append (k : Nat) (runs rest : Each n (List (Value declared))) (s : σ)
    (h : ∀ i, k ≤ (runs i).length) :
    visit.readRows below (Rows.of none fun i => runs i ++ rest i) s =
      (List.range k).foldlM (fun s place => do
        let items ← itemsAt runs place
        visit.part below items s) s >>= fun s =>
      visit.readRows below (Rows.of none fun i => (runs i).drop k ++ rest i) s := by
  induction k with
  | zero => simp
  | succ k ih =>
    have hk : ∀ i, k < (runs i).length := fun i => h i
    have hd : (fun i => (runs i).drop k ++ rest i) = fun i =>
        (runs i).get ⟨k, hk i⟩ :: ((runs i).drop (k + 1) ++ rest i) := by
      funext i
      rw [drop_eq_getElem_cons (hk i)]
      rfl
    have hi : (itemsAt runs k : Flow Stop (Each n (Value declared))) =
        pure fun i => (runs i).get ⟨k, hk i⟩ := by
      rw [itemsAt, among_all fun i => getElem?_eq_getElem (hk i)]
      rfl
    rw [ih fun i => (h i).trans' (Nat.le_succ k), hd, Rows.of_cons, range_succ,
      foldlM_append, bind_assoc]
    simp [hi, readRows, nameOf]

theorem foldl_min_le (most : Nat) (lens : List Nat) :
    lens.foldl min most ≤ most ∧ ∀ len ∈ lens, lens.foldl min most ≤ len := by
  induction lens generalizing most with
  | nil => simp
  | cons len lens ih => grind

theorem zero_mem_of_foldl_min (most : Nat) (lens : List Nat) (h : lens.foldl min most = 0) :
    most = 0 ∨ 0 ∈ lens := by
  induction lens generalizing most with
  | nil => exact .inl h
  | cons len lens ih => grind

theorem shortest_le (runs : Each n (List (Value declared))) (i : Fin (n + 1)) :
    shortest runs ≤ (runs i).length :=
  (foldl_min_le _ _).2 _ (mem_ofFn.mpr ⟨i, rfl⟩)

theorem exists_nil_of_shortest {runs : Each n (List (Value declared))} (h : shortest runs = 0) :
    ∃ i, runs i = [] := by
  rcases zero_mem_of_foldl_min _ _ h with h | h
  · exact absurd h (by decide)
  grind

theorem throughElements_eq (fuel : Nat) (runs : Each n (List (Value declared)))
    (more : Each n (List (Run (Value declared)))) (s : σ)
    (h : (runs 0 ++ (more 0).flatMap Run.items).length < fuel) :
    visit.throughElements below fuel runs more s =
      visit.readRows below (Rows.of none fun i => runs i ++ (more i).flatMap Run.items) s := by
  induction fuel generalizing runs more s with
  | zero => exact absurd h (Nat.not_lt_zero _)
  | succ fuel ih =>
    have hls : (fun i => runs i ++ (more i).flatMap Run.items) = fun i =>
        (nextRuns runs more).1 i ++ ((nextRuns runs more).2 i).flatMap Run.items :=
      funext fun i => (Parts.nextRun_items (runs i) (more i)).symm
    have hh : ∀ i, (runs i ++ (more i).flatMap Run.items).head? =
        ((nextRuns runs more).1 i).head? := fun i => (Parts.head?_nextRun (runs i) (more i)).symm
    rw [throughElements]
    generalize nextRuns runs more = taken at hls hh
    obtain ⟨runs', more'⟩ := taken
    simp only at hls hh ⊢
    by_cases hst : shortest runs' = 0
    · -- A run is at its end, and with it its list: the rows end here.
      rw [if_pos hst, Rows.of_eq, nextOf]
      simp only [hh]
      obtain ⟨i, hi⟩ := exists_nil_of_shortest hst
      obtain ⟨all, hall, _⟩ | ⟨hnn, ha⟩ | ⟨_, hsm, ha⟩ := among_cases fun i => (runs' i).head?
      · simpa [hi] using hall i
      · rw [ha, if_neg (by simpa using hnn)]
        simp [readRows, nameOf]
      · have he : (fun i => (runs' i).isEmpty) = fun i => (runs' i).head?.isNone :=
          funext fun i => by cases runs' i <;> rfl
        rw [ha, if_pos (by simpa using hsm), he]
        simp [readRows, nameOf]
    · rw [if_neg hst, hls, readRows_append below (shortest runs') _ _ s (shortest_le _)]
      refine bind_congr fun s => ih _ _ s ?_
      have hln := congrArg List.length (congrFun hls 0)
      have hle := shortest_le runs' 0
      simp only [length_append, length_drop] at h hln ⊢
      omega

/-- The walk through the parts of values, row by row. -/
def readParts (visit : Visit declared n σ Stop) (values : Each n (Value declared)) (s : σ) :
    Flow Stop σ := do
  let (found, s) ← visit.parts values s
  match found with
  | none => pure s
  | some parts => visit.readRows below parts.rows s

theorem throughParts_eq (values : Each n (Value declared)) (s : σ) :
    visit.throughParts below values s = readParts below visit values s := by
  rw [throughParts, readParts, parts, bind_assoc]
  refine bind_congr fun ⟨found, s⟩ => ?_
  match found with
  | .of (some ty) runs | .of none runs =>
    exact throughRuns_eq below _ _ runs s (Nat.lt_succ_self _)
  | .elements more =>
    simp only
    rw [throughElements_eq below _ (fun _ => []) more s (by simp)]
    by_cases hm : ∀ i, ((nextRuns (fun _ => []) more).2 i).isEmpty
    · simp only [if_pos hm, pure_bind, Parts.rows_firstRuns_of_isEmpty hm, nil_append]
    · simp only [if_neg hm, pure_bind, Parts.rows_firstRuns, nil_append]
  | .done => simp
  | .not =>
    simp only [throughMany, Parts.ofMany]
    cases hv : values 0 with
    | map first =>
      simp only [bind_assoc, pure_bind]
      exact bind_congr fun s => throughEntries_eq below _ _ s (by simp [hv])
    | set first =>
      simp only [bind_assoc, pure_bind]
      exact bind_congr fun s => throughMembers_eq below _ _ s (by simp [hv])
    | leaf _ | list _ | tuple _ | record _ _ | variant _ _ _ | vmClosure _ _ =>
      simp only [pure_bind]
      rw [Parts.rows_of_isDone (by simp [Parts.isDone])]
      simp [readRows]

theorem readParts_list {first : Elements (Value declared)} (h : values 0 = .list first) (s : σ) :
    readParts below visit values s =
      (Flow.step (visit.lists (fun i => (values i).listOr first) s) >>= fun (onward, s) =>
        if onward then
          visit.readRows below (Rows.of none fun i => Value.held ((values i).listOr first)) s
        else pure s) := by
  rw [← throughParts_eq, throughParts, runs, h]
  simp only [bind_assoc]
  refine bind_congr fun ⟨onward, s⟩ => ?_
  cases onward with
  | false => rfl
  | true =>
    exact throughElements_eq below _ _ _ s (by simp)

/-! ### The walk, row by row -/

/-- The parts that are read of a value are smaller than it is. -/
theorem parts_bind_congr {s : σ} {f g : Option (Parts declared n) × σ → Flow Stop σ}
    (hnn : ∀ s, f (none, s) = g (none, s))
    (hsm : ∀ parts s, sizes parts.rows.column < (values 0).size →
      f (some parts, s) = g (some parts, s)) :
    (visit.parts values s >>= f) = visit.parts values s >>= g := by
  have hof : ∀ (names : Option (TypeInfo declared)) (lists : Each n (List (Value declared))),
      lists 0 = (values 0).parts → sizes (Rows.of names lists).column < (values 0).size :=
    fun names lists hls => by
      have := Rows.sizes_column_of names lists
      rw [hls] at this
      exact Nat.lt_of_le_of_lt this (by rw [Value.size_eq]; exact Nat.lt_succ_self _)
  rw [parts, runs]
  cases hv : values 0 with
  | leaf _ =>
    simp only [pure_bind, Parts.ofMany, hv]
    exact hsm _ s (by
      rw [Parts.rows_of_isDone (by simp [Parts.isDone]), Value.size_eq]
      exact Nat.zero_lt_succ _)
  | tuple _ | variant _ _ _ | vmClosure _ _ =>
    simp only [runsOf, bind_assoc, pure_bind]
    exact bind_congr fun s => hsm _ s (hof _ _ (by simp [hv, Value.run, Value.parts]))
  | record ty _ =>
    exact hsm _ s (hof _ _ (by simp [hv, Value.fields, Value.parts]))
  | map _ =>
    simp only [pure_bind, Parts.ofMany, hv, bind_assoc]
    exact bind_congr fun s => hsm _ s (hof _ _ (by simp [hv, Value.mapOr, Value.parts]))
  | set _ =>
    simp only [pure_bind, Parts.ofMany, hv, bind_assoc]
    exact bind_congr fun s => hsm _ s (hof _ _ (by simp [hv, Value.setOr, Value.parts]))
  | list first =>
    simp only [bind_assoc]
    refine bind_congr fun x => ?_
    obtain ⟨onward, s⟩ := x
    cases onward with
    | false => simpa using hnn s
    | true =>
      simp only [if_true, pure_bind]
      have hsz : sizes (Rows.of none fun i => (Value.runs ((values i).listOr first)).flatMap
          Run.items : Rows declared n).column < (Value.list first).size := by
        rw [← hv]
        exact hof _ _ (by simp [hv, Value.listOr, Value.parts, Value.held])
      by_cases hm : ∀ i, ((nextRuns (fun _ => [])
          fun i => Value.runs ((values i).listOr first)).2 i).isEmpty
      · simp only [if_pos hm, pure_bind]
        exact hsm _ s (by rwa [Parts.rows_firstRuns_of_isEmpty hm, hv])
      · simp only [if_neg hm, pure_bind]
        exact hsm _ s (by rwa [Parts.rows_firstRuns, hv])

/-- The walk through the parts of values, row by row and to the bottom of values that are not
deeper than `depth`. -/
def readsWithin (visit : Visit declared n σ Stop) :
    Nat → Each n (Value declared) → σ → Flow Stop σ
  | 0 => fun _ _ => Flow.out
  | depth + 1 => readParts (readsWithin visit depth) visit

variable (visit) in
/-- The walk through the parts of values, row by row. -/
def reads (values : Each n (Value declared)) : σ → Flow Stop σ :=
  visit.readsWithin (values 0).size values

theorem readParts_congr
    (h : ∀ next : Each n (Value declared), (next 0).size < (values 0).size → f next = g next) :
    readParts f visit values = readParts g visit values := by
  funext s
  refine parts_bind_congr (fun _ => rfl) fun parts s hp => ?_
  exact readRows_congr (fun next hnx => h next ((size_le_sizes hnx).trans_lt hp)) s

theorem readsWithin_eq (depth depth' : Nat) (values : Each n (Value declared))
    (h : (values 0).size ≤ depth) (h' : (values 0).size ≤ depth') :
    visit.readsWithin depth values = visit.readsWithin depth' values := by
  have hp : 0 < (values 0).size := by rw [Value.size_eq]; exact Nat.succ_pos _
  induction depth generalizing depth' values with
  | zero => omega
  | succ depth ih =>
    cases depth' with
    | zero => omega
    | succ depth' =>
      refine readParts_congr fun next hnx => ih depth' next (by omega) (by omega) ?_
      rw [Value.size_eq]
      exact Nat.succ_pos _

theorem reads_eq (values : Each n (Value declared)) :
    visit.reads values = readParts visit.reads visit values := by
  rw [reads, readsWithin_eq _ ((values 0).size + 1) values le_rfl (Nat.le_succ _)]
  exact readParts_congr fun next hnx => readsWithin_eq _ _ next hnx.le le_rfl

/-! ### Far from where the walk began -/

/-- How many steps are left for parts. -/
def weight (parts : List (Parts declared n)) : Nat :=
  (parts.map fun p => 2 * sizes p.rows.column + 1).sum

variable (visit) in
/-- Go through parts one after another. -/
def readAll (parts : List (Parts declared n)) (s : σ) : Flow Stop σ :=
  parts.foldlM (fun s p => visit.readRows visit.reads p.rows s) s

theorem readAll_cons (p : Parts declared n) (parts : List (Parts declared n)) (s : σ) :
    visit.readAll (p :: parts) s = visit.readRows visit.reads p.rows s >>= visit.readAll parts := by
  rfl

theorem weight_cons (p : Parts declared n) (parts : List (Parts declared n)) :
    weight (p :: parts) = 2 * sizes p.rows.column + 1 + weight parts := by
  simp [weight]

theorem readAll_of_isDone (o : Parts declared n) (waiting : List (Parts declared n)) :
    visit.readAll (if o.isDone then waiting else o :: waiting) = visit.readAll (o :: waiting) := by
  split
  · rename_i h
    funext s
    rw [readAll_cons, Parts.rows_of_isDone h]
    simp [readRows]
  · rfl

variable (visit) in
/-- The visitor ends the walk where some values have no part left and others have. -/
def EndsUneven : Prop :=
  ∀ ended s, (∃ i j, ended i ≠ ended j) → ∃ stop, visit.uneven ended s = .error stop

theorem throughStack_eq (he : visit.EndsUneven) (fuel : Nat) (current : Parts declared n)
    (waiting : List (Parts declared n)) (s : σ) (h : weight (current :: waiting) ≤ fuel) :
    visit.throughStack fuel current waiting s = visit.readAll (current :: waiting) s := by
  induction fuel generalizing current waiting s with
  | zero => simp [weight_cons] at h
  | succ fuel ih =>
    rw [throughStack.eq_def, readAll_cons]
    rw [weight_cons] at h
    simp only
    have hr := current.rows_eq
    rcases hnx : current.next with ⟨next | _ | ended, o⟩
    · rw [hnx] at hr
      rw [hr] at h ⊢
      have hsz : 0 < (next 0).size := by rw [Value.size_eq]; exact Nat.succ_pos _
      simp only [Rows.column, sizes] at h
      have ho : weight (o :: waiting) ≤ fuel := by
        rw [weight_cons]
        omega
      simp only [readRows, part, bind_assoc]
      refine bind_congr fun s => ?_
      split
      · rw [reads_eq, readParts, bind_assoc]
        refine parts_bind_congr (fun s => ?_) fun inner s hi => ?_
        · simp only [pure_bind, ih o waiting s ho, readAll_cons]
        · have hw : weight (if o.isDone then waiting else o :: waiting) ≤
              weight (o :: waiting) := by
            split
            · rw [weight_cons]
              omega
            · rfl
          rw [weight_cons] at hw
          simp only
          rw [ih inner _ s (by rw [weight_cons]; omega), readAll_cons, readAll_of_isDone]
          exact bind_congr fun s => readAll_cons o waiting s
      · simp only [pure_bind, ih o waiting s ho, readAll_cons]
    · rw [hnx] at hr
      rw [hr]
      simp only [readRows, pure_bind]
      cases waiting with
      | nil => simp [readAll]
      | cons o waiting => exact ih o waiting _ (by omega)
    · rw [hnx] at hr
      rw [hr]
      obtain ⟨stop, hst⟩ := he ended (visit.tell current.name s) (Parts.next_ended hnx)
      simp only [readRows, hst]
      rfl

theorem throughFar_eq (he : visit.EndsUneven) (values : Each n (Value declared)) :
    visit.throughFar values = visit.reads values := by
  rw [reads_eq]
  funext s
  refine parts_bind_congr (fun _ => rfl) fun parts s hp => ?_
  have hw : weight [parts] ≤ 2 * (values 0).size := by
    simp only [weight, map_cons, map_nil, sum_cons, sum_nil]
    omega
  simp only [throughStack_eq he _ parts [] s hw, readAll_cons]
  exact bind_pure _

/-- However many levels the walk goes down by calls, it reads the rows of the parts. -/
theorem through_eq_reads (he : visit.EndsUneven) (left : Nat)
    (values : Each n (Value declared)) : visit.through left values = visit.reads values := by
  induction left generalizing values with
  | zero =>
    funext s
    rw [through, throughParts_eq, funext (throughFar_eq he), ← reads_eq]
  | succ left ih =>
    funext s
    rw [through, throughParts_eq, funext ih, ← reads_eq]

/-- The walk visits the heads and then reads the rows of the parts. -/
theorem walk_eq (he : visit.EndsUneven) (values : Each n (Value declared)) (s : σ) :
    visit.walk values s = visit.part visit.reads values s := by
  rw [walk, part, through_eq_reads he]

/-! ### The walk comes to an end -/

end Visit

/-- The walk has come to an end. -/
def Flow.Ends (flow : Flow Stop α) : Prop := ∃ outcome, flow = Flow.step outcome

namespace Flow

theorem ends_step (outcome : Except Stop α) : Ends (step outcome) := ⟨outcome, rfl⟩

theorem ends_pure (a : α) : Ends (pure a : Flow Stop α) := ⟨.ok a, rfl⟩

theorem Ends.bind {flow : Flow Stop α} {f : α → Flow Stop β} (h : Ends flow)
    (hf : ∀ a, Ends (f a)) : Ends (flow >>= f) := by
  obtain ⟨outcome, rfl⟩ := h
  cases outcome with
  | ok a => exact hf a
  | error stop => exact ⟨.error stop, rfl⟩

end Flow

namespace Visit

open Silt.Collections.Flow

variable {visit : Visit declared n σ Stop} {below : Each n (Value declared) → σ → Flow Stop σ}

theorem readRows_ends (h : ∀ next s, Ends (below next s)) (rows : Rows declared n) (s : σ) :
    Ends (visit.readRows below rows s) := by
  induction rows generalizing s with
  | last name ended =>
    cases ended with
    | none => exact ends_pure _
    | some ended => exact ends_step _
  | row name next rest ih =>
    refine Ends.bind (Ends.bind (ends_step _) fun s => ?_) ih
    split
    · exact h next s
    · exact ends_pure s

theorem runs_ends (values : Each n (Value declared)) (s : σ) : Ends (visit.runs values s) := by
  unfold runs
  split
  · exact (ends_step _).bind fun _ => ends_pure _
  · exact (ends_step _).bind fun _ => ends_pure _
  · exact (ends_step _).bind fun _ => ends_pure _
  · exact ends_pure _
  · refine (ends_step _).bind fun (onward, s) => ?_
    cases onward
    · exact ends_pure _
    · exact ends_pure _
  · exact ends_pure _

theorem parts_ends (values : Each n (Value declared)) (s : σ) : Ends (visit.parts values s) := by
  refine (runs_ends values s).bind fun (found, s) => ?_
  match found with
  | .of (some _) _ | .of none _ | .done => exact ends_pure _
  | .elements more =>
    simp only
    split
    · exact ends_pure _
    · exact ends_pure _
  | .not =>
    rcases Parts.ofMany values with ⟨_ | lens, parts⟩
    · exact ends_pure _
    · exact (ends_step _).bind fun _ => ends_pure _

theorem readParts_ends {values : Each n (Value declared)}
    (h : ∀ next : Each n (Value declared), (next 0).size < (values 0).size →
      ∀ s, Ends (below next s)) (s : σ) : Ends (readParts below visit values s) := by
  -- Only smaller values are read: the others may as well be left out.
  have hc : readParts below visit values = readParts
      (fun next s => if (next 0).size < (values 0).size then below next s else pure s)
      visit values :=
    readParts_congr fun next hnx => by simp only [if_pos hnx]
  rw [hc]
  refine (parts_ends values s).bind fun (found, s) => ?_
  cases found with
  | none => exact ends_pure s
  | some parts =>
    refine readRows_ends (fun next s => ?_) _ s
    split
    · rename_i hnx
      exact h next hnx s
    · exact ends_pure s

theorem reads_ends (values : Each n (Value declared)) (s : σ) : Ends (visit.reads values s) := by
  induction hsz : (values 0).size using Nat.strong_induction_on generalizing values s with
  | _ size ih =>
    subst hsz
    rw [reads_eq]
    exact readParts_ends (fun next hnx s => ih _ hnx next s rfl) s

theorem part_ends {values : Each n (Value declared)} (h : ∀ s, Ends (below values s)) (s : σ) :
    Ends (visit.part below values s) := by
  refine (ends_step _).bind fun s => ?_
  split
  · exact h s
  · exact ends_pure s

theorem walk_ends (he : visit.EndsUneven) (values : Each n (Value declared)) (s : σ) :
    Ends (visit.walk values s) := by
  rw [walk_eq he]
  exact part_ends (reads_ends values) s

/-! ### The walk by calls alone -/

/-- Go through the parts of values by calls alone, down `depth` levels at most. -/
def byCalls (visit : Visit declared n σ Stop) : Nat → Each n (Value declared) → σ → Flow Stop σ
  | 0 => fun _ _ => Flow.out
  | depth + 1 => visit.throughParts (byCalls visit depth)

theorem byCalls_eq (depth : Nat) : visit.byCalls depth = visit.readsWithin depth := by
  induction depth with
  | zero => rfl
  | succ depth ih =>
    funext values s
    rw [byCalls, throughParts_eq, ih, readsWithin]

variable (visit) in
/-- However many levels the walk goes down before it takes to its stack, it is to the visitor the
walk by calls alone, which comes to an end where its levels are enough for the values. -/
def WalksAlike : Prop :=
  ∀ values, ∃ levels, ∀ depth ≥ levels, ∀ s, Ends (visit.part (visit.byCalls depth) values s) ∧
    ∀ left, visit.part (visit.through left) values s = visit.part (visit.byCalls depth) values s

theorem EndsUneven.walksAlike (he : visit.EndsUneven) : visit.WalksAlike := by
  intro values
  refine ⟨(values 0).size, fun depth hd s => ?_⟩
  have hc : visit.byCalls depth values = visit.reads values := by
    rw [byCalls_eq]
    exact readsWithin_eq depth _ values hd le_rfl
  refine ⟨part_ends (fun s => ?_) s, fun left => ?_⟩
  · rw [hc]
    exact reads_ends values s
  · rw [part, part, hc, through_eq_reads he]

/-- What a visitor is told at a step. -/
inductive Told (declared : Nat → List Text) (n : Nat) where
  | heads (values : Each n (Value declared))
  | lens (lens : Each n Nat)
  | lists (lists : Each n (Elements (Value declared)))
  | name (name : Text)
  | uneven (ended : Each n Bool)

/-- What a step makes, with what was told so far. -/
def noted (log : List (Told declared n)) : Except Stop α →
    Except (Stop × List (Told declared n)) (α × List (Told declared n))
  | .ok a => .ok (a, log)
  | .error stop => .error (stop, log)

variable (visit) in
/-- The visitor, with a log of all that it is told. -/
def logged : Visit declared n (σ × List (Told declared n)) (Stop × List (Told declared n)) where
  names := visit.names
  heads values s := noted (s.2 ++ [.heads values]) (visit.heads values s.1)
  lens lens s := noted (s.2 ++ [.lens lens]) (visit.lens lens s.1)
  lists lists s := (noted (s.2 ++ [.lists lists]) (visit.lists lists s.1)).map
    fun ((onward, s), log) => (onward, s, log)
  name name s := (visit.name name s.1, s.2 ++ [.name name])
  uneven ended s := noted (s.2 ++ [.uneven ended]) (visit.uneven ended s.1)

theorem EndsUneven.logged (hen : visit.EndsUneven) : visit.logged.EndsUneven := by
  intro ended s he
  obtain ⟨stop, hst⟩ := hen ended s.1 he
  exact ⟨(stop, s.2 ++ [.uneven ended]), by simp only [Visit.logged, hst, noted]⟩

end Visit
end Silt.Collections

import Mathlib.Data.List.TakeWhile
import Silt.Http.Wire

/-!
# Reading requests does not depend on how the bytes arrive

The reader of a connection gives the same requests, and ends in the same way, however the bytes are
cut into reads and whether or not `buffered` is called first (`requests_independent_of_cutting`).

Each loop of the reader looks at the bytes that have arrived.  What makes the cutting invisible is
that a look that comes to an end comes to the same end when more bytes are there: the limits are
compared with what has arrived only where what is sent must be beyond them too.
-/

namespace Silt.Http

open List Option Bool

open Pieces

variable {bytes rest buf : List UInt8} {n m limit : Nat} {bt : UInt8} {s : Searching}
  {tooLong : Refused}

/-! ### The end of a head -/

theorem emptyLine_append (h : emptyLine bytes = some n) (later : List UInt8) :
    emptyLine (bytes ++ later) = some n := by
  unfold emptyLine at h
  split at h
  · exact h
  · exact h
  · cases h

theorem emptyLine_le (h : emptyLine bytes = some n) : 2 ≤ n ∧ n ≤ 3 ∧ n ≤ bytes.length := by
  unfold emptyLine at h
  split at h
  · cases h
    simp
  · cases h
    simp
  · cases h

theorem emptyLine_take (h : emptyLine bytes = some n) (hm : n ≤ m) :
    emptyLine (bytes.take m) = some n := by
  unfold emptyLine at h
  split at h
  · cases h
    obtain ⟨m, rfl⟩ := Nat.exists_eq_add_of_le' hm
    rfl
  · cases h
    obtain ⟨m, rfl⟩ := Nat.exists_eq_add_of_le' hm
    rfl
  · cases h

theorem emptyLine_congr (a b c : UInt8) (rest rest' : List UInt8) :
    emptyLine (a :: b :: c :: rest) = emptyLine (a :: b :: c :: rest') := by
  unfold emptyLine
  split <;> split <;> simp_all

theorem headEnd_cons_of_some (h : emptyLine (bt :: rest) = some n) :
    headEnd (bt :: rest) = some n := by
  rw [headEnd, h]

theorem headEnd_cons_of_none (h : emptyLine (bt :: rest) = none) :
    headEnd (bt :: rest) = (headEnd rest).map (· + 1) := by
  rw [headEnd, h]

theorem headEnd_of_cons (h : headEnd (bt :: rest) = none) : headEnd rest = none := by
  cases hl : emptyLine (bt :: rest) with
  | some n =>
    rw [headEnd_cons_of_some hl] at h
    cases h
  | none =>
    rw [headEnd_cons_of_none hl] at h
    exact map_eq_none_iff.mp h

theorem headEnd_le (h : headEnd bytes = some n) : 2 ≤ n ∧ n ≤ bytes.length := by
  induction bytes generalizing n with
  | nil => cases h
  | cons bt rest ih =>
    cases hl : emptyLine (bt :: rest) with
    | some k =>
      rw [headEnd_cons_of_some hl] at h
      cases h
      have := emptyLine_le hl
      omega
    | none =>
      rw [headEnd_cons_of_none hl] at h
      obtain ⟨m, hm, rfl⟩ := map_eq_some_iff.mp h
      have := ih hm
      rw [length_cons]
      omega

theorem headEnd_append (h : headEnd bytes = some n) (later : List UInt8) :
    headEnd (bytes ++ later) = some n := by
  induction bytes generalizing n with
  | nil => cases h
  | cons bt rest ih =>
    cases hl : emptyLine (bt :: rest) with
    | some k =>
      rw [headEnd_cons_of_some hl] at h
      exact (headEnd_cons_of_some (emptyLine_append hl later)).trans h
    | none =>
      rw [headEnd_cons_of_none hl] at h
      obtain ⟨m, hm, rfl⟩ := map_eq_some_iff.mp h
      have hr := headEnd_le hm
      -- the line that ends here is not the empty one, with all its three bytes there
      have hl' : emptyLine (bt :: (rest ++ later)) = none := by
        match rest, hr with
        | b :: c :: rest, _ => exact (emptyLine_congr bt b c _ _).trans hl
        | [b], hr => simp at hr; omega
      rw [cons_append, headEnd_cons_of_none hl', ih hm]
      rfl

theorem headEnd_take (h : headEnd bytes = some n) (hm : n ≤ m) :
    headEnd (bytes.take m) = some n := by
  induction bytes generalizing n m with
  | nil => cases h
  | cons bt rest ih =>
    obtain ⟨m, rfl⟩ : ∃ k, m = k + 1 :=
      Nat.exists_eq_succ_of_ne_zero (by have := headEnd_le h; omega)
    rw [take_succ_cons]
    cases hln : emptyLine (bt :: rest) with
    | some k =>
      rw [headEnd_cons_of_some hln] at h
      cases h
      have ht := emptyLine_take hln hm
      exact headEnd_cons_of_some ht
    | none =>
      rw [headEnd_cons_of_none hln] at h
      obtain ⟨k, hk, rfl⟩ := map_eq_some_iff.mp h
      have hln' : emptyLine (bt :: rest.take m) = none := by
        by_contra hne
        obtain ⟨l, hl⟩ := ne_none_iff_exists'.mp hne
        have hb := emptyLine_append hl (rest.drop m)
        rw [cons_append, take_append_drop, hln] at hb
        cases hb
      rw [headEnd_cons_of_none hln', ih hk (by omega)]
      rfl

theorem headEnd_append_of_none {later : List UInt8} (h : headEnd bytes = none)
    (hn : headEnd (bytes ++ later) = some n) : bytes.length < n := by
  by_contra hle
  have ht := headEnd_take hn (Nat.le_of_not_lt hle)
  rw [take_left] at ht
  rw [h] at ht
  cases ht

/-- An end that is not in the part that was searched is found from two bytes before the end of that
part on. -/
theorem isSome_headEnd_drop {k : Nat} (h : headEnd (bytes.take m) = none) (hk : k + 2 ≤ m) :
    (headEnd (bytes.drop k)).isSome = (headEnd bytes).isSome := by
  induction k generalizing bytes m with
  | zero => rw [drop_zero]
  | succ k ih =>
    cases bytes with
    | nil => rfl
    | cons bt rest =>
      obtain ⟨m, rfl⟩ : ∃ j, m = j + 1 := Nat.exists_eq_succ_of_ne_zero (by omega)
      rw [take_succ_cons] at h
      have hln : emptyLine (bt :: rest) = none := by
        by_contra hne
        obtain ⟨l, hl⟩ := ne_none_iff_exists'.mp hne
        have ht := emptyLine_take (m := m + 1) hl (by have := emptyLine_le hl; omega)
        rw [headEnd_cons_of_some ht] at h
        cases h
      rw [drop_succ_cons, ih (headEnd_of_cons h) (by omega), headEnd_cons_of_none hln, isSome_map]

/-! ### The start of a request -/

theorem takeWhile_eq_self_of_length {p : UInt8 → Bool}
    (h : (bytes.takeWhile p).length = bytes.length) : bytes.takeWhile p = bytes := by
  have hp := takeWhile_prefix (l := bytes) p
  exact hp.eq_of_length h

theorem takeWhile_append_of_mem {p : UInt8 → Bool} (later : List UInt8) (h : bt ∈ bytes)
    (hb : p bt = false) : (bytes ++ later).takeWhile p = bytes.takeWhile p := by
  rw [List.takeWhile_append, if_neg]
  intro hl
  have ha : bytes.takeWhile p = bytes := takeWhile_eq_self_of_length hl
  simp_all

theorem takeWhile_prefix_append (p : UInt8 → Bool) (bytes later : List UInt8) :
    bytes.takeWhile p <+: (bytes ++ later).takeWhile p := by
  rw [List.takeWhile_append]
  grind

theorem head?_append_of_some (later : List UInt8) (h : bytes.head? = some bt) :
    (bytes ++ later).head? = some bt := by
  rw [head?_append, h]
  rfl

/-- Bytes that begin no request begin none with more after them. -/
theorem beginsNoRequest_append (later : List UInt8) (h : beginsNoRequest buf = true) :
    beginsNoRequest (buf ++ later) = true := by
  simp only [beginsNoRequest, List.take_append, Bool.or_eq_true, decide_eq_true_eq, beq_iff_eq,
    Bool.not_eq_true', List.all_eq_false] at h ⊢
  set begins := buf.take (methodMax + 1)
  set more := later.take (methodMax + 1 - buf.length)
  have hm := takeWhile_prefix_append (· != 32) begins more
  grind

theorem lf_mem_of_headEnd (h : headEnd bytes = some n) : 10 ∈ bytes := by
  induction bytes generalizing n with
  | nil => cases h
  | cons bt rest ih =>
    cases hl : emptyLine (bt :: rest) with
    | some k =>
      unfold emptyLine at hl
      grind
    | none =>
      rw [headEnd_cons_of_none hl] at h
      obtain ⟨m, hm, -⟩ := map_eq_some_iff.mp h
      exact mem_cons_of_mem _ (ih hm)

/-- A method that ends a line has a space before that: the LF is no byte of a method. -/
theorem space_mem_of_headEnd (h : beginsNoRequest buf = false) (he : headEnd buf = some n) :
    32 ∈ buf.take (methodMax + 1) := by
  by_contra hs
  simp only [beginsNoRequest, Bool.or_eq_false_iff, decide_eq_false_iff_not, Bool.not_eq_false',
    List.all_eq_true] at h
  obtain ⟨⟨hl, -⟩, ht⟩ := h
  have ha : (buf.take (methodMax + 1)).takeWhile (· != 32) = buf.take (methodMax + 1) := by
    refine takeWhile_eq_self_iff.mpr fun bt hb => ?_
    rw [bne_iff_ne]
    rintro rfl
    exact hs hb
  rw [ha] at hl ht
  have hbf : buf.take (methodMax + 1) = buf := by
    refine take_of_length_le ?_
    rw [length_take] at hl
    omega
  rw [hbf] at ht
  exact absurd (ht 10 (lf_mem_of_headEnd he)) (by decide)

/-- Bytes that begin a request, up to the end of a line, begin one with more after them. -/
theorem beginsRequest_append (later : List UInt8) (h : beginsNoRequest buf = false)
    (he : headEnd buf = some n) : beginsNoRequest (buf ++ later) = false := by
  have hs := space_mem_of_headEnd h he
  have hh : ∃ bt, (buf.take (methodMax + 1)).head? = some bt := by
    obtain ⟨bt, rest, hb⟩ := exists_cons_of_ne_nil (ne_nil_of_mem hs)
    exact ⟨bt, by rw [hb]; rfl⟩
  obtain ⟨bt, hby⟩ := hh
  have hm : ∀ more, (buf.take (methodMax + 1) ++ more).takeWhile (· != 32) =
      (buf.take (methodMax + 1)).takeWhile (· != 32) := fun more =>
    takeWhile_append_of_mem more hs rfl
  simp only [beginsNoRequest, List.take_append, hm, head?_append_of_some _ hby] at h ⊢
  rw [hby] at h
  exact h

/-! ### The head -/

theorem passOver_false_cases (buf : List UInt8) :
    (∃ rest, buf = 13 :: 10 :: rest ∧ passOver false buf = (true, rest)) ∨
      passOver false buf = (false, buf) := by
  unfold passOver
  split
  · exact .inl ⟨_, rfl, rfl⟩
  · exact .inr rfl

theorem passOver_idem {passedOver : Bool} :
    passOver (passOver passedOver buf).1 (passOver passedOver buf).2 = passOver passedOver buf := by
  cases passedOver with
  | true => rfl
  | false =>
    rcases passOver_false_cases buf with ⟨rest, -, h⟩ | h
    · rw [h]
      rfl
    · rw [h, h]

/-- What is passed over is passed over when more comes, unless the buffer is a CR. -/
theorem passOver_append {passedOver : Bool} (later : List UInt8) (hbf : buf ≠ [])
    (hm : mayPassOver passedOver buf = false) :
    passOver passedOver (buf ++ later) =
      ((passOver passedOver buf).1, (passOver passedOver buf).2 ++ later) := by
  cases passedOver with
  | true => rfl
  | false =>
    match buf with
    | [bt] =>
      have hb : bt ≠ 13 := by
        rintro rfl
        cases hm
      unfold passOver
      split <;> simp_all
    | first :: second :: rest =>
      unfold passOver
      split <;> split <;> simp_all

/-- The states and buffers of the loop that reads a head: what was searched has no end of a head,
and an empty line is passed over only while next to nothing was searched. -/
structure SearchInv (s : Searching) (buf : List UInt8) : Prop where
  none : headEnd (buf.take s.searched) = none
  within : s.searched ≤ buf.length
  passes : (passOver s.passedOver buf).2 ≠ buf → s.searched ≤ 1

theorem searchInv_start (passedOver : Bool) (buf : List UInt8) : SearchInv ⟨passedOver, 0⟩ buf :=
  ⟨by rw [take_zero]; rfl, Nat.zero_le _, fun _ => Nat.zero_le _⟩

/-- The search finds an end of a head wherever it is. -/
theorem SearchInv.isSome_headEnd (h : SearchInv s buf) :
    let rest := (passOver s.passedOver buf).2
    (headEnd (rest.drop (min s.searched rest.length - 2))).isSome = (headEnd rest).isSome := by
  intro rest
  by_cases hs : s.searched ≤ 1
  · rw [show min s.searched rest.length - 2 = 0 by omega, drop_zero]
  · have hr : rest = buf := by
      by_contra hne
      exact hs (h.passes hne)
    rw [hr]
    exact isSome_headEnd_drop h.none (by omega)

/-- The look behind the empty line that was passed over, with all of the buffer searched. -/
def lookPast (parser : Httparse) (passedOver : Bool) (buf : List UInt8) :
    Except Next (Head × List UInt8) ⊕ Searching × List UInt8 :=
  if !mayPassOver passedOver buf && beginsNoRequest buf then .inl (.error (.refused badRequest))
  else if (headEnd buf).isSome then .inl (parseHead parser buf)
  else if buf.length ≥ headMax then .inl (.error (.refused headTooLarge))
  else .inr (⟨passedOver, buf.length⟩, buf)

/-- How far the buffer was searched does not show. -/
theorem SearchInv.lookForHead_eq (h : SearchInv s buf) (parser : Httparse) :
    lookForHead parser s buf =
      lookPast parser (passOver s.passedOver buf).1 (passOver s.passedOver buf).2 := by
  have hs := h.isSome_headEnd
  simp only [lookForHead, lookPast, hs]

theorem SearchInv.more (h : SearchInv s buf) (piece : List UInt8) : SearchInv s (buf ++ piece) where
  none := by
    rw [take_append_of_le_length h.within]
    exact h.none
  within := by
    have := h.within
    rw [length_append]
    omega
  passes hne := by
    by_cases hb : buf.length ≤ 1
    · exact Nat.le_trans h.within hb
    · have hl : buf ≠ [] ∧ mayPassOver s.passedOver buf = false := by
        match buf, hb with
        | _ :: _ :: _, _ => exact ⟨nofun, by simp [mayPassOver]⟩
        | [_], hb => simp at hb
      refine h.passes fun heq => hne ?_
      rw [passOver_append piece hl.1 hl.2, heq]

section Parser

variable {buf : List UInt8} {n : Nat} {passedOver : Bool}

variable {parser : Httparse}

theorem parseHead_append (later : List UInt8) (hb : beginsNoRequest buf = false)
    (h : (headEnd buf).isSome) :
    parseHead parser (buf ++ later) =
      (parseHead parser buf).map fun (head, rest) => (head, rest ++ later) := by
  simp only [parseHead, parser.upToEnd later hb h]
  cases hp : parser.parse buf with
  | complete length head =>
    have hl := (headEnd_le (parser.complete_end hb hp)).2
    simp only [take_append_of_le_length hl, drop_append_of_le_length hl]
    split_ifs <;> rfl
  | incomplete | tooManyHeaders | wrong => rfl

theorem refused_of_parseHead {e : Next} (h : parseHead parser buf = .error e) :
    ∃ why, e = .refused why := by
  unfold parseHead at h
  grind

theorem refused_of_headMax_lt (hb : beginsNoRequest buf = false) (he : headEnd buf = some n)
    (hn : headMax < n) : ∃ why, parseHead parser buf = .error (.refused why) := by
  unfold parseHead
  cases hp : parser.parse buf with
  | complete length head =>
    obtain rfl := Option.some.inj ((parser.complete_end hb hp).symm.trans he)
    exact ⟨_, if_pos hn⟩
  | incomplete | tooManyHeaders | wrong => exact ⟨_, rfl⟩

theorem mayPassOver_append (later : List UInt8) (hbf : buf ≠ [])
    (h : mayPassOver passedOver buf = false) : mayPassOver passedOver (buf ++ later) = false := by
  cases passedOver with
  | true => rfl
  | false =>
    match buf with
    | [bt] =>
      have hb : bt ≠ 13 := by
        rintro rfl
        cases h
      simp [mayPassOver, hb]
    | _ :: _ :: _ => simp [mayPassOver]

theorem two_bytes_of_headEnd (passedOver : Bool) (h : headEnd buf = some n) :
    buf ≠ [] ∧ mayPassOver passedOver buf = false := by
  have hl := headEnd_le h
  match buf, hl with
  | _ :: _ :: _, _ => exact ⟨nofun, by simp [mayPassOver]⟩
  | [_], hl => simp at hl; omega

/-- Where an end of a head was found, the buffer was seen to begin a request. -/
theorem beginsNoRequest_of_found {k : Nat}
    (hb : ¬ (!mayPassOver passedOver buf && beginsNoRequest buf) = true)
    (he : (headEnd (buf.drop k)).isSome = true) : beginsNoRequest buf = false := by
  obtain ⟨n, hn⟩ := isSome_iff_exists.mp he
  have hl := headEnd_le hn
  rw [length_drop] at hl
  have hm : mayPassOver passedOver buf = false := by
    match buf with
    | [] | _ :: _ :: _ => simp [mayPassOver]
    | [_] => simp at hl; omega
  simpa [hm] using hb

theorem lookPast_cases {result : Except Next (Head × List UInt8)}
    (h : lookPast parser passedOver buf = .inl result) :
    buf ≠ [] ∧ mayPassOver passedOver buf = false ∧
      (beginsNoRequest buf = true ∧ result = .error (.refused badRequest) ∨
        beginsNoRequest buf = false ∧ (∃ n, headEnd buf = some n) ∧ result = parseHead parser buf ∨
        headEnd buf = none ∧ headMax ≤ buf.length ∧ result = .error (.refused headTooLarge)) := by
  unfold lookPast at h
  split_ifs at h with hb he hl
  · simp only [and_eq_true, Bool.not_eq_true'] at hb
    refine ⟨?_, hb.1, .inl ⟨hb.2, (Sum.inl.inj h).symm⟩⟩
    rintro rfl
    exact absurd hb.2 (by decide)
  · obtain ⟨n, hn⟩ := isSome_iff_exists.mp he
    obtain ⟨hbf, hm⟩ := two_bytes_of_headEnd passedOver hn
    grind
  · rw [not_eq_true, isSome_eq_false_iff, isNone_iff_eq_none] at he
    have hm : buf ≠ [] ∧ mayPassOver passedOver buf = false := by
      match buf, hl with
      | _ :: _ :: _, _ => exact ⟨nofun, by simp [mayPassOver]⟩
    grind

theorem lookPast_of_headEnd (hb : beginsNoRequest buf = false) (he : headEnd buf = some n) :
    lookPast parser passedOver buf = .inl (parseHead parser buf) := by
  simp [lookPast, hb, he]

theorem lookPast_found {rest : List UInt8} {head : Head} (later : List UInt8)
    (h : lookPast parser passedOver buf = .inl (.ok (head, rest))) :
    lookPast parser passedOver (buf ++ later) = .inl (.ok (head, rest ++ later)) := by
  obtain ⟨-, -, ⟨-, hr⟩ | ⟨hb, ⟨n, he⟩, hr⟩ | ⟨-, -, hr⟩⟩ := lookPast_cases h
  · cases hr
  · rw [lookPast_of_headEnd (beginsRequest_append later hb he) (headEnd_append he later),
      parseHead_append later hb (by rw [he]; rfl), ← hr]
    rfl
  · cases hr

theorem lookPast_failed {e : Next} (later : List UInt8)
    (h : lookPast parser passedOver buf = .inl (.error e)) :
    (∃ why, e = .refused why) ∧
      ∃ why, lookPast parser passedOver (buf ++ later) = .inl (.error (.refused why)) := by
  obtain ⟨hbf, hm, hc⟩ := lookPast_cases h
  have hm' := mayPassOver_append later hbf hm
  rcases hc with ⟨hb, hr⟩ | ⟨hb, ⟨n, he⟩, hr⟩ | ⟨he, hl, hr⟩
  · refine ⟨⟨_, Except.error.inj hr⟩, badRequest, ?_⟩
    simp [lookPast, hm', beginsNoRequest_append later hb]
  · obtain ⟨why, rfl⟩ := refused_of_parseHead hr.symm
    refine ⟨⟨why, rfl⟩, why, ?_⟩
    rw [lookPast_of_headEnd (beginsRequest_append later hb he) (headEnd_append he later),
      parseHead_append later hb (by rw [he]; rfl), ← hr]
    rfl
  · refine ⟨⟨_, Except.error.inj hr⟩, ?_⟩
    unfold lookPast
    split_ifs with hb' he' hl'
    · exact ⟨_, rfl⟩
    · -- the end that came later is beyond what had arrived, and so beyond the limit
      obtain ⟨n, hn⟩ := isSome_iff_exists.mp he'
      obtain ⟨why, hw⟩ : ∃ why, parseHead parser _ = .error (.refused why) :=
        refused_of_headMax_lt (by simpa [hm'] using hb') hn
          (Nat.lt_of_le_of_lt hl (headEnd_append_of_none he hn))
      exact ⟨why, by rw [hw]⟩
    · exact ⟨_, rfl⟩
    · rw [length_append] at hl'
      omega

/-- The kinds of ending of a connection. -/
inductive Ending where
  | clean | refused | broken
  deriving DecidableEq

/-- The kind of ending. -/
def Next.kind : Next → Ending
  | .ended => .clean
  | .refused _ => .refused
  | .broken => .broken

/-- A buffer whose look comes to an end, behind what is passed over, has more than a CR. -/
theorem passOver_append_of_lookPast {s : Searching} {result : Except Next (Head × List UInt8)}
    (later : List UInt8)
    (h : lookPast parser (passOver s.passedOver buf).1 (passOver s.passedOver buf).2 =
      .inl result) :
    passOver s.passedOver (buf ++ later) =
      ((passOver s.passedOver buf).1, (passOver s.passedOver buf).2 ++ later) := by
  obtain ⟨hr, hm, -⟩ := lookPast_cases h
  cases hp : s.passedOver with
  | true => rfl
  | false =>
    rw [hp] at hr hm
    rcases passOver_false_cases buf with ⟨rest, rfl, -⟩ | hb
    · exact passOver_append later nofun (by simp [mayPassOver])
    · rw [hb] at hr hm
      exact passOver_append later hr hm

/-- What was passed over is out of the way. -/
theorem passOver_passOver_append (passedOver : Bool) (buf later : List UInt8) :
    passOver (passOver passedOver buf).1 ((passOver passedOver buf).2 ++ later) =
      passOver passedOver (buf ++ later) := by
  cases passedOver with
  | true => rfl
  | false =>
    rcases passOver_false_cases buf with ⟨rest, rfl, -⟩ | hb
    · rfl
    · rw [hb]

theorem SearchInv.next {s s' : Searching} {buf' : List UInt8} (h : SearchInv s buf)
    (hl : lookForHead parser s buf = .inr (s', buf')) :
    SearchInv s' buf' ∧ s'.passedOver = (passOver s.passedOver buf).1 ∧
      buf' = (passOver s.passedOver buf).2 := by
  rw [h.lookForHead_eq] at hl
  unfold lookPast at hl
  split_ifs at hl with hb he hln
  cases hl
  refine ⟨⟨?_, Nat.le_refl _, fun hne => absurd (by rw [passOver_idem]) hne⟩, rfl, rfl⟩
  simpa using he

theorem stable_lookForHead : Stable Next.kind .ended (lookForHead parser) SearchInv where
  more piece h := h.more piece
  next h hlk := (h.next hlk).1
  found later h hlk := by
    rw [h.lookForHead_eq] at hlk
    rw [(h.more later).lookForHead_eq, passOver_append_of_lookPast later hlk]
    exact lookPast_found later hlk
  failed later h hlk := by
    rw [h.lookForHead_eq] at hlk
    obtain ⟨⟨why, rfl⟩, why', hl⟩ := lookPast_failed later hlk
    rw [whole, readOn, (h.more later).lookForHead_eq, passOver_append_of_lookPast later hlk, hl]
    rfl
  goes later h hlk := by
    obtain ⟨hi, hp, rfl⟩ := h.next hlk
    simp only [whole, readOn, (hi.more later).lookForHead_eq, (h.more later).lookForHead_eq,
      hp, passOver_passOver_append]
    exact .refl _

/-- The error is a refusal, which more bytes do not change. -/
def IsRefusal (e : Next) : Prop := ∃ why, e = .refused why

theorem not_isRefusal_ended : ¬ IsRefusal .ended := by
  rintro ⟨why, h⟩
  cases h

/-- The first read is what `buffered` makes of the bytes that have arrived, the second what `next`
makes of all. -/
abbrev TameStep {α : Type} (n : Nat) (ahead read : Step α) : Prop :=
  Tame Next.kind IsRefusal n ahead read

theorem length_passOver_le (passedOver : Bool) (buf : List UInt8) :
    (passOver passedOver buf).2.length ≤ buf.length := by
  cases passedOver with
  | true => exact Nat.le_refl _
  | false =>
    rcases passOver_false_cases buf with ⟨rest, rfl, h⟩ | h
    · rw [h]
      exact Nat.le_add_right rest.length 2
    · rw [h]

theorem tame_head : TameStep 1 (head parser) (head parser) := by
  refine stable_lookForHead.tame (searchInv_start false) not_isRefusal_ended
    (fun {s buf a rest} hlk => ?_) fun {s buf s' buf'} hlk => ?_
  all_goals
    have hp := length_passOver_le s.passedOver buf
    unfold lookForHead at hlk
    dsimp only at hlk
    split_ifs at hlk with hb he
  · cases hlk
  · unfold parseHead at hlk
    split at hlk
    next length head hpr =>
      have hl := headEnd_le (parser.complete_end (beginsNoRequest_of_found hb he) hpr)
      grind
    all_goals cases hlk
  · cases hlk
  · cases hlk
    exact hp

end Parser

/-! ### Lines and bytes of a given number -/

theorem stable_lookForBytes (length : Nat) :
    Stable Next.kind .ended (lookForBytes length) fun _ _ => True := by
  refine stable_of_unit (fun hlk => ?_) (fun later hlk => ?_) fun later hlk => ?_
  · unfold lookForBytes at hlk
    split_ifs at hlk
    cases hlk
    rfl
  · unfold lookForBytes at hlk ⊢
    grind
  · unfold lookForBytes at hlk
    split_ifs at hlk
    cases hlk

theorem tame_exactly (length : Nat) : TameStep 0 (exactly length) (exactly length) := by
  refine (stable_lookForBytes length).tame (fun _ => trivial) not_isRefusal_ended
    (fun {s buf a rest} hl => ?_) fun {s buf s' buf'} hl => ?_
  all_goals
    unfold lookForBytes at hl
    split_ifs at hl
    cases hl
  · simp
  · exact Nat.le_refl _

theorem lookForLine_append_of_some {last : Nat} (later : List UInt8)
    (h : buf.findIdx? (· == 10) = some last) :
    lookForLine limit tooLong () (buf ++ later) =
      if last > limit + 1 then .inl (.error (.refused tooLong))
      else .inl
        ((lineBefore (buf.take last)).map fun line => (line, buf.drop (last + 1) ++ later)) := by
  have hls : last < buf.length := (findIdx?_eq_some_iff_getElem.mp h).1
  have hl : (buf ++ later).findIdx? (· == 10) = some last := by
    rw [findIdx?_append, h]
    rfl
  simp only [lookForLine, hl, take_append_of_le_length (Nat.le_of_lt hls),
    drop_append_of_le_length hls]

theorem lookForLine_of_some {last : Nat} (h : buf.findIdx? (· == 10) = some last) :
    lookForLine limit tooLong () buf =
      if last > limit + 1 then .inl (.error (.refused tooLong))
      else .inl ((lineBefore (buf.take last)).map fun line => (line, buf.drop (last + 1))) := by
  simp only [lookForLine, h]

theorem lookForLine_of_none (h : buf.findIdx? (· == 10) = none) :
    lookForLine limit tooLong () buf =
      if buf.length > limit + 1 then .inl (.error (.refused tooLong)) else .inr ((), buf) := by
  simp only [lookForLine, h]

theorem lookForLine_append_of_none (later : List UInt8) (h : buf.findIdx? (· == 10) = none)
    (hln : buf.length > limit + 1) :
    lookForLine limit tooLong () (buf ++ later) = .inl (.error (.refused tooLong)) := by
  cases hl : (buf ++ later).findIdx? (· == 10) with
  | none =>
    rw [lookForLine_of_none hl, if_pos]
    rw [length_append]
    omega
  | some last =>
    rw [lookForLine_of_some hl, if_pos]
    rw [findIdx?_append, h, none_or] at hl
    obtain ⟨k, -, rfl⟩ := map_eq_some_iff.mp hl
    omega

theorem stable_lookForLine (limit : Nat) (tooLong : Refused) :
    Stable Next.kind .ended (lookForLine limit tooLong) fun _ _ => True := by
  refine stable_of_unit (fun {buf} _ _ hl => ?_) (fun {buf} _ _ later hl => ?_)
    fun {buf} _ later hl => ?_
  all_goals cases hb : buf.findIdx? (· == 10)
  case refine_1.none =>
    rw [lookForLine_of_none hb] at hl
    split_ifs at hl
    cases hl
    rfl
  case refine_1.some last =>
    rw [lookForLine_of_some hb] at hl
    split_ifs at hl
  case refine_2.none =>
    rw [lookForLine_of_none hb] at hl
    split_ifs at hl
    cases hl
  case refine_2.some last =>
    rw [lookForLine_of_some hb] at hl
    rw [lookForLine_append_of_some later hb]
    split_ifs at hl ⊢
    · cases hl
    · cases hln : lineBefore (buf.take last) with
      | error e => rw [hln] at hl; cases hl
      | ok text => rw [hln] at hl; cases hl; rfl
  case refine_3.none =>
    rw [lookForLine_of_none hb] at hl
    split_ifs at hl with hlo
    cases hl
    exact ⟨_, lookForLine_append_of_none later hb hlo, rfl⟩
  case refine_3.some last =>
    rw [lookForLine_of_some hb] at hl
    rw [lookForLine_append_of_some later hb]
    split_ifs at hl ⊢
    · cases hl
      exact ⟨_, rfl, rfl⟩
    · cases hln : lineBefore (buf.take last) with
      | error e => rw [hln] at hl; cases hl; exact ⟨_, rfl, rfl⟩
      | ok text => rw [hln] at hl; cases hl

theorem tame_line (limit : Nat) (tooLong : Refused) :
    TameStep 1 (line limit tooLong) (line limit tooLong) := by
  refine (stable_lookForLine limit tooLong).tame (fun _ => trivial) not_isRefusal_ended
    (fun {s buf a rest} hl => ?_) fun {s buf s' buf'} hl => ?_
  all_goals cases hb : buf.findIdx? (· == 10)
  case refine_1.none =>
    rw [lookForLine_of_none hb] at hl
    split_ifs at hl
    cases hl
  case refine_1.some last =>
    have hls : last < buf.length := (findIdx?_eq_some_iff_getElem.mp hb).1
    rw [lookForLine_of_some hb] at hl
    split_ifs at hl
    · cases hl
    · cases hln : lineBefore (buf.take last) with
      | error e => rw [hln] at hl; cases hl
      | ok text =>
        rw [hln] at hl
        cases hl
        rw [length_drop]
        omega
  case refine_2.none =>
    rw [lookForLine_of_none hb] at hl
    split_ifs at hl
    cases hl
    exact Nat.le_refl _
  case refine_2.some last =>
    rw [lookForLine_of_some hb] at hl
    split_ifs at hl

/-! ### Bodies and requests -/

section Requests

variable {room : Nat → Bool}

/-- A read that has not come to an end foresees nothing. -/
theorem tame_ended {α : Type} {n : Nat} {ahead read : Step α} (h : TameStep n ahead read) :
    TameStep n (throw .ended) read := by
  refine { h with foresees := fun _ _ => ⟨nofun, fun e he hf => ?_⟩ }
  cases he
  exact absurd hf not_isRefusal_ended

theorem tame_trailers {fuel fuel' : Nat} (hf : fuel ≤ fuel') (read : Nat) :
    TameStep 0 (trailers fuel read) (trailers fuel' read) := by
  induction fuel' generalizing fuel read with
  | zero =>
    obtain rfl := Nat.le_zero.mp hf
    exact tame_throw _
  | succ fuel' ih =>
    have hs {fuel : Nat} (hf : fuel ≤ fuel') :
        TameStep 0 (trailers (fuel + 1) read) (trailers (fuel' + 1) read) :=
      Tame.zero ((tame_line _ _).bind fun text =>
        .ite (tame_pure ()) (.ite (tame_throw _) (ih hf _)))
    cases fuel with
    | zero => exact tame_ended (hs (Nat.le_refl _))
    | succ fuel => exact hs (by omega)

theorem tame_chunkBytes (size : Nat) : TameStep 0 (chunkBytes size) (chunkBytes size) :=
  Tame.zero ((tame_exactly size).bind fun _ => (tame_line _ _).bind fun _ =>
    .ite (tame_pure _) (tame_throw _))

theorem tame_chunks {fuel fuel' : Nat} (hf : fuel ≤ fuel') (body : List UInt8) (framing : Nat) :
    TameStep 0 (chunks room fuel body framing) (chunks room fuel' body framing) := by
  induction fuel' generalizing fuel body framing with
  | zero =>
    obtain rfl := Nat.le_zero.mp hf
    exact tame_throw _
  | succ fuel' ih =>
    have hs {fuel : Nat} (hf : fuel ≤ fuel') : TameStep 0 (chunks room (fuel + 1) body framing)
        (chunks room (fuel' + 1) body framing) := by
      refine Tame.zero ((tame_line _ _).bind fun text => .ite (tame_throw (n := 0) _) ?_)
      split
      · exact tame_throw _
      · exact tame_pure _
      · exact .ite (tame_throw _)
          (.ite ((tame_chunkBytes _).bind fun part => ih hf _ _) (tame_throw _))
    cases fuel with
    | zero => exact tame_ended (hs (Nat.le_refl _))
    | succ fuel => exact hs (by omega)

theorem tame_chunked : TameStep 0 (chunked room) (chunked room) := by
  have h {fuel fuel' : Nat} (hf : fuel ≤ fuel') := (@tame_chunks room _ _ hf [] 0).bind fun body =>
      (tame_trailers hf 0).bind fun _ => tame_pure body
  refine ⟨fun r r' hi => ?_, fun buf pieces => ?_, fun r a r' hr => ?_⟩
  · unfold chunked
    rw [hi]
    exact (h (Nat.le_refl _)).respects r r' hi
  · have hf : (⟨buf, []⟩ : Reader).items.length + 1 ≤
        (⟨buf, pieces⟩ : Reader).items.length + 1 := by
      simp [Source.items]
    exact (h hf).foresees buf pieces
  · exact (h (Nat.le_refl _)).consumes r a r' hr

theorem announce_apply (beforeBody : Bool → Bool) (waits : Bool) (r : Reader) :
    announce beforeBody waits r =
      if beforeBody (waits && r.buf.isEmpty) then .ok ((), r) else .error .broken := by
  change (if beforeBody (waits && r.buf.isEmpty) then pure () else throw .broken : Step Unit) r = _
  split_ifs <;> rfl

/-- Whether the client is told to go on depends on what has arrived; what is read does not.  A
client that waits has sent nothing of its body: no request of it is buffered whole. -/
theorem tame_announce (waits : Bool) :
    TameStep 0 (announce (fun waits => !waits) waits) (announce (fun _ => true) waits) := by
  refine ⟨fun _ _ hi => ⟨rfl, hi⟩, fun buf pieces => ?_, fun r a r' h => ?_⟩
  · simp only [announce_apply, if_true]
    cases waits && buf.isEmpty with
    | false => grind
    | true =>
      refine ⟨nofun, fun e h hf => ?_⟩
      cases h
      obtain ⟨why, hw⟩ := hf
      cases hw
  · rw [announce_apply] at h
    cases h
    exact Nat.le_refl _

theorem tame_readBody (waits : Bool) (framing : Framing) :
    TameStep 0 (readBody room (fun waits => !waits) waits framing)
      (readBody room (fun _ => true) waits framing) := by
  unfold readBody
  split
  · exact tame_pure _
  · exact tame_pure _
  · exact .ite ((tame_announce waits).bind fun _ => tame_exactly _) (tame_throw _)
  · exact (tame_announce waits).bind fun _ => tame_chunked

theorem tame_lift {α : Type} (x : Except Next α) : TameStep 0 (liftM x : Step α) (liftM x) := by
  cases x with
  | error e => exact tame_throw e
  | ok a => exact tame_pure a

theorem tame_next (parser : Httparse) (room : Nat → Bool) :
    TameStep 1 (next parser room fun waits => !waits) (next parser room fun _ => true) :=
  tame_head.bind fun _ => (tame_lift _).bind fun framing =>
    .ite ((tame_lift _).bind fun waits => (tame_readBody waits framing).bind fun _ =>
      tame_pure _) (tame_throw _)

end Requests

/-! ### What is buffered -/

section Buffered

/-- Room for bodies is always granted. -/
def granted (_ : Nat) : Bool := true

theorem nextAfter_eq (parser : Httparse) (first : Bool) (r : Reader) :
    nextAfter parser granted first r = next parser granted (fun _ => true) r := by
  cases first with
  | false => rfl
  | true =>
    obtain ⟨hok, he⟩ := (tame_next parser granted).foresees r.buf r.pieces
    simp only [nextAfter, if_true, buffered]
    split_ifs
    · rfl
    · split
      next request ahead ha =>
        rw [(hok request ahead ha).2]
        rfl
      next why ha => exact (he _ ha ⟨why, rfl⟩).symm
      next => rfl

end Buffered

/-! ### The requests of a connection -/

/-- The requests and the kind of ending of a connection do not depend on how its bytes are cut into
reads, nor on where `buffered` is called first. -/
theorem requests_independent_of_cutting (parser : Httparse) (first first' : Nat → Bool)
    {r r' : Reader} (h : r.items = r'.items) :
    (requests parser granted first r).1 = (requests parser granted first' r').1 ∧
      (requests parser granted first r).2.kind = (requests parser granted first' r').2.kind := by
  unfold requests
  rw [h]
  generalize r'.items.length + 1 = fuel, 0 = n
  induction fuel generalizing r r' n with
  | zero => exact ⟨rfl, rfl⟩
  | succ fuel ih =>
    have hnx := (tame_next parser granted).respects r r' h
    simp only [requestsFrom, nextAfter_eq]
    cases hx : next parser granted (fun _ => true) r with
    | error e =>
      cases hy : next parser granted (fun _ => true) r' with
      | error e' =>
        rw [hx, hy] at hnx
        exact ⟨rfl, hnx⟩
      | ok q => rw [hx, hy] at hnx; exact hnx.elim
    | ok p =>
      cases hy : next parser granted (fun _ => true) r' with
      | error e' => rw [hx, hy] at hnx; exact hnx.elim
      | ok q =>
        rw [hx, hy] at hnx
        obtain ⟨hr, hi⟩ := hnx
        grind

/-- `GET / HTTP/1.1`, `Host: a` and an empty line. -/
def getRoot : List UInt8 :=
  [71, 69, 84, 32, 47, 32, 72, 84, 84, 80, 47, 49, 46, 49, 13, 10,
    72, 111, 115, 116, 58, 32, 97, 13, 10, 13, 10]

/-- A parser that knows one head. -/
def knowsGetRoot : Httparse where
  parse bytes :=
    match headEnd bytes with
    | some length =>
      if bytes.take length = getRoot then .complete length ⟨"GET", "/", 1, [("Host", "a")]⟩
      else .wrong
    | none => .incomplete
  upToEnd later _ h := by
    obtain ⟨n, hn⟩ := isSome_iff_exists.mp h
    simp only [headEnd_append hn later, hn, take_append_of_le_length (headEnd_le hn).2]
  complete_end _ h := by
    split at h
    next n hn =>
      split_ifs at h
      cases h
      exact hn
    next => cases h

/-- Two requests in one read, or cut in the first empty line: both are read. -/
theorem requests_independent_of_cutting_getRoot :
    (requests knowsGetRoot granted (fun _ => true) ⟨[], [⟨getRoot ++ getRoot, nofun⟩]⟩).1.length =
        2 ∧
      (requests knowsGetRoot granted (fun _ => true) ⟨[], [⟨getRoot ++ getRoot, nofun⟩]⟩).1 =
        (requests knowsGetRoot granted (fun _ => false)
          ⟨[], [⟨getRoot.take 26, nofun⟩, ⟨getRoot.drop 26 ++ getRoot, nofun⟩]⟩).1 :=
  ⟨by decide +kernel, (requests_independent_of_cutting knowsGetRoot (fun _ => true) (fun _ => false)
    (by decide)).1⟩

end Silt.Http

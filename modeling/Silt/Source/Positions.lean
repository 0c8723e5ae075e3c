import Mathlib.Algebra.Order.BigOperators.Group.List
import Mathlib.Algebra.Ring.Nat
import Mathlib.Data.List.Infix
import Mathlib.Data.Nat.Find
import Mathlib.Order.Bounds.Basic

/-!
# Positions of an editor

Silt counts the places of a text in bytes, an editor counts lines and, in a line, UTF-16 units.
Offsets, lines and columns have 32 bits.  A file has fewer than `2 ^ 32` bytes, so that of these
only the number of the line behind a position's line can be too large.

A line ends at a `\n`.  On the way from a position to an offset, a `\r` at the end of the line is
not part of it.  On the way back it is, so that the offset between a `\r` and its `\n` is not found
again.  The last line loses its `\r` as well, though no `\n` is behind it.

## Main results

* `SourceFile.offset_lspPosition_iff` : which places are found again from their positions.
* `SourceFile.onLine_offset`, `SourceFile.offset_mono` : where the offset of any position is.
-/

namespace Silt.Source

open List

/-! ### Texts -/

/-- `char::len_utf16`. -/
def lenUtf16 (c : Char) : Nat :=
  if c.val < 0x10000 then 1 else 2

/-- The number of bytes of a text. -/
def len (text : List Char) : Nat :=
  (text.map Char.utf8Size).sum

/-- The number of UTF-16 units of a text. -/
def units (text : List Char) : Nat :=
  (text.map lenUtf16).sum

def IsCharBoundary (text : List Char) (offset : Nat) : Prop :=
  ∃ part ∈ text.inits, len part = offset

instance (text : List Char) : DecidablePred (IsCharBoundary text) :=
  fun _ => inferInstanceAs (Decidable (∃ part ∈ _, _))

/-- `text[start..]`. -/
def sliceFrom : Nat → List Char → List Char
  | _, [] => []
  | start, c :: cs => if start = 0 then c :: cs else sliceFrom (start - c.utf8Size) cs

/-- `text[..stop]`. -/
def sliceTo : Nat → List Char → List Char
  | _, [] => []
  | stop, c :: cs => if stop = 0 then [] else c :: sliceTo (stop - c.utf8Size) cs

/-- `strip_suffix('\r')`. -/
def stripCr (line : List Char) : List Char :=
  if line.getLast? = some '\r' then line.dropLast else line

/-! ### Files -/

structure SourceFile where
  text : List Char
  short : len text < 2 ^ 32

structure Position where
  line : UInt32
  character : Nat

/-- The offsets behind the line breaks of a text that is at `i`.  The byte of `\n` is in no other
character. -/
def lineStartsFrom : Nat → List Char → List Nat
  | _, [] => []
  | i, c :: cs =>
    if c = '\n' then (i + 1) :: lineStartsFrom (i + 1) cs else lineStartsFrom (i + c.utf8Size) cs

/-- The loop of `offset_of_lsp_position` over the characters of a line, the first of which is at
`i`. -/
def column (character : Nat) : (units i : Nat) → List Char → Nat
  | _, i, [] => i
  | units, i, c :: cs =>
    if character ≤ units then i
    else if character < units + lenUtf16 c then i
    else column character (units + lenUtf16 c) (i + c.utf8Size) cs

namespace SourceFile

variable (f : SourceFile) {offset : Nat} {pos : Position}

def lineStarts : List Nat :=
  0 :: lineStartsFrom 0 f.text

def clamp (offset : Nat) : Nat :=
  Nat.findGreatest (IsCharBoundary f.text) (min offset (len f.text))

def lineIndex (offset : Nat) : Nat :=
  (f.lineStarts.takeWhile (· ≤ offset)).length - 1

def lineText (line : UInt32) : Option (List Char) := do
  let index ← if line = 0 then none else some (line.toNat - 1)
  let start ← f.lineStarts[index]?
  let stop := (f.lineStarts[index + 1]?).elim (len f.text) (· - 1)
  return sliceTo (stop - start) (sliceFrom start f.text)

def lspPosition (offset : Nat) : Position :=
  let offset := f.clamp offset
  let line := f.lineIndex offset
  let start := f.lineStarts.getD line 0
  ⟨.ofNat line, units (sliceTo (offset - start) (sliceFrom start f.text))⟩

def offsetOfLspPosition (pos : Position) : Nat :=
  match f.lineText (pos.line + 1) with
  | none => len f.text
  | some line => column pos.character 0 (f.lineStarts.getD pos.line.toNat 0) (stripCr line)

end SourceFile

/-! ### Parts of a text -/

variable {text a b line rest : List Char} {i k u : Nat}

@[simp] theorem len_append (a b : List Char) : len (a ++ b) = len a + len b := by
  simp [len]

@[simp] theorem len_cons (c : Char) (a : List Char) : len (c :: a) = c.utf8Size + len a := by
  simp [len]

theorem len_mono (h : a <+: b) : len a ≤ len b := by
  obtain ⟨t, rfl⟩ := h
  simp

theorem length_le_len (text : List Char) : text.length ≤ len text := by
  rw [len, ← length_map Char.utf8Size]
  refine length_le_sum_of_one_le _ fun n hn => ?_
  obtain ⟨c, -, rfl⟩ := mem_map.mp hn
  exact c.utf8Size_pos

theorem toNat_succ {n : UInt32} (h : n + 1 ≠ 0) : (n + 1).toNat = n.toNat + 1 := by
  have hn : (n + 1).toNat ≠ 0 := fun h0 => h (UInt32.toNat.inj h0)
  have hlt := n.toNat_lt
  have heq : (n + 1).toNat = (n.toNat + 1) % 2 ^ 32 := UInt32.toNat_add n 1
  omega

theorem sliceFrom_len (a b : List Char) : sliceFrom (len a) (a ++ b) = b := by
  induction a with
  | nil => cases b <;> rfl
  | cons c a ih => simp [sliceFrom, c.utf8Size_pos.ne', ih]

theorem sliceTo_len (a b : List Char) : sliceTo (len a) (a ++ b) = a := by
  induction a with
  | nil => cases b <;> rfl
  | cons c a ih => simp [sliceTo, c.utf8Size_pos.ne', ih]

theorem lineStartsFrom_append (i : Nat) (a b : List Char) :
    lineStartsFrom i (a ++ b) = lineStartsFrom i a ++ lineStartsFrom (i + len a) b := by
  induction a generalizing i with
  | nil => rfl
  | cons c a ih =>
    by_cases hc : c = '\n'
    · subst hc
      simp [lineStartsFrom, ih, Nat.add_assoc, show Char.utf8Size '\n' = 1 from rfl]
    · simp [lineStartsFrom, hc, ih, Nat.add_assoc]

theorem le_of_mem_lineStartsFrom (h : k ∈ lineStartsFrom i text) : k ≤ i + len text := by
  induction text generalizing i with
  | nil => cases h
  | cons c text ih =>
    have := c.utf8Size_pos
    rw [lineStartsFrom] at h
    rw [len_cons]
    grind

theorem length_lineStartsFrom (i : Nat) (text : List Char) :
    (lineStartsFrom i text).length = text.count '\n' := by
  induction text generalizing i with
  | nil => rfl
  | cons c text ih =>
    rw [lineStartsFrom]
    grind

/-! ### Columns -/

theorem lenUtf16_pos (c : Char) : 0 < lenUtf16 c := by
  rw [lenUtf16]
  split_ifs <;> decide

theorem column_append (u i : Nat) (a b : List Char) :
    column (u + units a) u i (a ++ b) = i + len a := by
  induction a generalizing u i with
  | nil =>
    cases b with
    | nil => rfl
    | cons c b => exact if_pos le_rfl
  | cons c a ih =>
    have hw := lenUtf16_pos c
    have hu : u + units (c :: a) = u + lenUtf16 c + units a := by
      rw [units, map_cons, sum_cons, Nat.add_assoc]
      rfl
    rw [hu, cons_append, column, if_neg (by omega), if_neg (by omega), ih, len_cons, Nat.add_assoc]

theorem exists_column (u i : Nat) (line : List Char) (character : Nat) :
    ∃ part, part <+: line ∧ column character u i line = i + len part := by
  induction line generalizing u i with
  | nil => exact ⟨[], nil_prefix, rfl⟩
  | cons c line ih =>
    rw [column]
    split_ifs
    · exact ⟨[], nil_prefix, rfl⟩
    · exact ⟨[], nil_prefix, rfl⟩
    · obtain ⟨part, hp, heq⟩ := ih (u + lenUtf16 c) (i + c.utf8Size)
      exact ⟨c :: part, cons_prefix_cons.mpr ⟨rfl, hp⟩, by rw [heq, len_cons, Nat.add_assoc]⟩

theorem column_mono {m n : Nat} (h : m ≤ n) (u i : Nat) (line : List Char) :
    column m u i line ≤ column n u i line := by
  induction line generalizing u i with
  | nil => rfl
  | cons c line ih =>
    have hi : i ≤ column n (u + lenUtf16 c) (i + c.utf8Size) line := by
      obtain ⟨part, -, heq⟩ := exists_column (u + lenUtf16 c) (i + c.utf8Size) line n
      omega
    rw [column, column]
    split_ifs <;> first | omega | exact ih ..

/-! ### Lines -/

/-- A line of a text, with what stands in front of it and behind it. -/
structure LineAt (text before line behind : List Char) : Prop where
  eq : text = before ++ (line ++ behind)
  first : ∀ c ∈ before.getLast?, c = '\n'
  plain : '\n' ∉ line
  last : ∀ c ∈ behind.head?, c = '\n'

theorem exists_firstLine (b : List Char) :
    ∃ r z, b = r ++ z ∧ '\n' ∉ r ∧ ∀ c ∈ z.head?, c = '\n' := by
  induction b with
  | nil => exact ⟨[], [], rfl, not_mem_nil, nofun⟩
  | cons c b ih =>
    by_cases hc : c = '\n'
    · exact ⟨[], c :: b, rfl, not_mem_nil, by simp [hc]⟩
    grind

theorem exists_lineAt (a b : List Char) :
    ∃ y l r z, a = y ++ l ∧ b = r ++ z ∧ LineAt (a ++ b) y (l ++ r) z := by
  obtain ⟨l, y, ha, hl, hy⟩ := exists_firstLine a.reverse
  obtain ⟨r, z, rfl, hr, hz⟩ := exists_firstLine b
  obtain rfl : a = y.reverse ++ l.reverse := by simpa using congrArg reverse ha
  exact ⟨y.reverse, l.reverse, r, z, rfl, rfl, by simp, by simpa using hy, by simp [hl, hr], hz⟩

theorem exists_line (h : k ≤ text.count '\n') :
    ∃ y line z, LineAt text y line z ∧ y.count '\n' = k := by
  have hk : ∃ a b, text = a ++ b ∧ a.count '\n' = k := by
    induction text using reverseRecOn with
    | nil => exact ⟨[], [], rfl, (Nat.le_zero.mp h).symm⟩
    | append_singleton text c ih =>
      by_cases hk : k ≤ text.count '\n'
      · grind
      · refine ⟨text ++ [c], [], (append_nil _).symm, le_antisymm ?_ h⟩
        rw [count_append, count_singleton]
        split <;> omega
  obtain ⟨a, b, rfl, ha⟩ := hk
  obtain ⟨y, l, r, z, rfl, rfl, hl⟩ := exists_lineAt a b
  refine ⟨y, l ++ r, z, hl, ?_⟩
  have hno : l.count '\n' = 0 := count_eq_zero.mpr fun h => hl.plain (mem_append_left _ h)
  rwa [count_append, hno] at ha

namespace LineAt

variable {f : SourceFile} (h : LineAt f.text a line rest)

include h

theorem lineStarts_eq :
    f.lineStarts = (0 :: lineStartsFrom 0 a) ++ lineStartsFrom (len a + len line) rest := by
  have hl : lineStartsFrom (len a) line = [] := by
    rw [← length_eq_zero_iff, length_lineStartsFrom]
    exact count_eq_zero.mpr h.plain
  rw [SourceFile.lineStarts, h.eq, lineStartsFrom_append, lineStartsFrom_append, Nat.zero_add, hl]
  rfl

theorem start_eq : f.lineStarts[a.count '\n']? = some (len a) := by
  rw [h.lineStarts_eq, getElem?_append_left (by simp [length_lineStartsFrom])]
  rcases eq_nil_or_concat a with rfl | ⟨b, c, rfl⟩
  · rfl
  · obtain rfl : c = '\n' := h.first c (by simp)
    rw [concat_eq_append, lineStartsFrom_append, count_append, ← length_lineStartsFrom 0 b,
      ← cons_append, len_append, Nat.zero_add]
    exact getElem?_concat_length

theorem stop_eq :
    (f.lineStarts[a.count '\n' + 1]?).elim (len f.text) (· - 1) = len a + len line := by
  rw [h.lineStarts_eq, getElem?_append_right (by simp [length_lineStartsFrom])]
  cases rest with
  | nil => simp [length_lineStartsFrom, lineStartsFrom, h.eq]
  | cons c rest =>
    obtain rfl : c = '\n' := h.last c rfl
    simp [length_lineStartsFrom, lineStartsFrom]

theorem lineIndex_eq {offset : Nat} (ha : len a ≤ offset) (hl : offset ≤ len a + len line) :
    f.lineIndex offset = a.count '\n' := by
  have hs : ∀ k ∈ 0 :: lineStartsFrom 0 a, decide (k ≤ offset) = true := by
    intro k hk
    rw [decide_eq_true_eq]
    rcases mem_cons.mp hk with rfl | hk
    · exact Nat.zero_le _
    · have := le_of_mem_lineStartsFrom hk
      omega
  have hr : (lineStartsFrom (len a + len line) rest).takeWhile (· ≤ offset) = [] := by
    cases rest with
    | nil => rfl
    | cons c rest =>
      obtain rfl : c = '\n' := h.last c rfl
      exact takeWhile_cons_of_neg (by simpa using Nat.lt_succ_of_le hl)
  rw [SourceFile.lineIndex, h.lineStarts_eq, takeWhile_append_of_pos hs, hr, append_nil,
    length_cons, length_lineStartsFrom, Nat.add_sub_cancel]

theorem offset_eq {pos : Position} (hp : pos.line.toNat = a.count '\n') :
    f.offsetOfLspPosition pos = column pos.character 0 (len a) (stripCr line) := by
  by_cases h0 : pos.line + 1 = 0
  · -- the line breaks in front of the last line are all of the text
    have hl : len f.text = len a + (len line + len rest) := by simp [h.eq]
    have hc : a.count '\n' ≤ len a := count_le_length.trans (length_le_len a)
    have hs := f.short
    have hw := congrArg UInt32.toNat h0
    rw [UInt32.toNat_add, hp] at hw
    change (a.count '\n' + 1) % 2 ^ 32 = 0 at hw
    obtain rfl : line = [] := by
      rw [← length_eq_zero_iff]
      have := length_le_len line
      omega
    rw [SourceFile.offsetOfLspPosition, h0]
    change len f.text = len a
    omega
  · have hn : (pos.line + 1).toNat = a.count '\n' + 1 := by
      rw [← hp]
      exact toNat_succ h0
    have ht : f.lineText (pos.line + 1) = some line := by
      rw [SourceFile.lineText, if_neg h0, hn]
      simp only [Nat.add_sub_cancel, Option.bind_eq_bind, Option.bind_some, h.start_eq, h.stop_eq,
        Nat.add_sub_cancel_left]
      rw [h.eq, sliceFrom_len, sliceTo_len]
      rfl
    rw [SourceFile.offsetOfLspPosition, ht, hp, getD_eq_getElem?_getD, h.start_eq]
    rfl

end LineAt

/-! ### Positions and offsets -/

/-- A line ends in what is left of it. -/
theorem stripCr_initial (line : List Char) : stripCr line <+: line := by
  rw [stripCr]
  split_ifs
  · exact dropLast_prefix line
  · exact prefix_rfl

theorem stripCr_append (hb : b ≠ []) : stripCr (a ++ b) = a ++ stripCr b := by
  rw [stripCr, stripCr, getLast?_append_of_ne_nil a hb, dropLast_append_of_ne_nil hb]
  split_ifs <;> rfl

/-- The offset is on the line with this number, or at the end of a text without that line. -/
def OnLine (text : List Char) (number offset : Nat) : Prop :=
  (∃ y line z part, LineAt text y line z ∧ y.count '\n' = number ∧
    part <+: line ∧ offset = len y + len part) ∨
  (text.count '\n' < number ∧ offset = len text)

/-- The offset is between a `\r` and the `\n` behind it. -/
def BetweenCrLf (text : List Char) (offset : Nat) : Prop :=
  ∃ a b, text = a ++ '\r' :: '\n' :: b ∧ offset = len a + 1

namespace SourceFile

variable {f : SourceFile} {offset : Nat}

/-- `clamp` moves an offset onto its character. -/
theorem clamp_isGreatest (f : SourceFile) (offset : Nat) :
    IsGreatest {b | IsCharBoundary f.text b ∧ b ≤ offset} (f.clamp offset) := by
  have h0 : IsCharBoundary f.text 0 := ⟨[], mem_inits _ _ |>.mpr nil_prefix, rfl⟩
  have hle : f.clamp offset ≤ min offset (len f.text) := Nat.findGreatest_le _
  refine ⟨⟨Nat.findGreatest_spec (Nat.zero_le _) h0, hle.trans (min_le_left _ _)⟩, ?_⟩
  rintro b ⟨hb, hbo⟩
  obtain ⟨part, hp, rfl⟩ := id hb
  exact Nat.le_findGreatest (le_min hbo (len_mono ((mem_inits _ _).mp hp))) hb

/-- A place is found again unless a `\r` is in front of it and a line break or nothing behind it. -/
theorem offset_lspPosition (ht : f.text = a ++ b) (hc : f.clamp offset = len a) :
    f.offsetOfLspPosition (f.lspPosition offset) = len a ↔
      ¬ (a.getLast? = some '\r' ∧ ∀ c ∈ b.head?, c = '\n') := by
  obtain ⟨y, l, r, z, rfl, rfl, h⟩ := exists_lineAt a b
  rw [← ht] at h
  have hps : f.lspPosition offset = ⟨.ofNat (y.count '\n'), units l⟩ := by
    have hi : f.lineIndex (len y + len l) = y.count '\n' := h.lineIndex_eq (by omega) (by simp)
    rw [len_append] at hc
    simp only [lspPosition, hc, hi, getD_eq_getElem?_getD, h.start_eq, Option.getD_some,
      Nat.add_sub_cancel_left]
    rw [h.eq, sliceFrom_len, append_assoc, sliceTo_len]
  have hn : y.count '\n' < 2 ^ 32 := by
    have hle : len y ≤ len f.text := len_mono ⟨_, h.eq.symm⟩
    exact (count_le_length.trans (length_le_len y)).trans_lt (hle.trans_lt f.short)
  rw [hps, h.offset_eq (UInt32.toNat_ofNat_of_lt' hn), len_append]
  change column (units l) 0 _ _ = _ ↔ _
  by_cases hr : r = []
  · subst hr
    rw [append_nil]
    by_cases hcr : l.getLast? = some '\r'
    · obtain ⟨d, rfl⟩ := getLast?_eq_some_iff.mp hcr
      obtain ⟨part, hp, heq⟩ := exists_column 0 (len y) d (units (d ++ ['\r']))
      have hle := len_mono hp
      rw [stripCr, if_pos hcr, dropLast_concat, heq]
      refine iff_of_false ?_ (not_not_intro ⟨by simp, h.last⟩)
      rw [len_append]
      have : 0 < len ['\r'] := by decide
      omega
    · rw [stripCr, if_neg hcr]
      have hcl := column_append 0 (len y) l []
      rw [append_nil, Nat.zero_add] at hcl
      refine iff_of_true hcl ?_
      rintro ⟨hls, -⟩
      rw [getLast?_append] at hls
      cases hl : l.getLast? with
      | none =>
        rw [hl] at hls
        exact absurd (h.first _ hls) (by decide)
      | some c =>
        rw [hl] at hls
        exact hcr (hl.trans hls)
  · rw [stripCr_append hr]
    have hcl := column_append 0 (len y) l (stripCr r)
    rw [Nat.zero_add] at hcl
    refine iff_of_true hcl ?_
    rintro ⟨-, hh⟩
    obtain ⟨c, r, rfl⟩ := exists_cons_of_ne_nil hr
    exact h.plain (by simp [hh c rfl])

theorem onLine_offset (f : SourceFile) (pos : Position) :
    OnLine f.text pos.line.toNat (f.offsetOfLspPosition pos) := by
  by_cases hk : pos.line.toNat ≤ f.text.count '\n'
  · obtain ⟨y, line, z, h, hb⟩ := exists_line hk
    obtain ⟨part, hp, heq⟩ := exists_column 0 (len y) (stripCr line) pos.character
    exact Or.inl ⟨y, line, z, part, h, hb, hp.trans (stripCr_initial line),
      (h.offset_eq hb.symm).trans heq⟩
  · refine Or.inr ⟨Nat.not_le.mp hk, ?_⟩
    have ht : f.lineText (pos.line + 1) = none := by
      rw [lineText]
      split_ifs with h0
      · rfl
      · have hn : f.lineStarts[pos.line.toNat]? = none := by
          rw [getElem?_eq_none_iff, lineStarts, length_cons, length_lineStartsFrom]
          exact Nat.not_le.mp hk
        simp [toNat_succ h0, hn]
    rw [offsetOfLspPosition, ht]

theorem offset_mono {p q : Position}
    (h : p.line < q.line ∨ p.line = q.line ∧ p.character ≤ q.character) :
    f.offsetOfLspPosition p ≤ f.offsetOfLspPosition q := by
  rcases f.onLine_offset q with ⟨y, line, z, part, hq, hn, -, heq⟩ | ⟨-, heq⟩
  · rcases h with hlt | ⟨hl, hc⟩
    · have hlt := UInt32.lt_iff_toNat_lt.mp hlt
      rcases f.onLine_offset p with ⟨y', line', z', part', hp, hn', hpr, heq'⟩ | ⟨hno, -⟩
      · have hle : len (y' ++ line') ≤ len y := by
          have hpe : y' ++ line' <+: f.text := ⟨z', by rw [hp.eq, append_assoc]⟩
          rcases prefix_or_prefix_of_prefix hpe ⟨_, hq.eq.symm⟩ with h | h
          · exact len_mono h
          · have := h.sublist.count_le '\n'
            rw [count_append, count_eq_zero.mpr hp.plain] at this
            omega
        have := len_mono hpr
        rw [len_append] at hle
        omega
      · have : y.count '\n' ≤ f.text.count '\n' := by simp [hq.eq]
        omega
    · rw [hq.offset_eq hn.symm, hq.offset_eq (hl ▸ hn.symm)]
      exact column_mono hc _ _ _
  · rw [heq]
    rcases f.onLine_offset p with ⟨y, line, z, part, hp, -, hpr, heq⟩ | ⟨-, heq⟩
    · have := len_mono hpr
      have : len f.text = len y + (len line + len z) := by simp [hp.eq]
      omega
    · exact heq.le

/-- An offset that is not between a `\r` and its `\n` is found again from its position, moved onto
its character, if and only if it is not the end of a text that ends in a `\r`.  The offset of any
position is on the position's line, and grows with the position. -/
theorem offset_lspPosition_iff (f : SourceFile) :
    (∀ offset, IsGreatest {b | IsCharBoundary f.text b ∧ b ≤ offset} (f.clamp offset) ∧
      ((¬ BetweenCrLf f.text offset →
          f.offsetOfLspPosition (f.lspPosition offset) = f.clamp offset) ↔
        ¬ (f.text.getLast? = some '\r' ∧ len f.text ≤ offset))) ∧
    (∀ pos, OnLine f.text pos.line.toNat (f.offsetOfLspPosition pos)) ∧
    ∀ p q : Position, p.line < q.line ∨ p.line = q.line ∧ p.character ≤ q.character →
      f.offsetOfLspPosition p ≤ f.offsetOfLspPosition q := by
  refine ⟨fun offset => ⟨f.clamp_isGreatest offset, ?_⟩, f.onLine_offset, fun p q => offset_mono⟩
  obtain ⟨⟨⟨a, ha, hc⟩, hle⟩, hm⟩ := f.clamp_isGreatest offset
  obtain ⟨b, ht⟩ := (mem_inits _ _).mp ha
  rw [← hc] at hle hm ⊢
  have hpr : ∀ part, part <+: f.text → len part ≤ offset → len part ≤ len a :=
    fun part hp ho => hm ⟨⟨part, (mem_inits _ _).mpr hp, rfl⟩, ho⟩
  rw [offset_lspPosition ht.symm hc.symm]
  constructor
  · rintro h ⟨hcr, he⟩
    obtain rfl : b = [] := by
      have hal := hpr _ prefix_rfl he
      have hb := length_le_len b
      rw [← ht, len_append] at hal
      rw [← length_eq_zero_iff]
      omega
    rw [append_nil] at ht
    refine h ?_ ⟨ht ▸ hcr, nofun⟩
    rintro ⟨c, d, htx, rfl⟩
    have hon : Char.utf8Size '\r' = 1 ∧ Char.utf8Size '\n' = 1 := ⟨rfl, rfl⟩
    rw [htx, len_append, len_cons, len_cons] at he
    omega
  · rintro h hno ⟨hcr, hlf⟩
    cases b with
    | nil =>
      rw [append_nil] at ht
      exact h ⟨ht ▸ hcr, ht ▸ hle⟩
    | cons c b =>
      obtain rfl := hlf c rfl
      obtain ⟨d, rfl⟩ := getLast?_eq_some_iff.mp hcr
      refine hno ⟨d, b, by simp [← ht], ?_⟩
      -- the `\n` would be in front of a larger offset
      have hn := hpr (d ++ ['\r'] ++ ['\n']) ⟨b, by simp [← ht]⟩
      have hon : len ['\r'] = 1 ∧ len ['\n'] = 1 := ⟨rfl, rfl⟩
      simp only [len_append] at hn hle
      omega

/-- A file of one `\r`. -/
def lastCr : SourceFile := ⟨['\r'], by decide⟩

/-- The end of `\r` is taken for its start. -/
theorem offset_lspPosition_lastCr :
    ¬ BetweenCrLf lastCr.text 1 ∧ IsCharBoundary lastCr.text 1 ∧
      lastCr.offsetOfLspPosition (lastCr.lspPosition 1) = 0 := by
  refine ⟨?_, by decide, by decide⟩
  rintro ⟨a, b, h, -⟩
  have := congrArg length h
  simp [lastCr] at this
  omega

end SourceFile

end Silt.Source

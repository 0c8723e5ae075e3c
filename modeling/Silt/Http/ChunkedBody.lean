import Mathlib.Data.Nat.Digits.Defs
import Silt.Http.Cutting
import Silt.Lib.Ascii
import Silt.Lib.Elementwise

/-!
# Chunked bodies

A body in chunks as it stands on the wire (`Coding`): each chunk has a line with its size in
hexadecimal, its bytes and a line end; a chunk of size 0 ends them, then come trailers up to an
empty line.  Every such coding within the limits of the server is read back, and nothing else is
read as a body: the bytes that were used up are a coding of the body, and no other coding starts
the same bytes.

## Main definitions

* `SizeLine`, `Chunk`, `Coding` : a body in chunks, well formed and within the limits.

## Main results

* `chunkSize_text`, `exists_sizeLine` : the sizes that are read are those of size lines.
* `chunked_whole`, `coding_of_chunked` : what is read are codings.
-/

namespace Silt.Http

open List

open Pieces

variable {c : Char} {byte : UInt8} {α : Type} {bytes buf : List UInt8} {r : Reader}

/-! ### Codings -/

/-- The value of a hexadecimal digit. -/
def hexByte (byte : UInt8) : Option Nat := hexDigit (Char.ofUInt8 byte)

/-- The line before a chunk: its size, with blanks and extensions behind it. -/
structure SizeLine where
  digits : List UInt8
  blanks : List UInt8
  extensions : List UInt8
  digits_ne : digits ≠ []
  digits_le : digits.length ≤ 16
  digits_hex : ∀ byte ∈ digits, (hexByte byte).isSome
  blanks_blank : ∀ byte ∈ blanks, byte = 32 ∨ byte = 9
  extensions_start : extensions = [] ∨ extensions.head? = some 59
  extensions_plain : ∀ byte ∈ extensions, isControl byte = false
  length_le : (digits ++ blanks ++ extensions).length ≤ chunkLineMax

def SizeLine.text (l : SizeLine) : List UInt8 := l.digits ++ l.blanks ++ l.extensions

def SizeLine.size (l : SizeLine) : Nat :=
  Nat.ofDigits 16 (l.digits.map fun byte => (hexByte byte).getD 0).reverse

/-- A chunk that is not the last. -/
structure Chunk where
  line : SizeLine
  bytes : List UInt8
  bytes_ne : bytes ≠ []
  size_eq : line.size = bytes.length

def Chunk.wire (c : Chunk) : List UInt8 := c.line.text ++ crlf ++ (c.bytes ++ crlf)

/-- How many bytes of a chunk are not its bytes. -/
def SizeLine.framing (l : SizeLine) : Nat := l.text.length + 4

/-- A line of the trailers. -/
structure Trailer where
  text : List UInt8
  text_ne : text ≠ []
  text_plain : ∀ byte ∈ text, isControl byte = false

def Trailer.wire (t : Trailer) : List UInt8 := t.text ++ crlf

/-- A body in chunks, within the limits. -/
structure Coding where
  chunks : List Chunk
  last : SizeLine
  trailers : List Trailer
  last_size : last.size = 0
  body_le : (chunks.flatMap Chunk.bytes).length ≤ bodyMax
  framing_le : (chunks.map fun c => c.line.framing).sum + last.framing ≤ chunkFramingMax
  trailers_le : (trailers.map fun t => t.text.length + 2).sum ≤ headMax

def Coding.body (c : Coding) : List UInt8 := c.chunks.flatMap Chunk.bytes

/-- The bytes of the coding. -/
def Coding.wire (c : Coding) : List UInt8 :=
  c.chunks.flatMap Chunk.wire ++ (c.last.text ++ crlf) ++ (c.trailers.flatMap Trailer.wire ++ crlf)

/-! ### Sizes -/

/-- Whether the character is a space or a tab. -/
def isBlank (c : Char) : Bool := c == ' ' || c == '\t'

theorem toNat_of_hexDigit (h : (hexDigit c).isSome) : 48 ≤ c.toNat ∧ c.toNat ≤ 102 := by
  have hb {lo hi : Char} (hc : lo ≤ c ∧ c ≤ hi) (hlo : 48 ≤ lo.toNat) (hhi : hi.toNat ≤ 102) :
      48 ≤ c.toNat ∧ c.toNat ≤ 102 :=
    ⟨hlo.trans (UInt32.le_iff_toNat_le.mp hc.1), (UInt32.le_iff_toNat_le.mp hc.2).trans hhi⟩
  rw [hexDigit] at h
  grind

theorem lt_of_hexByte (h : (hexByte byte).isSome) : byte < 128 :=
  UInt8.lt_iff_toNat_lt.mpr ((toNat_of_hexDigit h).2.trans_lt (by decide))

theorem isControl_of_hexByte (h : (hexByte byte).isSome) : isControl byte = false := by
  obtain ⟨hle, hge⟩ : 48 ≤ byte.toNat ∧ byte.toNat ≤ 102 := toNat_of_hexDigit h
  have hlt : ¬byte < 32 := by
    exact Nat.not_lt.mpr (Nat.le_trans (by decide) hle)
  have hne : byte ≠ 127 := by
    rintro rfl
    exact absurd hge (by decide)
  rw [isControl, decide_eq_false hlt, beq_eq_false_iff_ne.mpr hne]
  rfl

theorem isBlank_of_hexDigit (h : (hexDigit c).isSome) : isBlank c = false := by
  rw [isBlank, Bool.or_eq_false_iff, beq_eq_false_iff_ne, beq_eq_false_iff_ne]
  constructor <;> rintro rfl <;> exact absurd h (by decide)

theorem hexByte_ne (h : (hexByte byte).isSome) : byte ≠ 59 := by
  rintro rfl
  exact absurd h (by decide)

/-- The size that digits give. -/
def sizeOfDigits (digits : List Char) : Option Nat :=
  if digits.isEmpty || digits.length > 16 then none
  else (digits.mapM hexDigit).map fun values => values.foldl (fun n digit => n * 16 + digit) 0

theorem chunkSize_eq (line : List UInt8) :
    chunkSize line = sizeOfDigits
      ((((String.fromUTF8? ⟨(line.takeWhile (· != 59)).toArray⟩).getD "").toList.reverse.dropWhile
        isBlank).reverse) := rfl

theorem mapM_eq_getD_iff {β : Type} {f : α → Option β} (d : β) {xs : List α} {ys : List β} :
    xs.mapM f = some ys ↔ (∀ x ∈ xs, (f x).isSome) ∧ ys = xs.map fun x => (f x).getD d := by
  rw [mapM_eq_some_iff]
  constructor
  · intro h
    induction h with
    | nil => exact ⟨nofun, rfl⟩
    | cons hx _ ih => simpa [hx] using ih
  · rintro ⟨ha, rfl⟩
    rw [forall₂_map_right_iff, forall₂_same]
    intro x hx
    obtain ⟨y, hy⟩ := Option.isSome_iff_exists.mp (ha x hx)
    rw [hy, Option.getD_some]

theorem foldl_eq_ofDigits (values : List Nat) :
    values.foldl (fun n digit => n * 16 + digit) 0 = Nat.ofDigits 16 values.reverse := by
  rw [Nat.ofDigits_eq_foldr, foldr_reverse]
  congr 1
  funext n digit
  rw [Nat.mul_comm, Nat.add_comm]
  rfl

variable {size : Nat}

theorem sizeOfDigits_eq_some_iff {digits : List Char} :
    sizeOfDigits digits = some size ↔
      digits ≠ [] ∧ digits.length ≤ 16 ∧ (∀ c ∈ digits, (hexDigit c).isSome) ∧
        size = Nat.ofDigits 16 (digits.map fun c => (hexDigit c).getD 0).reverse := by
  rw [sizeOfDigits]
  by_cases hn : digits = []
  · simp [hn]
  by_cases hl : digits.length > 16
  · grind
  rw [if_neg (by simp [hn, Nat.not_lt.mp hl]), Option.map_eq_some_iff]
  constructor
  · rintro ⟨values, hv, rfl⟩
    obtain ⟨ha, rfl⟩ := (mapM_eq_getD_iff 0).mp hv
    exact ⟨hn, Nat.not_lt.mp hl, ha, foldl_eq_ofDigits _⟩
  · rintro ⟨-, -, ha, rfl⟩
    exact ⟨_, (mapM_eq_getD_iff 0).mpr ⟨ha, rfl⟩, foldl_eq_ofDigits _⟩

theorem trim_append {digits blanks : List Char} (hd : ∀ c ∈ digits, isBlank c = false)
    (hb : ∀ c ∈ blanks, isBlank c = true) :
    ((digits ++ blanks).reverse.dropWhile isBlank).reverse = digits := by
  rw [reverse_append, dropWhile_append_of_pos (by simpa using hb)]
  have hn : digits.reverse.dropWhile isBlank = digits.reverse := by simp_all
  rw [hn, reverse_reverse]

theorem takeWhile_append_of_head? {p : UInt8 → Bool} {first second : List UInt8}
    (hf : ∀ byte ∈ first, p byte = true)
    (hs : second = [] ∨ ∃ byte, second.head? = some byte ∧ p byte = false) :
    (first ++ second).takeWhile p = first := by
  rw [takeWhile_append_of_pos hf]
  rcases hs with rfl | ⟨byte, hh, hb⟩
  · simp
  · cases second with
    | nil => cases hh
    | cons b second => simp_all

theorem blank_lt (h : byte = 32 ∨ byte = 9) : byte < 128 := by
  rcases h with rfl | rfl <;> decide

theorem SizeLine.takeWhile_text (l : SizeLine) :
    l.text.takeWhile (· != 59) = l.digits ++ l.blanks := by
  refine takeWhile_append_of_head? (fun byte hby => ?_) ?_
  · rw [bne_iff_ne]
    rcases mem_append.mp hby with hd | hb
    · exact hexByte_ne (l.digits_hex byte hd)
    · rcases l.blanks_blank byte hb with rfl | rfl <;> decide
  · rcases l.extensions_start with hn | hh
    · exact .inl hn
    · exact .inr ⟨59, hh, rfl⟩

theorem chunkSize_text (l : SizeLine) : chunkSize l.text = some l.size := by
  have hp : Ascii.Plain (l.digits ++ l.blanks) := by
    intro byte hby
    rcases mem_append.mp hby with hd | hb
    · exact lt_of_hexByte (l.digits_hex byte hd)
    · exact blank_lt (l.blanks_blank byte hb)
  have ht : ((Ascii.text (l.digits ++ l.blanks)).reverse.dropWhile isBlank).reverse =
      Ascii.text l.digits := by
    rw [Ascii.text_append]
    refine trim_append (fun c hc => ?_) fun c hc => ?_
    · obtain ⟨byte, hby, rfl⟩ := mem_map.mp hc
      exact isBlank_of_hexDigit (l.digits_hex byte hby)
    · obtain ⟨byte, hby, rfl⟩ := mem_map.mp hc
      rcases l.blanks_blank byte hby with rfl | rfl <;> decide
  rw [chunkSize_eq, l.takeWhile_text, Ascii.fromUTF8?_eq hp, Option.getD_some,
    String.toList_ofList, ht, sizeOfDigits_eq_some_iff]
  refine ⟨?_, ?_, fun c hc => ?_, ?_⟩
  · rw [Ascii.text, ne_eq, map_eq_nil_iff]
    exact l.digits_ne
  · rw [Ascii.text, length_map]
    exact l.digits_le
  · obtain ⟨byte, hby, rfl⟩ := mem_map.mp hc
    exact l.digits_hex byte hby
  · rw [Ascii.text, map_map]
    rfl

theorem exists_trim (cs : List Char) :
    ∃ blanks, cs = (cs.reverse.dropWhile isBlank).reverse ++ blanks ∧
      ∀ c ∈ blanks, isBlank c = true := by
  refine ⟨(cs.reverse.takeWhile isBlank).reverse, ?_, fun c hc => ?_⟩
  · rw [← reverse_append, takeWhile_append_dropWhile, reverse_reverse]
  · exact mem_takeWhile_imp (mem_reverse.mp hc)

theorem toNat_lt_of_isBlank (h : isBlank c = true) : c.toNat < 128 := by
  rw [isBlank, Bool.or_eq_true, beq_iff_eq, beq_iff_eq] at h
  rcases h with rfl | rfl <;> decide

theorem blank_of_isBlank (h : isBlank (Char.ofUInt8 byte) = true) : byte = 32 ∨ byte = 9 := by
  rw [isBlank, Bool.or_eq_true, beq_iff_eq, beq_iff_eq] at h
  rcases h with h | h
  · exact .inl (UInt8.toNat_inj.mp (congrArg Char.toNat h))
  · exact .inr (UInt8.toNat_inj.mp (congrArg Char.toNat h))

variable {text : List UInt8}

/-- A size that is read is that of a line. -/
theorem exists_sizeLine (h : chunkSize text = some size)
    (hl : text.length ≤ chunkLineMax) (hp : ∀ byte ∈ text, isControl byte = false) :
    ∃ l : SizeLine, l.text = text ∧ l.size = size := by
  rw [chunkSize_eq] at h
  cases hs : String.fromUTF8? ⟨(text.takeWhile (· != 59)).toArray⟩ with
  | none =>
    rw [hs] at h
    cases h
  | some s =>
    rw [hs, Option.getD_some, sizeOfDigits_eq_some_iff] at h
    obtain ⟨hne, hle, hhx, hsz⟩ := h
    obtain ⟨blanks, hsp, hb⟩ := exists_trim s.toList
    obtain ⟨digits', hd', hd⟩ := Ascii.exists_bytes fun c hc =>
      (toNat_of_hexDigit (hhx c hc)).2.trans_lt (by decide)
    obtain ⟨blanks', hb', rfl⟩ := Ascii.exists_bytes fun c hc =>
      toNat_lt_of_isBlank (hb c hc)
    rw [← hd] at hne hle hhx hsz hsp
    rw [Ascii.text, map_map] at hsz
    have hby : text.takeWhile (· != 59) = digits' ++ blanks' := by
      refine Ascii.bytes_of_fromUTF8? hs (forall_mem_append.mpr ⟨hd', hb'⟩) ?_
      rw [hsp, Ascii.text_append]
    have ht : digits' ++ blanks' ++ text.dropWhile (· != 59) = text := by
      rw [← hby, takeWhile_append_dropWhile]
    refine ⟨⟨digits', blanks', text.dropWhile (· != 59), ?_, ?_, ?_, ?_, ?_, ?_, ?_⟩, ht, ?_⟩
    · rintro rfl
      exact hne rfl
    · rwa [Ascii.text, length_map] at hle
    · exact fun byte hbt => hhx _ (mem_map_of_mem hbt)
    · exact fun byte hbt => blank_of_isBlank (hb _ (mem_map_of_mem hbt))
    · cases hdr : text.dropWhile (· != 59) with
      | nil => exact .inl rfl
      | cons byte rest =>
        have hh := head?_dropWhile_not (· != 59) text
        rw [hdr] at hh
        simpa using hh
    · exact fun byte hbt => hp byte ((dropWhile_sublist _).subset hbt)
    · rw [ht]
      exact hl
    · exact hsz.symm

/-! ### Lines and bytes, all of them there -/

theorem not_mem_of_plain (h : ∀ byte ∈ text, isControl byte = false) :
    10 ∉ text :=
  fun hm => absurd (h 10 hm) (by decide)

theorem findIdx?_line (h : ∀ byte ∈ text, isControl byte = false)
    (rest : List UInt8) : (text ++ (crlf ++ rest)).findIdx? (· == 10) = some (text.length + 1) := by
  have hn : text.findIdx? (· == 10) = none := by
    rw [findIdx?_eq_none_iff]
    intro byte hb
    rw [beq_eq_false_iff_ne]
    rintro rfl
    exact not_mem_of_plain h hb
  have hs : (crlf ++ rest).findIdx? (· == 10) = some 1 := rfl
  grind

theorem lineBefore_append (h : ∀ byte ∈ text, isControl byte = false) :
    lineBefore (text ++ [13]) = .ok text := by
  have ha : text.any isControl = false := by grind
  rw [lineBefore, getLast?_concat, dropLast_concat, ha]
  rfl

theorem line_whole {limit : Nat} (tooLong : Refused)
    (h : ∀ byte ∈ text, isControl byte = false) (hl : text.length ≤ limit) (rest : List UInt8) :
    line limit tooLong ⟨text ++ (crlf ++ rest), []⟩ = .ok (text, ⟨rest, []⟩) := by
  have ht : (text ++ (crlf ++ rest)).take (text.length + 1) = text ++ [13] := by
    rw [take_append, take_of_length_le (Nat.le_succ _), Nat.add_sub_cancel_left]
    rfl
  have hd : (text ++ (crlf ++ rest)).drop (text.length + 1 + 1) = rest := by
    rw [Nat.add_assoc, ← drop_drop, drop_left]
    rfl
  rw [line, readOn, lookForLine_of_some (findIdx?_line h rest), if_neg (by omega), ht, hd,
    lineBefore_append h]
  rfl

theorem lineBefore_eq_ok (h : lineBefore bytes = .ok text) :
    bytes = text ++ [13] ∧ ∀ byte ∈ text, isControl byte = false := by
  rw [lineBefore] at h
  split at h
  case isTrue => cases h
  case isFalse hif =>
    cases h
    simp only [Bool.or_eq_true, bne_iff_ne, ne_eq, not_or, not_not, Bool.not_eq_true] at hif
    obtain ⟨hl, ha⟩ := hif
    refine ⟨(dropLast_append_getLast? 13 hl).symm, fun byte hb => ?_⟩
    rw [any_eq_false] at ha
    simpa using ha byte hb

theorem line_eq_ok {limit : Nat} {tooLong : Refused}
    (h : line limit tooLong ⟨buf, []⟩ = .ok (text, r)) :
    ∃ rest, buf = text ++ (crlf ++ rest) ∧ r = ⟨rest, []⟩ ∧
      (∀ byte ∈ text, isControl byte = false) ∧ text.length ≤ limit := by
  rw [line, readOn] at h
  cases hb : buf.findIdx? (· == 10) with
  | none =>
    rw [lookForLine_of_none hb] at h
    split_ifs at h
  | some last =>
    rw [lookForLine_of_some hb] at h
    split_ifs at h with hln
    cases hl : lineBefore (buf.take last) with
    | error e =>
      rw [hl] at h
      cases h
    | ok text' =>
      rw [hl] at h
      cases h
      obtain ⟨ht, hp⟩ := lineBefore_eq_ok hl
      obtain ⟨hlt, hlf, -⟩ := findIdx?_eq_some_iff_getElem.mp hb
      have hls := congrArg List.length ht
      rw [length_take, length_append, length_singleton] at hls
      refine ⟨buf.drop (last + 1), ?_, rfl, hp, by omega⟩
      have hd : buf.drop last = 10 :: buf.drop (last + 1) := by
        rw [drop_eq_getElem_cons hlt, beq_iff_eq.mp hlf]
      calc buf = buf.take last ++ buf.drop last := (take_append_drop _ _).symm
        _ = text ++ [13] ++ 10 :: buf.drop (last + 1) := by rw [ht, hd]
        _ = text ++ (crlf ++ buf.drop (last + 1)) := by rw [append_assoc]; rfl

theorem exactly_whole (bytes rest : List UInt8) :
    exactly bytes.length ⟨bytes ++ rest, []⟩ = .ok (bytes, ⟨rest, []⟩) := by
  have hn : ¬(bytes ++ rest).length < bytes.length := by
    rw [length_append]
    omega
  rw [exactly, readOn, lookForBytes, if_neg hn, take_left, drop_left]

theorem exactly_eq_ok {length : Nat} (h : exactly length ⟨buf, []⟩ = .ok (bytes, r)) :
    ∃ rest, buf = bytes ++ rest ∧ r = ⟨rest, []⟩ ∧ bytes.length = length := by
  rw [exactly, readOn, lookForBytes] at h
  split_ifs at h with hl
  cases h
  simp_all

/-! ### Chunks and trailers -/

theorem bind_of_ok {γ : Type} {read : Step α} {f : α → Step γ} {r' : Reader} {a : α}
    (h : read r = .ok (a, r')) : (read >>= f) r = f a r' := by
  change ((read r).bind fun p => f p.1 p.2) = f a r'
  rw [h]
  rfl

theorem bind_eq_ok {γ : Type} {read : Step α} {f : α → Step γ} {p : γ × Reader}
    (h : (read >>= f) r = .ok p) : ∃ a r', read r = .ok (a, r') ∧ f a r' = .ok p := by
  change ((read r).bind fun p => f p.1 p.2) = .ok p at h
  cases hr : read r with
  | error e =>
    rw [hr] at h
    cases h
  | ok q =>
    rw [hr] at h
    exact ⟨q.1, q.2, rfl, h⟩

theorem trailers_whole {fuel : Nat} {ts : List Trailer} (hf : ts.length < fuel) {read : Nat}
    (hr : read + (ts.map fun t => t.text.length + 2).sum ≤ headMax) (rest : List UInt8) :
    trailers fuel read ⟨ts.flatMap Trailer.wire ++ crlf ++ rest, []⟩ = .ok ((), ⟨rest, []⟩) := by
  induction ts generalizing fuel read with
  | nil =>
    obtain ⟨fuel, rfl⟩ : ∃ fuel', fuel = fuel' + 1 := ⟨fuel - 1, by simp at hf; omega⟩
    exact bind_of_ok (line_whole headTooLarge (forall_mem_nil _) (Nat.zero_le _) rest)
  | cons t ts ih =>
    obtain ⟨fuel, rfl⟩ : ∃ fuel', fuel = fuel' + 1 := ⟨fuel - 1, by simp at hf; omega⟩
    rw [map_cons, sum_cons] at hr
    rw [length_cons] at hf
    have hw : (t :: ts).flatMap Trailer.wire ++ crlf ++ rest =
        t.text ++ (crlf ++ (ts.flatMap Trailer.wire ++ crlf ++ rest)) := by
      simp [flatMap_cons, Trailer.wire]
    have hl : t.text.length ≤ headMax := by omega
    have hln := line_whole headTooLarge t.text_plain hl (ts.flatMap Trailer.wire ++ crlf ++ rest)
    have he : ¬t.text.isEmpty = true := by
      rw [List.isEmpty_iff]
      exact t.text_ne
    rw [trailers, hw, bind_of_ok hln, if_neg he, if_neg (by omega)]
    exact ih (by omega) (by omega)

theorem trailers_eq_ok {fuel read : Nat} (h : trailers fuel read ⟨buf, []⟩ = .ok ((), r)) :
    ∃ (ts : List Trailer) (rest : List UInt8), buf = ts.flatMap Trailer.wire ++ crlf ++ rest ∧
      r = ⟨rest, []⟩ ∧
      (read ≤ headMax → read + (ts.map fun t => t.text.length + 2).sum ≤ headMax) := by
  induction fuel generalizing read buf with
  | zero => cases h
  | succ fuel ih =>
    obtain ⟨text, r', hln, h⟩ := bind_eq_ok h
    obtain ⟨rest, rfl, rfl, hp, hl⟩ := line_eq_ok hln
    split_ifs at h with he hlo
    · cases h
      rw [List.isEmpty_iff] at he
      subst he
      exact ⟨[], rest, rfl, rfl, id⟩
    · cases h
    · obtain ⟨ts, rest', rfl, rfl, hle⟩ := ih h
      have hne : text ≠ [] := by
        rintro rfl
        exact he rfl
      refine ⟨⟨text, hne, hp⟩ :: ts, rest', ?_, rfl, fun _ => ?_⟩
      · simp [flatMap_cons, Trailer.wire]
      grind

theorem chunkBytes_whole (bytes rest : List UInt8) :
    chunkBytes bytes.length ⟨bytes ++ (crlf ++ rest), []⟩ = .ok (bytes, ⟨rest, []⟩) := by
  rw [chunkBytes, bind_of_ok (exactly_whole bytes _)]
  exact bind_of_ok (line_whole badChunks (forall_mem_nil _) (Nat.le_refl _) rest)

theorem chunkBytes_eq_ok (h : chunkBytes size ⟨buf, []⟩ = .ok (bytes, r)) :
    ∃ rest, buf = bytes ++ (crlf ++ rest) ∧ r = ⟨rest, []⟩ ∧ bytes.length = size := by
  obtain ⟨part, r', hp, h⟩ := bind_eq_ok h
  obtain ⟨rest, rfl, rfl, hl⟩ := exactly_eq_ok hp
  obtain ⟨text, r'', hln, h⟩ := bind_eq_ok h
  obtain ⟨rest, rfl, rfl, -, -⟩ := line_eq_ok hln
  split_ifs at h with he
  · cases h
    grind
  · cases h

section Chunks

variable {r : Reader}

variable {room : Nat → Bool}

theorem SizeLine.text_plain (l : SizeLine) : ∀ byte ∈ l.text, isControl byte = false := by
  intro byte hby
  rw [text, append_assoc, mem_append, mem_append] at hby
  rcases hby with hd | hb | he
  · exact isControl_of_hexByte (l.digits_hex byte hd)
  · rcases l.blanks_blank byte hb with rfl | rfl <;> decide
  · exact l.extensions_plain byte he

variable (room) in
/-- What follows the line of a chunk that is not the last. -/
def chunksFrom (fuel : Nat) (body : List UInt8) (framing size : Nat) : Step (List UInt8) :=
  if size > bodyMax - body.length then throw (.refused bodyTooLarge)
  else if room size then do
    let part ← chunkBytes size
    chunks room fuel (body ++ part) framing
  else throw (.refused noRoom)

theorem chunks_whole {fuel : Nat} {cs : List Chunk} (hfl : cs.length < fuel) {last : SizeLine}
    (hls : last.size = 0) {body : List UInt8} {framing : Nat}
    (hr : ∀ c ∈ cs, room c.bytes.length = true)
    (hbd : (body ++ cs.flatMap Chunk.bytes).length ≤ bodyMax)
    (hf : framing + (cs.map fun c => c.line.framing).sum + last.framing ≤ chunkFramingMax)
    (rest : List UInt8) :
    chunks room fuel body framing ⟨cs.flatMap Chunk.wire ++ (last.text ++ crlf) ++ rest, []⟩ =
      .ok (body ++ cs.flatMap Chunk.bytes, ⟨rest, []⟩) := by
  induction cs generalizing fuel body framing with
  | nil =>
    obtain ⟨fuel, rfl⟩ : ∃ fuel', fuel = fuel' + 1 := ⟨fuel - 1, by simp at hfl; omega⟩
    have hln := line_whole badChunks last.text_plain last.length_le rest
    rw [SizeLine.framing, map_nil, sum_nil] at hf
    rw [chunks, flatMap_nil, nil_append, append_assoc, bind_of_ok hln,
      if_neg (by omega), chunkSize_text, hls, flatMap_nil, append_nil]
    rfl
  | cons c cs ih =>
    obtain ⟨fuel, rfl⟩ : ∃ fuel', fuel = fuel' + 1 := ⟨fuel - 1, by simp at hfl; omega⟩
    rw [length_cons] at hfl
    rw [map_cons, sum_cons, SizeLine.framing] at hf
    set later := cs.flatMap Chunk.wire ++ (last.text ++ crlf) ++ rest with hl
    have hw : (c :: cs).flatMap Chunk.wire ++ (last.text ++ crlf) ++ rest =
        c.line.text ++ (crlf ++ (c.bytes ++ (crlf ++ later))) := by
      simp [flatMap_cons, Chunk.wire, hl]
    have hln := line_whole badChunks c.line.text_plain c.line.length_le (c.bytes ++ (crlf ++ later))
    obtain ⟨size, hs⟩ : ∃ size, c.bytes.length = size + 1 :=
      Nat.exists_eq_succ_of_ne_zero (by simpa using c.bytes_ne)
    have hb := chunkBytes_whole c.bytes later
    have hft : ¬c.bytes.length > bodyMax - body.length := by
      rw [flatMap_cons, length_append, length_append] at hbd
      omega
    have hg := hr c mem_cons_self
    rw [hs] at hb hft hg
    rw [chunks, hw, bind_of_ok hln, if_neg (by omega), chunkSize_text, c.size_eq, hs]
    change chunksFrom room fuel body _ (size + 1) _ = _
    rw [chunksFrom, if_neg hft, if_pos hg, bind_of_ok hb, ih (by omega)
      (fun c hc => hr c (mem_cons_of_mem _ hc)), flatMap_cons, append_assoc]
    · rwa [flatMap_cons, ← append_assoc] at hbd
    · omega

theorem chunks_eq_ok {fuel : Nat} {buf body body' : List UInt8} {framing : Nat} {r : Reader}
    (h : chunks room fuel body framing ⟨buf, []⟩ = .ok (body', r)) :
    ∃ (cs : List Chunk) (last : SizeLine) (rest : List UInt8), last.size = 0 ∧
      buf = cs.flatMap Chunk.wire ++ (last.text ++ crlf) ++ rest ∧ r = ⟨rest, []⟩ ∧
      body' = body ++ cs.flatMap Chunk.bytes ∧ (body.length ≤ bodyMax → body'.length ≤ bodyMax) ∧
      framing + (cs.map fun c => c.line.framing).sum + last.framing ≤ chunkFramingMax ∧
      ∀ c ∈ cs, room c.bytes.length = true := by
  induction fuel generalizing buf body framing with
  | zero => cases h
  | succ fuel ih =>
    obtain ⟨text, r', hli, h⟩ := bind_eq_ok h
    obtain ⟨rest, rfl, rfl, hpl, hln⟩ := line_eq_ok hli
    split_ifs at h with hf
    · cases h
    · cases hs : chunkSize text with
      | none =>
        rw [hs] at h
        cases h
      | some size =>
        obtain ⟨l, rfl, hl⟩ := exists_sizeLine hs hln hpl
        rw [hs] at h
        cases size with
        | zero =>
          cases h
          refine ⟨[], l, rest, hl, ?_, rfl, ?_, id, ?_, nofun⟩
          · simp
          · simp
          · rw [SizeLine.framing, map_nil, sum_nil]
            omega
        | succ size =>
          change chunksFrom room fuel body _ (size + 1) _ = _ at h
          rw [chunksFrom] at h
          split_ifs at h with hft hg
          · cases h
          · obtain ⟨part, r', hpr, h⟩ := bind_eq_ok h
            obtain ⟨rest', rfl, rfl, hp⟩ := chunkBytes_eq_ok hpr
            obtain ⟨cs, last, rest, hls, rfl, rfl, rfl, hb, hf', hr⟩ := ih h
            have hne : part ≠ [] := by
              rintro rfl
              cases hp
            have hg' : room part.length = true := (congrArg room hp).trans hg
            refine ⟨⟨l, part, hne, hl.trans hp.symm⟩ :: cs, last, rest, hls, ?_, rfl, ?_,
              fun _ => ?_, ?_, forall_mem_cons.mpr ⟨hg', hr⟩⟩
            · simp [flatMap_cons, Chunk.wire]
            · simp [flatMap_cons]
            · refine hb ?_
              rw [length_append]
              omega
            · rw [map_cons, sum_cons]
              dsimp only
              rw [SizeLine.framing]
              omega
          · cases h

/-! ### Bodies -/

theorem length_le_flatMap {f : α → List UInt8} (h : ∀ a, 0 < (f a).length) (xs : List α) :
    xs.length ≤ (xs.flatMap f).length := by
  induction xs with
  | nil => exact Nat.zero_le _
  | cons x xs ih => grind

theorem length_lt_wire (c : Coding) (fu : List UInt8) :
    c.chunks.length < (c.wire ++ fu).length + 1 ∧
      c.trailers.length < (c.wire ++ fu).length + 1 := by
  have hc := length_le_flatMap (f := Chunk.wire) (by simp [Chunk.wire, crlf]) c.chunks
  have ht := length_le_flatMap (f := Trailer.wire) (by simp [Trailer.wire, crlf]) c.trailers
  simp only [Coding.wire, length_append]
  omega

/-- A coding is read back where there is room for its chunks. -/
theorem chunked_whole (c : Coding) (hr : ∀ chunk ∈ c.chunks, room chunk.bytes.length = true)
    (fu : List UInt8) : chunked room ⟨c.wire ++ fu, []⟩ = .ok (c.body, ⟨fu, []⟩) := by
  have hi : Source.items ⟨c.wire ++ fu, []⟩ = c.wire ++ fu := append_nil _
  have hw : c.wire ++ fu = c.chunks.flatMap Chunk.wire ++ (c.last.text ++ crlf) ++
      (c.trailers.flatMap Trailer.wire ++ crlf ++ fu) := by
    simp [Coding.wire]
  have hc : chunks room ((c.wire ++ fu).length + 1) [] 0 ⟨c.wire ++ fu, []⟩ =
      .ok (c.body, ⟨c.trailers.flatMap Trailer.wire ++ crlf ++ fu, []⟩) := by
    rw [hw]
    refine chunks_whole (hw ▸ (length_lt_wire c fu).1) c.last_size hr c.body_le ?_ _
    rw [Nat.zero_add]
    exact c.framing_le
  have ht : trailers ((c.wire ++ fu).length + 1) 0
      ⟨c.trailers.flatMap Trailer.wire ++ crlf ++ fu, []⟩ = .ok ((), ⟨fu, []⟩) := by
    refine trailers_whole (length_lt_wire c fu |>.2) ?_ fu
    rw [Nat.zero_add]
    exact c.trailers_le
  rw [chunked, hi, bind_of_ok hc, bind_of_ok ht]
  rfl

/-- What is read as a body is a coding of it. -/
theorem coding_of_chunked {buf body : List UInt8} (h : chunked room ⟨buf, []⟩ = .ok (body, r)) :
    ∃ c : Coding, c.body = body ∧ (∃ fu, buf = c.wire ++ fu ∧ r = ⟨fu, []⟩) ∧
      ∀ chunk ∈ c.chunks, room chunk.bytes.length = true := by
  obtain ⟨body', r', hc, h⟩ := bind_eq_ok h
  obtain ⟨cs, last, rest, hl, rfl, rfl, rfl, hb, hf, hr⟩ := chunks_eq_ok hc
  obtain ⟨⟨⟩, r'', ht, h⟩ := bind_eq_ok h
  obtain ⟨ts, fu, rfl, rfl, hle⟩ := trailers_eq_ok ht
  cases h
  rw [Nat.zero_add] at hf
  rw [Nat.zero_add] at hle
  refine ⟨⟨cs, last, ts, hl, hb (Nat.zero_le _), hf, hle (Nat.zero_le _)⟩, rfl, ⟨fu, ?_, rfl⟩, hr⟩
  simp [Coding.wire]

/-- A read of all there is says what a read of the pieces comes to. -/
theorem Respects.of_whole {α : Type} {read : Step α} (h : Respects Next.kind read) {a : α}
    {rest : List UInt8} (hrd : read ⟨r.items, []⟩ = .ok (a, ⟨rest, []⟩)) :
    ∃ r', read r = .ok (a, r') ∧ r'.items = rest := by
  have ha := h r ⟨r.items, []⟩ (append_nil _).symm
  rw [hrd] at ha
  cases hr : read r with
  | error e =>
    rw [hr] at ha
    exact ha.elim
  | ok p =>
    rw [hr] at ha
    obtain ⟨rfl, hi⟩ := ha
    exact ⟨p.2, rfl, hi.trans (append_nil _)⟩

/-- What a read of the pieces comes to a read of all there is says. -/
theorem Respects.whole_of {α : Type} {read : Step α} (h : Respects Next.kind read) {r' : Reader}
    {a : α} (hrd : read r = .ok (a, r')) :
    ∃ r'', read ⟨r.items, []⟩ = .ok (a, r'') ∧ r''.items = r'.items := by
  have ha := h ⟨r.items, []⟩ r (append_nil _)
  rw [hrd] at ha
  cases hr : read ⟨r.items, []⟩ with
  | error e =>
    rw [hr] at ha
    exact ha.elim
  | ok p =>
    rw [hr] at ha
    obtain ⟨rfl, hi⟩ := ha
    exact ⟨p.2, rfl, hi⟩

theorem coding_unique {c c' : Coding} {fu fu' : List UInt8}
    (h : c.wire ++ fu = c'.wire ++ fu') : c.body = c'.body ∧ fu = fu' := by
  have hr : chunked granted ⟨c.wire ++ fu, []⟩ = .ok (c.body, ⟨fu, []⟩) :=
    chunked_whole c (fun _ _ => rfl) fu
  rw [h, chunked_whole c' (fun _ _ => rfl) fu', Except.ok.injEq, Prod.mk.injEq] at hr
  exact ⟨hr.1.symm, (congrArg Source.buf hr.2).symm⟩

end Chunks

/-- Bodies in chunks.  A coding within the limits is read back as its body where there is room for
its chunks, and what follows it is left.  What is read as a body is a coding of it, and no other
coding starts those bytes. -/
theorem chunked_bodies (room : Nat → Bool) :
    (∀ (c : Coding) (further : List UInt8) (r : Reader),
      (∀ chunk ∈ c.chunks, room chunk.bytes.length = true) → r.items = c.wire ++ further →
      (∃ r', chunked room r = .ok (c.body, r') ∧ r'.items = further) ∧
        (r.pieces = [] → chunked room r = .ok (c.body, ⟨further, []⟩))) ∧
    ∀ (r r' : Reader) (body : List UInt8), chunked room r = .ok (body, r') →
      (∃ c : Coding, c.body = body ∧ r.items = c.wire ++ r'.items) ∧
        ∀ (c : Coding) (further : List UInt8), r.items = c.wire ++ further →
          c.body = body ∧ further = r'.items := by
  refine ⟨?_, ?_⟩
  · intro c further r hrm hi
    have hw := chunked_whole c hrm further
    refine ⟨?_, fun hp => ?_⟩
    · rw [← hi] at hw
      exact Respects.of_whole tame_chunked.respects hw
    · obtain ⟨buf, pieces⟩ := r
      obtain rfl : pieces = [] := hp
      obtain rfl : buf = c.wire ++ further := (append_nil buf).symm.trans hi
      exact hw
  · intro r r' body hr
    obtain ⟨r'', hw, hl⟩ := Respects.whole_of tame_chunked.respects hr
    obtain ⟨c, rfl, ⟨further, hi, rfl⟩, -⟩ := coding_of_chunked hw
    obtain rfl : further = r'.items := (append_nil further).symm.trans hl
    refine ⟨⟨c, rfl, hi⟩, fun c' further' hi' => ?_⟩
    exact coding_unique (hi'.symm.trans hi)

/-- The line of a size of one digit. -/
def SizeLine.ofDigit (digit : UInt8) (h : (hexByte digit).isSome) : SizeLine where
  digits := [digit]
  blanks := []
  extensions := []
  digits_ne := nofun
  digits_le := Nat.le_add_left 1 15
  digits_hex := by simpa using h
  blanks_blank := nofun
  extensions_start := .inl rfl
  extensions_plain := nofun
  length_le := Nat.le_add_left 1 4095

/-- A body of one byte. -/
def Coding.ofByte : Coding where
  chunks := [⟨.ofDigit 49 (by decide), [97], nofun, rfl⟩]
  last := .ofDigit 48 (by decide)
  trailers := []
  last_size := rfl
  body_le := by decide
  framing_le := by decide
  trailers_le := by decide

/-- A body for which there is no room is refused. -/
theorem chunked_refused_without_room :
    ¬∀ (room : Nat → Bool) (c : Coding) (further : List UInt8),
      chunked room ⟨c.wire ++ further, []⟩ = .ok (c.body, ⟨further, []⟩) := by
  intro h
  obtain ⟨c, hb, -, hr⟩ := coding_of_chunked (h (fun _ => false) .ofByte [])
  have hn : c.chunks = [] :=
    eq_nil_iff_forall_not_mem.mpr fun chunk hc => Bool.false_ne_true (hr chunk hc)
  rw [Coding.body, hn] at hb
  cases hb

/-! ### The requests that are handed out -/

/-- A request as it is sent: a head, with an empty line before it or not, that names its host and
announces a body in one way, and that body behind it. -/
structure Announced (parser : Httparse) where
  skipped : List UInt8
  headBytes : List UInt8
  head : Head
  bodyBytes : List UInt8
  body : List UInt8
  skipped_eq : skipped = [] ∨ skipped = crlf
  begins : beginsNoRequest headBytes = false
  parsed : parser.parse headBytes = .complete headBytes.length head
  plain : lone none headBytes = false
  head_le : headBytes.length ≤ headMax
  host : namesHost head = true
  expects : ∃ waits, expectsContinue head = .ok waits
  body_le : body.length ≤ bodyMax
  framed : framing head = .ok .none ∧ bodyBytes = [] ∧ body = [] ∨
    framing head = .ok (.length body.length) ∧ bodyBytes = body ∨
    framing head = .ok .chunked ∧ ∃ c : Coding, c.wire = bodyBytes ∧ c.body = body

namespace Announced

variable {parser : Httparse}

def wire (a : Announced parser) : List UInt8 := a.skipped ++ a.headBytes ++ a.bodyBytes

def request (a : Announced parser) : Request := a.head.request a.body

end Announced

section Announced

variable {parser : Httparse} {room : Nat → Bool} {before : Bool → Bool} {r r' : Reader}
  {request : Request} {buf : List UInt8}

/-- What is read as a head are the bytes that the parser takes for it. -/
theorem head_eq_ok {hd : Head} (h : head parser ⟨buf, []⟩ = .ok (hd, r)) :
    ∃ skipped bytes rest, buf = skipped ++ bytes ++ rest ∧ r = ⟨rest, []⟩ ∧
      (skipped = [] ∨ skipped = crlf) ∧ beginsNoRequest bytes = false ∧
      parser.parse bytes = .complete bytes.length hd ∧ lone none bytes = false ∧
      bytes.length ≤ headMax := by
  rw [head, readOn] at h
  split at h
  next hd' rest hl =>
    cases h
    rw [(searchInv_start false buf).lookForHead_eq] at hl
    obtain ⟨-, -, ⟨-, hr⟩ | ⟨hb, -, hr⟩ | ⟨-, -, hr⟩⟩ := lookPast_cases hl
    · cases hr
    · obtain ⟨skipped, hs, hbf⟩ : ∃ skipped, (skipped = [] ∨ skipped = crlf) ∧
          buf = skipped ++ (passOver false buf).2 := by
        rcases passOver_false_cases buf with ⟨rest, rfl, hp⟩ | hp
        · exact ⟨crlf, .inr rfl, by rw [hp]; rfl⟩
        · exact ⟨[], .inl rfl, by rw [hp]; rfl⟩
      unfold parseHead at hr
      split at hr
      next length head hp =>
        split_ifs at hr with hm hln
        cases hr
        have he := parser.complete_end hb hp
        have hle := (headEnd_le he).2
        have hbt : beginsNoRequest ((passOver false buf).2.take length) = false := by
          by_contra hn
          have hn := beginsNoRequest_append ((passOver false buf).2.drop length) (by simpa using hn)
          rw [take_append_drop, hb] at hn
          cases hn
        have hpt : parser.parse ((passOver false buf).2.take length) = .complete length hd := by
          rw [← hp]
          conv_rhs => rw [← take_append_drop length (passOver false buf).2]
          exact (parser.upToEnd _ hbt (by rw [headEnd_take he (Nat.le_refl _)]; rfl)).symm
        refine ⟨skipped, _, _, ?_, rfl, hs, hbt, ?_, by simpa using hln, ?_⟩
        · rw [append_assoc, take_append_drop]
          exact hbf
        · rw [hpt, length_take, Nat.min_eq_left hle]
        · rw [length_take]
          omega
      all_goals cases hr
    · cases hr
  · cases h
  · cases h

theorem le_bodyMax_of_framing {head : Head} {n : Nat} (h : framing head = .ok (.length n)) :
    n ≤ bodyMax := by
  simp only [framing, contentLength] at h
  grind

theorem lift_eq_ok {α : Type} {x : Except Next α} {a : α} :
    (liftM x : Step α) r = .ok (a, r') ↔ x = .ok a ∧ r' = r := by
  constructor
  · intro h
    cases x <;> cases h
    exact ⟨rfl, rfl⟩
  · rintro ⟨rfl, rfl⟩
    rfl

theorem readBody_length {waits : Bool} {n : Nat} {body : List UInt8}
    (h : readBody room before waits (.length n) ⟨buf, []⟩ = .ok (body, r)) :
    ∃ rest, buf = body ++ rest ∧ r = ⟨rest, []⟩ ∧ body.length = n := by
  cases n with
  | zero =>
    cases h
    exact ⟨buf, rfl, rfl, rfl⟩
  | succ n =>
    simp only [readBody] at h
    split_ifs at h
    · obtain ⟨_, r', ha, h⟩ := bind_eq_ok h
      rw [announce_apply] at ha
      split_ifs at ha
      cases ha
      exact exactly_eq_ok h
    · cases h

/-- A request that is read of all there is, is what was sent. -/
theorem next_announced (h : next parser room before ⟨buf, []⟩ = .ok (request, r)) :
    ∃ (a : Announced parser) (rest : List UInt8),
      a.request = request ∧ buf = a.wire ++ rest ∧ r = ⟨rest, []⟩ := by
  obtain ⟨head, _, hh, h⟩ := bind_eq_ok h
  obtain ⟨skipped, bytes, rest, rfl, rfl, hs, hbg, hp, hln, hle⟩ := head_eq_ok hh
  obtain ⟨framed, _, hl, h⟩ := bind_eq_ok h
  obtain ⟨hf, rfl⟩ := lift_eq_ok.mp hl
  split_ifs at h with hn
  · obtain ⟨waits, _, hw, h⟩ := bind_eq_ok h
    obtain ⟨he, rfl⟩ := lift_eq_ok.mp hw
    obtain ⟨body, _, hb, h⟩ := bind_eq_ok h
    cases h
    cases framed with
    | none =>
      cases hb
      exact ⟨⟨skipped, bytes, head, [], [], hs, hbg, hp, hln, hle, hn, ⟨_, he⟩, Nat.zero_le _,
        .inl ⟨hf, rfl, rfl⟩⟩, rest, rfl, by simp [Announced.wire], rfl⟩
    | length n =>
      obtain ⟨rest, rfl, rfl, rfl⟩ := readBody_length hb
      exact ⟨⟨skipped, bytes, head, body, body, hs, hbg, hp, hln, hle, hn, ⟨_, he⟩,
        le_bodyMax_of_framing hf, .inr (.inl ⟨hf, rfl⟩)⟩, rest, rfl, by simp [Announced.wire], rfl⟩
    | chunked =>
      obtain ⟨_, _, ha, hb⟩ := bind_eq_ok hb
      rw [announce_apply] at ha
      split_ifs at ha
      cases ha
      obtain ⟨c, rfl, ⟨rest, rfl, rfl⟩, -⟩ := coding_of_chunked hb
      exact ⟨⟨skipped, bytes, head, c.wire, c.body, hs, hbg, hp, hln, hle, hn, ⟨_, he⟩, c.body_le,
        .inr (.inr ⟨hf, c, rfl, rfl⟩)⟩, rest, rfl, by simp [Announced.wire], rfl⟩
  · cases h

theorem nextAfter_announced {first : Bool} (h : nextAfter parser room first r = .ok (request, r')) :
    ∃ a : Announced parser, a.request = request ∧ r.items = a.wire ++ r'.items := by
  have hw (h : next parser room (fun _ => true) r = .ok (request, r')) :
      ∃ a : Announced parser, a.request = request ∧ r.items = a.wire ++ r'.items := by
    obtain ⟨r'', h, hi⟩ := Respects.whole_of (tame_next parser room).respects h
    obtain ⟨a, rest, ha, hr, rfl⟩ := next_announced h
    exact ⟨a, ha, hi ▸ hr.trans (by rw [Source.items, map_nil, flatten_nil, append_nil])⟩
  simp only [nextAfter, buffered] at h
  split at h
  · split at h
    · exact hw h
    · split at h
      next request' ahead hn =>
        cases h
        obtain ⟨a, rest, ha, hr, rfl⟩ := next_announced hn
        exact ⟨a, ha, by rw [Source.items, hr, append_assoc]; rfl⟩
      next => cases h
      next => exact hw h
  · exact hw h

end Announced

theorem requestsFrom_announced (parser : Httparse) (room : Nat → Bool) (first : Nat → Bool)
    (fuel n : Nat) (r : Reader) :
    ∃ (all : List (Announced parser)) (rest : List UInt8),
      (requestsFrom parser room first fuel n r).1 = all.map Announced.request ∧
        r.items = all.flatMap Announced.wire ++ rest := by
  induction fuel generalizing r n with
  | zero => exact ⟨[], r.items, rfl, rfl⟩
  | succ fuel ih =>
    rw [requestsFrom]
    split
    · exact ⟨[], r.items, rfl, rfl⟩
    next request r' h =>
      obtain ⟨a, rfl, hr⟩ := nextAfter_announced h
      obtain ⟨all, rest, ha, hi⟩ := ih (n + 1) r'
      refine ⟨a :: all, rest, congrArg (a.request :: ·) ha, ?_⟩
      rw [hr, hi, flatMap_cons, append_assoc]

/-! ### None is left out -/

namespace Announced

variable {parser : Httparse} (a : Announced parser) (fu : List UInt8)

theorem headEnd_headBytes : headEnd a.headBytes = some a.headBytes.length :=
  parser.complete_end a.begins a.parsed

theorem passOver_skipped :
    (passOver false (a.skipped ++ a.headBytes ++ fu)).2 = a.headBytes ++ fu := by
  rcases a.skipped_eq with hs | hs
  · rw [hs, nil_append]
    rcases passOver_false_cases (a.headBytes ++ fu) with ⟨rest, hb, -⟩ | hp
    · -- a head does not start with a CR
      have hn := beginsRequest_append fu a.begins a.headEnd_headBytes
      rw [hb] at hn
      exact absurd hn (by simp [beginsNoRequest, isToken])
    · rw [hp]
  · rw [hs]
    rfl

theorem head_whole : Silt.Http.head parser ⟨a.skipped ++ a.headBytes ++ fu, []⟩ =
    .ok (a.head, ⟨fu, []⟩) := by
  have hp : parseHead parser (a.headBytes ++ fu) = .ok (a.head, fu) := by
    rw [parseHead_append fu a.begins (by rw [a.headEnd_headBytes]; rfl), parseHead, a.parsed]
    simp [Nat.not_lt.mpr a.head_le, a.plain, Except.map]
  have hl : lookForHead parser ⟨false, 0⟩ (a.skipped ++ a.headBytes ++ fu) =
      .inl (.ok (a.head, fu)) := by
    rw [(searchInv_start false _).lookForHead_eq, a.passOver_skipped, lookPast,
      beginsRequest_append fu a.begins a.headEnd_headBytes, Bool.and_false, if_neg (by simp),
      headEnd_append a.headEnd_headBytes fu, if_pos (by rfl), hp]
  rw [Silt.Http.head, readOn, hl]

theorem readBody_whole (waits : Bool) :
    ∃ framed, framing a.head = .ok framed ∧
      readBody granted (fun _ => true) waits framed ⟨a.bodyBytes ++ fu, []⟩ =
        .ok (a.body, ⟨fu, []⟩) := by
  have hg : announce (fun _ => true) waits ⟨a.bodyBytes ++ fu, []⟩ =
      .ok ((), ⟨a.bodyBytes ++ fu, []⟩) := announce_apply ..
  rcases a.framed with ⟨hf, hw, hb⟩ | ⟨hf, hw⟩ | ⟨hf, c, hw, hb⟩
  · exact ⟨_, hf, by rw [hw, hb]; rfl⟩
  · refine ⟨_, hf, ?_⟩
    cases hn : a.body.length with
    | zero =>
      rw [hw, length_eq_zero_iff.mp hn]
      rfl
    | succ n =>
      rw [readBody, granted, if_pos rfl, bind_of_ok hg, hw, ← hn, exactly_whole]
      simp
  · refine ⟨_, hf, ?_⟩
    rw [readBody, bind_of_ok hg, ← hw, ← hb]
    exact chunked_whole c (fun _ _ => rfl) fu

theorem next_whole :
    next parser granted (fun _ => true) ⟨a.wire ++ fu, []⟩ = .ok (a.request, ⟨fu, []⟩) := by
  obtain ⟨waits, hw⟩ := a.expects
  obtain ⟨framed, hf, hb⟩ := a.readBody_whole fu waits
  rw [wire, append_assoc, next, bind_of_ok (a.head_whole _),
    bind_of_ok (lift_eq_ok.mpr ⟨hf, rfl⟩), if_pos a.host,
    bind_of_ok (lift_eq_ok.mpr ⟨hw, rfl⟩), bind_of_ok hb]
  rfl

theorem nextAfter_whole {r : Reader} (first : Bool) (h : r.items = a.wire ++ fu) :
    ∃ r', nextAfter parser granted first r = .ok (a.request, r') ∧ r'.items = fu := by
  rw [nextAfter_eq]
  exact Respects.of_whole (tame_next parser granted).respects (h ▸ a.next_whole fu)

theorem wire_pos : 0 < a.wire.length := by
  have hle := headEnd_le a.headEnd_headBytes
  simp only [wire, length_append]
  omega

theorem requestsFrom_whole (first : Nat → Bool) (all : List (Announced parser))
    {fuel n : Nat} {r : Reader} (hr : r.items = all.flatMap wire ++ fu)
    (hf : r.items.length < fuel) :
    all.map request <+: (requestsFrom parser granted first fuel n r).1 := by
  induction all generalizing fuel n r with
  | nil => exact nil_prefix
  | cons a all ih =>
    obtain _ | fuel := fuel
    · omega
    rw [flatMap_cons, append_assoc] at hr
    obtain ⟨r', hn, hi⟩ := a.nextAfter_whole _ (first n) hr
    rw [requestsFrom, hn, map_cons]
    refine (prefix_cons_inj _).mpr (ih hi ?_)
    -- a request takes a byte at least, so the fuel lasts
    have hw := a.wire_pos
    rw [hr, ← hi, length_append] at hf
    omega

end Announced

/-- The requests that a connection hands out are the first that its bytes hold, one behind the
other, however the bytes come and wherever `buffered` is called.  Each is what the parser makes of
the bytes of its head, which names its host and announces a body in one way, and the body that
follows, within the limits.  Where there is room for the bodies, no request is left out. -/
theorem requests_announced (parser : Httparse) (first : Nat → Bool) (r : Reader) :
    (∀ room, ∃ (all : List (Announced parser)) (rest : List UInt8),
      (requests parser room first r).1 = all.map Announced.request ∧
        r.items = all.flatMap Announced.wire ++ rest) ∧
    ∀ (all : List (Announced parser)) (rest : List UInt8),
      r.items = all.flatMap Announced.wire ++ rest →
        all.map Announced.request <+: (requests parser granted first r).1 :=
  ⟨fun _ => requestsFrom_announced .., fun all rest h =>
    Announced.requestsFrom_whole rest first all h (Nat.lt_succ_self _)⟩

/-- An empty line and `getRoot`, which has no body. -/
def getRootSent : Announced knowsGetRoot :=
  ⟨crlf, getRoot, ⟨"GET", "/", 1, [("Host", "a")]⟩, [], [], .inr rfl, by decide, by rfl, by decide,
    by decide, by decide, ⟨false, by rfl⟩, by decide, .inl ⟨by rfl, rfl, rfl⟩⟩

/-- Two requests, cut in the second: both are handed out. -/
theorem requests_announced_getRoot :
    [getRootSent.request, getRootSent.request] <+:
      (requests knowsGetRoot granted (fun _ => false)
        ⟨getRootSent.wire ++ crlf, [⟨getRoot, nofun⟩]⟩).1 :=
  (requests_announced ..).2 [getRootSent, getRootSent] [] (by decide)

end Silt.Http

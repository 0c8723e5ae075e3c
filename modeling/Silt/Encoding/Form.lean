import Mathlib.Data.List.TakeWhile
import Silt.Collections.ListValue
import Silt.Http.Wire

/-!
# Form encoding

Pairs of strings as `application/x-www-form-urlencoded` text and back.  A string is its characters,
its bytes are those of its UTF-8; the percent decoder is a library's and a parameter here.

## Main definitions

* `formEncode`, `formDecode` : the text of pairs, and the pairs of a text.

## Main results

* `form_round_trip` : what is encoded is decoded to the same pairs, and which texts are refused.
-/

namespace Silt.Encoding

open List Collections

/-- The UTF-8 of a string. -/
def asBytes (s : List Char) : List UInt8 := s.flatMap String.utf8EncodeChar

/-- The string of UTF-8. -/
def fromUtf8 (bytes : List UInt8) : Option (List Char) :=
  (String.fromUTF8? ⟨bytes.toArray⟩).map String.toList

inductive DecodeError
  | percent (what : String)
  | utf8

def DecodeError.text : DecodeError → String
  | percent what => what
  | utf8 => "decoded bytes are not valid UTF-8"

inductive EncodingError
  | invalidPercent (message : String)
  | invalidUtf8 (message : String)

def DecodeError.err (place : String) (e : DecodeError) : EncodingError :=
  match e with
  | percent _ => .invalidPercent (place ++ e.text)
  | utf8 => .invalidUtf8 (place ++ e.text)

/-- The value of a hexadecimal digit. -/
def hexValue (byte : UInt8) : Option Nat := Http.hexDigit (Char.ofUInt8 byte)

def isAsciiHexDigit (byte : UInt8) : Bool :=
  (48 ≤ byte && byte ≤ 57) || (97 ≤ byte && byte ≤ 102) || (65 ≤ byte && byte ≤ 70)

/-- Every `%` is followed by two hexadecimal digits; `i` is where the bytes are. -/
def validatePercentSequences (i : Nat) : List UInt8 → Except DecodeError Unit
  | [] => .ok ()
  | byte :: rest =>
    if byte = 37 then
      match rest with
      | h1 :: h2 :: rest =>
        if !isAsciiHexDigit h1 || !isAsciiHexDigit h2 then
          let (c1, c2) := (Char.ofUInt8 h1, Char.ofUInt8 h2)
          .error (.percent s!"invalid percent-escape `%{c1}{c2}` at offset {i}")
        else validatePercentSequences (i + 3) rest
      | _ => .error (.percent s!"truncated percent-escape at offset {i}")
    else validatePercentSequences (i + 1) rest

/-- The digit of half a byte, in upper case. -/
def nibbleToHex (n : UInt8) : Char :=
  if n ≤ 9 then Char.ofUInt8 (48 + n) else Char.ofUInt8 (65 + (n - 10))

/-- Whether a byte stands for itself. -/
def isPlain (c : UInt8) : Bool :=
  (48 ≤ c && c ≤ 57) || (65 ≤ c && c ≤ 90) || (97 ≤ c && c ≤ 122) || [42, 45, 46, 95].contains c

def escapeByte (c : UInt8) : List Char :=
  if c = 32 then ['+']
  else if isPlain c then [Char.ofUInt8 c]
  else ['%', nibbleToHex (c >>> 4), nibbleToHex (c &&& 15)]

def formEscapeComponent (s : List Char) : List Char := (asBytes s).flatMap escapeByte

def plusTranslated (byte : UInt8) : UInt8 := if byte = 43 then 32 else byte

/-- The library's decoder: it decodes each escape that is well formed and passes other bytes. -/
structure PercentDecoder where
  decode : List UInt8 → List UInt8
  nil : decode [] = []
  escape : ∀ {h1 h2 x y} rest, hexValue h1 = some x → hexValue h2 = some y →
    decode (37 :: h1 :: h2 :: rest) = UInt8.ofNat (x * 16 + y) :: decode rest
  other : ∀ {byte} rest, byte ≠ 37 → decode (byte :: rest) = byte :: decode rest

/-- A decoder that passes a malformed escape as it is. -/
def percentDecode : List UInt8 → List UInt8
  | 37 :: h1 :: h2 :: rest =>
    match hexValue h1, hexValue h2 with
    | some x, some y => UInt8.ofNat (x * 16 + y) :: percentDecode rest
    | _, _ => 37 :: percentDecode (h1 :: h2 :: rest)
  | byte :: rest => byte :: percentDecode rest
  | [] => []

instance : Inhabited PercentDecoder where
  default := {
    decode := percentDecode
    nil := by rw [percentDecode]
    escape := fun _ hx hy => by rw [percentDecode, hx, hy]
    other := fun _ h => by rw [percentDecode.eq_2 _ _ fun _ _ _ hbyte => absurd hbyte h] }

/-- The text `out` of `written` pairs, and the rest behind it. -/
def formEncodeFrom (out : List Char) (written : Nat) :
    List (List Char × List Char) → Except Nat (List Char)
  | [] => .ok out
  | (key, value) :: rest =>
    let out := if written > 0 then out ++ ['&'] else out
    let out := out ++ formEscapeComponent key ++ ['='] ++ formEscapeComponent value
    if (asBytes out).length > maxCollectionLen then .error (asBytes out).length
    else formEncodeFrom out (written + 1) rest

def formEncode (pairs : List (List Char × List Char)) : Except Nat (List Char) :=
  formEncodeFrom [] 0 pairs

/-- The parts before and behind the first `=`; all of it, and nothing, without one. -/
def splitOnce (segment : List Char) : List Char × List Char :=
  (segment.takeWhile (· != '='), (segment.dropWhile (· != '=')).tail)

section Decode

variable (d : PercentDecoder)

/-- The swap of `+` for a space is one of ASCII bytes: the bytes stay UTF-8. -/
def formDecodeComponent (s : List Char) : Except DecodeError (List Char) := do
  let translated := (asBytes s).map plusTranslated
  validatePercentSequences 0 translated
  match fromUtf8 (d.decode translated) with
  | some s => .ok s
  | none => .error .utf8

def formDecodeFrom (i : Nat) :
    List (List Char) → Except EncodingError (List (List Char × List Char))
  | [] => .ok []
  | segment :: rest =>
    if segment.isEmpty then formDecodeFrom (i + 1) rest
    else
      match formDecodeComponent d (splitOnce segment).1 with
      | .error e => .error (e.err s!"pair {i}: key: ")
      | .ok key =>
        match formDecodeComponent d (splitOnce segment).2 with
        | .error e => .error (e.err s!"pair {i}: value: ")
        | .ok value => (formDecodeFrom (i + 1) rest).map ((key, value) :: ·)

def formDecode (body : List Char) : Except EncodingError (List (List Char × List Char)) :=
  formDecodeFrom d 0 (body.splitOn '&')

end Decode

/-! ### Escapes -/

/-- The bytes do not start with two hexadecimal digits. -/
def NoDigits (bytes : List UInt8) : Prop :=
  ∀ h1 h2 rest, bytes = h1 :: h2 :: rest → ¬(isAsciiHexDigit h1 ∧ isAsciiHexDigit h2)

/-- Some `%` is not followed by two hexadecimal digits. -/
def Malformed (bytes : List UInt8) : Prop :=
  ∃ before after, bytes = before ++ 37 :: after ∧ NoDigits after

theorem malformed_cons {b : UInt8} {rest : List UInt8} :
    Malformed (b :: rest) ↔ b = 37 ∧ NoDigits rest ∨ Malformed rest := by
  constructor
  · rintro ⟨_ | ⟨first, before⟩, after, h, hno⟩
    · grind
    · exact .inr ⟨before, after, (List.cons.inj h).2, hno⟩
  · rintro (⟨rfl, hno⟩ | ⟨before, after, rfl, hno⟩)
    · exact ⟨[], rest, rfl, hno⟩
    · exact ⟨b :: before, after, rfl, hno⟩

theorem plusTranslated_eq {b : UInt8} : plusTranslated b = 37 ↔ b = 37 := by
  unfold plusTranslated
  split_ifs with h
  · simp [h]
  · rfl

theorem isAsciiHexDigit_plusTranslated (b : UInt8) :
    isAsciiHexDigit (plusTranslated b) = isAsciiHexDigit b := by
  unfold plusTranslated
  split_ifs with h
  · rw [h]
    rfl
  · rfl

theorem ne_of_isAsciiHexDigit {b : UInt8} (h : isAsciiHexDigit b) : b ≠ 37 := by
  rintro rfl
  cases h

theorem validate_other (i : Nat) {b : UInt8} (h : b ≠ 37) (rest : List UInt8) :
    validatePercentSequences i (b :: rest) = validatePercentSequences (i + 1) rest := by
  rw [validatePercentSequences.eq_def]
  exact if_neg h

theorem validate_escape (i : Nat) {h1 h2 : UInt8} (hh1 : isAsciiHexDigit h1)
    (hh2 : isAsciiHexDigit h2) (rest : List UInt8) :
    validatePercentSequences i (37 :: h1 :: h2 :: rest) =
      validatePercentSequences (i + 3) rest := by
  simp [validatePercentSequences, hh1, hh2]

theorem validate_error_iff (i : Nat) (bytes : List UInt8) :
    (∃ e, validatePercentSequences i (bytes.map plusTranslated) = .error e) ↔ Malformed bytes := by
  induction i, bytes using validatePercentSequences.induct with
  | case1 i => simp [validatePercentSequences, Malformed]
  | case2 i h1 h2 rest hb =>
    have hno : NoDigits (h1 :: h2 :: rest) := by
      rintro _ _ _ ⟨⟩ ⟨hh1, hh2⟩
      simp [hh1, hh2] at hb
    have hf : ∃ e, validatePercentSequences i
        ((37 :: h1 :: h2 :: rest).map plusTranslated) = .error e := by
      simp only [map_cons, validatePercentSequences, isAsciiHexDigit_plusTranslated, hb]
      exact ⟨_, rfl⟩
    exact iff_of_true hf (malformed_cons.mpr (.inl ⟨rfl, hno⟩))
  | case3 i h1 h2 rest hg ih =>
    obtain ⟨hh1, hh2⟩ : isAsciiHexDigit h1 ∧ isAsciiHexDigit h2 := by simpa using hg
    have hd : ¬ NoDigits (h1 :: h2 :: rest) := fun hno => hno _ _ _ rfl ⟨hh1, hh2⟩
    rw [malformed_cons, malformed_cons, malformed_cons, ← ih]
    simp only [map_cons, ne_of_isAsciiHexDigit hh1, ne_of_isAsciiHexDigit hh2, hd, false_and,
      and_false, false_or]
    rw [← isAsciiHexDigit_plusTranslated] at hh1 hh2
    exact iff_of_eq (congrArg (∃ e, · = Except.error e) (validate_escape i hh1 hh2 _))
  | case4 i rest hs =>
    have hno : NoDigits rest := fun h1 h2 more hr => absurd hr (hs h1 h2 more)
    have hf : ∃ e, validatePercentSequences i ((37 :: rest).map plusTranslated) = .error e := by
      match rest, hs with
      | [], _ | [_], _ => exact ⟨_, rfl⟩
      | h1 :: h2 :: more, hs => exact absurd rfl (hs h1 h2 more)
    exact iff_of_true hf (malformed_cons.mpr (.inl ⟨rfl, hno⟩))
  | case5 i b rest hby ih =>
    rw [malformed_cons, ← ih, map_cons, validate_other i (mt plusTranslated_eq.mp hby)]
    simp [hby]

/-- The byte of a hexadecimal digit in upper case. -/
def hexByte (n : Fin 16) : UInt8 := UInt8.ofNat (if n.1 ≤ 9 then 48 + n.1 else 55 + n.1)

theorem hexByte_spec :
    ∀ n : Fin 16, isAsciiHexDigit (hexByte n) = true ∧ hexValue (hexByte n) = some n.1 := by
  decide

/-- A byte is escaped as itself or as its two digits, and never as a separator. -/
theorem escapeByte_spec (c : UInt8) :
    '&' ∉ escapeByte c ∧ '=' ∉ escapeByte c ∧
      ((asBytes (escapeByte c)).map plusTranslated = [c] ∧ c ≠ 37 ∨
        ∃ x y : Fin 16, (asBytes (escapeByte c)).map plusTranslated = [37, hexByte x, hexByte y] ∧
          UInt8.ofNat (x.1 * 16 + y.1) = c) := by
  have ha : ∀ n : Fin 256, let c := UInt8.ofFin n
      let x := Fin.ofNat 16 (n.1 / 16)
      let y := Fin.ofNat 16 n.1
      '&' ∉ escapeByte c ∧ '=' ∉ escapeByte c ∧
      ((asBytes (escapeByte c)).map plusTranslated = [c] ∧ c ≠ 37 ∨
        (asBytes (escapeByte c)).map plusTranslated = [37, hexByte x, hexByte y] ∧
          UInt8.ofNat (x.1 * 16 + y.1) = c) := by
    decide +kernel
  obtain ⟨h, h', hs⟩ := ha c.toFin
  exact ⟨h, h', hs.imp_right fun hs => ⟨_, _, hs⟩⟩

/-- Escaped bytes are valid, and decoded to the bytes. -/
theorem escaped_spec (d : PercentDecoder) (bytes : List UInt8) (i : Nat) :
    let translated := (asBytes (bytes.flatMap escapeByte)).map plusTranslated
    validatePercentSequences i translated = .ok () ∧ d.decode translated = bytes := by
  induction bytes generalizing i with
  | nil => exact ⟨rfl, d.nil⟩
  | cons c bytes ih =>
    simp only [flatMap_cons, asBytes, flatMap_append, map_append] at ih ⊢
    rcases (escapeByte_spec c).2.2 with ⟨hs, hne⟩ | ⟨x, y, hs, rfl⟩
    · rw [asBytes] at hs
      rw [hs, singleton_append, validate_other i hne, d.other _ hne, (ih (i + 1)).2]
      exact ⟨(ih (i + 1)).1, rfl⟩
    · obtain ⟨⟨hx, hx'⟩, ⟨hy, hy'⟩⟩ := And.intro (hexByte_spec x) (hexByte_spec y)
      rw [asBytes] at hs
      rw [hs, cons_append, cons_append, singleton_append, validate_escape i hx hy,
        d.escape _ hx' hy', (ih (i + 3)).2]
      exact ⟨(ih (i + 3)).1, rfl⟩

theorem fromUtf8_asBytes (s : List Char) : fromUtf8 (asBytes s) = some s := by
  have hb : (⟨(asBytes s).toArray⟩ : ByteArray) = s.utf8Encode := by
    apply ByteArray.ext
    rw [utf8Encode, data_toByteArray]
    rfl
  rw [fromUtf8, hb, String.fromUTF8?, dif_pos ⟨s, rfl⟩]
  exact congrArg some (String.toList_ofList)

theorem formDecodeComponent_escape (d : PercentDecoder) (s : List Char) :
    formDecodeComponent d (formEscapeComponent s) = .ok s := by
  obtain ⟨hv, hd⟩ := escaped_spec d (asBytes s) 0
  simp only [formDecodeComponent, formEscapeComponent, hv, hd, fromUtf8_asBytes]
  rfl

theorem not_mem_formEscapeComponent (s : List Char) :
    '&' ∉ formEscapeComponent s ∧ '=' ∉ formEscapeComponent s := by
  simp only [formEscapeComponent, mem_flatMap, not_exists, not_and]
  exact ⟨fun c _ => (escapeByte_spec c).1, fun c _ => (escapeByte_spec c).2.1⟩

/-! ### Pairs -/

/-- The segment of a pair. -/
def segmentOf (pair : List Char × List Char) : List Char :=
  formEscapeComponent pair.1 ++ '=' :: formEscapeComponent pair.2

theorem formEncodeFrom_eq {out text : List Char} {written : Nat}
    {pairs : List (List Char × List Char)} (h : formEncodeFrom out (written + 1) pairs = .ok text) :
    text = out ++ pairs.flatMap fun p => '&' :: segmentOf p := by
  induction pairs generalizing out written with
  | nil => simpa [formEncodeFrom, eq_comm] using h
  | cons p pairs ih =>
    rw [formEncodeFrom, if_pos written.succ_pos] at h
    split_ifs at h
    rw [ih h]
    simp [segmentOf]

theorem splitOn_segments (p : List Char × List Char) (pairs : List (List Char × List Char)) :
    (segmentOf p ++ pairs.flatMap fun p => '&' :: segmentOf p).splitOn '&' =
      (p :: pairs).map segmentOf := by
  have hf (p : List Char × List Char) : ∀ c ∈ segmentOf p, (c == '&') = false := by
    intro c hc
    refine beq_false_of_ne ?_
    rintro rfl
    simp [segmentOf, not_mem_formEscapeComponent] at hc
  induction pairs generalizing p with
  | nil => simpa [splitOn] using splitOnP_eq_singleton (hf p)
  | cons next pairs ih =>
    rw [flatMap_cons, cons_append, splitOn,
      splitOnP_append_cons_of_forall_mem (hf p) '&' rfl, ← splitOn, ih]
    rfl

theorem splitOnce_segmentOf (p : List Char × List Char) :
    splitOnce (segmentOf p) = (formEscapeComponent p.1, formEscapeComponent p.2) := by
  have hk : ∀ c ∈ formEscapeComponent p.1, (c != '=') = true := by
    intro c hc
    refine bne_iff_ne.mpr ?_
    rintro rfl
    exact (not_mem_formEscapeComponent p.1).2 hc
  simp [splitOnce, segmentOf, takeWhile_append_of_pos hk, dropWhile_append_of_pos hk]

theorem formDecodeFrom_segments (d : PercentDecoder) (i : Nat)
    (pairs : List (List Char × List Char)) :
    formDecodeFrom d i (pairs.map segmentOf) = .ok pairs := by
  induction pairs generalizing i with
  | nil => rfl
  | cons p pairs ih =>
    have hne : (segmentOf p).isEmpty = false := by simp [segmentOf]
    simp [formDecodeFrom, hne, splitOnce_segmentOf, formDecodeComponent_escape, ih, Except.map]

theorem formDecode_formEncode (d : PercentDecoder) {pairs : List (List Char × List Char)}
    {text : List Char} (h : formEncode pairs = .ok text) : formDecode d text = .ok pairs := by
  cases pairs with
  | nil =>
    cases h
    rfl
  | cons p pairs =>
    rw [formEncode, formEncodeFrom, if_neg (lt_irrefl 0)] at h
    split_ifs at h
    have ht : text = segmentOf p ++ pairs.flatMap fun p => '&' :: segmentOf p := by
      simpa [segmentOf] using formEncodeFrom_eq h
    rw [formDecode, ht, splitOn_segments, formDecodeFrom_segments]

/-! ### Texts that are refused -/

/-- The keys and values of a text, as they are written. -/
def components (segments : List (List Char)) : List (List Char) :=
  (segments.filter fun segment => !segment.isEmpty).flatMap fun segment =>
    [(splitOnce segment).1, (splitOnce segment).2]

/-- The component is not the escape of a string. -/
def Refused (d : PercentDecoder) (component : List Char) : Prop :=
  Malformed (asBytes component) ∨
    fromUtf8 (d.decode ((asBytes component).map plusTranslated)) = none

theorem formDecodeComponent_error_iff (d : PercentDecoder) (s : List Char) :
    (∃ e, formDecodeComponent d s = .error e) ↔ Refused d s := by
  have hv := validate_error_iff 0 (asBytes s)
  rw [Refused, ← hv, formDecodeComponent]
  cases validatePercentSequences 0 ((asBytes s).map plusTranslated) with
  | error e => exact iff_of_true ⟨e, rfl⟩ (.inl ⟨e, rfl⟩)
  | ok =>
    cases hu : fromUtf8 (d.decode ((asBytes s).map plusTranslated)) with
    | none => exact iff_of_true ⟨_, rfl⟩ (.inr rfl)
    | some text => simp [bind, Except.bind]

theorem formDecodeFrom_error_iff (d : PercentDecoder) (i : Nat) (segments : List (List Char)) :
    (∃ e, formDecodeFrom d i segments = .error e) ↔
      ∃ component ∈ components segments, Refused d component := by
  induction segments generalizing i with
  | nil => simp [formDecodeFrom, components]
  | cons segment segments ih =>
    by_cases he : segment.isEmpty
    · simpa [formDecodeFrom, components, he] using ih (i + 1)
    · have hc : components (segment :: segments) =
          (splitOnce segment).1 :: (splitOnce segment).2 :: components segments := by
        simp [components, he]
      simp only [formDecodeFrom, if_neg he, hc, mem_cons, exists_eq_or_imp]
      rw [← formDecodeComponent_error_iff, ← formDecodeComponent_error_iff, ← ih (i + 1)]
      cases formDecodeComponent d (splitOnce segment).1 with
      | error e => simp
      | ok key =>
        cases formDecodeComponent d (splitOnce segment).2 with
        | error e => simp
        | ok value => cases formDecodeFrom d (i + 1) segments <;> simp [Except.map]

/-- What is encoded is decoded to the same pairs, and a text is refused exactly where a key or a
value has a `%` without two hexadecimal digits behind it or is decoded to no UTF-8. -/
theorem form_round_trip (d : PercentDecoder) :
    (∀ pairs text, formEncode pairs = .ok text → formDecode d text = .ok pairs) ∧
    ∀ body, (∃ e, formDecode d body = .error e) ↔
      ∃ component ∈ components (body.splitOn '&'), Refused d component :=
  ⟨fun _ _ h => formDecode_formEncode d h, fun body =>
    formDecodeFrom_error_iff d 0 (body.splitOn '&')⟩

end Silt.Encoding

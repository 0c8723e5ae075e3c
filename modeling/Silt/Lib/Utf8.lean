import Mathlib.Data.List.Basic

/-!
# Text and bytes in UTF-8

The bytes of a text, and a text for any bytes: what is no UTF-8 in them is replaced, with one
U+FFFD for as many bytes as a character could start with.

## Main results

* `toStringLossy_utf8` : the bytes of a text give the text.
* `utf8_toStringLossy_iff` : the bytes that are kept are those of a text.
-/

namespace Silt

open List

/-- The bytes of a text. -/
def utf8 (s : String) : List UInt8 := s.toByteArray.data.toList

/-- The character that the bytes start with. -/
def firstChar? (bytes : List UInt8) : Option Char :=
  ByteArray.utf8DecodeChar? ⟨bytes.toArray⟩ 0

/-- Between which bytes each byte of a character behind its first has to be. -/
def continuations (first : UInt8) : List (UInt8 × UInt8) :=
  if first < 0xC2 then []
  else if first < 0xE0 then [(0x80, 0xBF)]
  else if first = 0xE0 then [(0xA0, 0xBF), (0x80, 0xBF)]
  else if first = 0xED then [(0x80, 0x9F), (0x80, 0xBF)]
  else if first < 0xF0 then [(0x80, 0xBF), (0x80, 0xBF)]
  else if first = 0xF0 then [(0x90, 0xBF), (0x80, 0xBF), (0x80, 0xBF)]
  else if first < 0xF4 then [(0x80, 0xBF), (0x80, 0xBF), (0x80, 0xBF)]
  else if first = 0xF4 then [(0x80, 0x8F), (0x80, 0xBF), (0x80, 0xBF)]
  else []

/-- What is left behind the bytes that a character could go on with. -/
def dropContinuations : List (UInt8 × UInt8) → List UInt8 → List UInt8
  | (least, greatest) :: ranges, byte :: rest =>
    if least ≤ byte && byte ≤ greatest then dropContinuations ranges rest else byte :: rest
  | _, rest => rest

def lossyFrom : Nat → List UInt8 → List Char
  | fuel + 1, byte :: rest =>
    match firstChar? (byte :: rest) with
    | some c => c :: lossyFrom fuel ((byte :: rest).drop c.utf8Size)
    | none => '�' :: lossyFrom fuel (dropContinuations (continuations byte) rest)
  | _, _ => []

/-- The text of the bytes, with what is no UTF-8 replaced. -/
def toStringLossy (bytes : List UInt8) : String := String.ofList (lossyFrom bytes.length bytes)

theorem utf8_ofList (cs : List Char) :
    utf8 (String.ofList cs) = cs.flatMap String.utf8EncodeChar := by
  rw [utf8, String.toByteArray_ofList, List.utf8Encode, List.data_toByteArray]

theorem firstChar?_append (c : Char) (rest : List UInt8) :
    firstChar? (String.utf8EncodeChar c ++ rest) = some c := by
  have h : (⟨(String.utf8EncodeChar c ++ rest).toArray⟩ : ByteArray) =
      (String.utf8EncodeChar c).toByteArray ++ rest.toByteArray := by
    apply ByteArray.ext
    simp [List.data_toByteArray]
  rw [firstChar?, h, ByteArray.utf8DecodeChar?_utf8EncodeChar_append]

theorem lossyFrom_flatMap (cs : List Char) {fuel : Nat}
    (h : (cs.flatMap String.utf8EncodeChar).length ≤ fuel) :
    lossyFrom fuel (cs.flatMap String.utf8EncodeChar) = cs := by
  induction cs generalizing fuel with
  | nil => cases fuel <;> rfl
  | cons c cs ih =>
    have hl := String.length_utf8EncodeChar c
    have hpos := Char.utf8Size_pos c
    have hf := firstChar?_append c (cs.flatMap String.utf8EncodeChar)
    rw [flatMap_cons, length_append] at h
    obtain ⟨fuel, rfl⟩ : ∃ n, fuel = n + 1 := ⟨fuel - 1, by omega⟩
    obtain ⟨byte, rest, hb⟩ : ∃ byte rest, String.utf8EncodeChar c = byte :: rest :=
      exists_cons_of_length_pos (by omega)
    rw [hb, cons_append] at hf
    rw [flatMap_cons, hb, cons_append, lossyFrom, hf]
    dsimp only
    rw [← cons_append, ← hb, drop_left' hl, ih (by omega)]

theorem toStringLossy_utf8 (s : String) : toStringLossy (utf8 s) = s := by
  obtain ⟨cs, rfl⟩ : ∃ cs, s = String.ofList cs := ⟨s.toList, String.ofList_toList.symm⟩
  rw [toStringLossy, utf8_ofList, lossyFrom_flatMap cs (Nat.le_refl _)]

theorem utf8_toStringLossy_iff (bytes : List UInt8) :
    utf8 (toStringLossy bytes) = bytes ↔ ∃ s, utf8 s = bytes := by
  refine ⟨fun h => ⟨_, h⟩, ?_⟩
  rintro ⟨s, rfl⟩
  rw [toStringLossy_utf8]

example : toStringLossy [97, 0xE2, 0x82, 98, 0xFF] = "a�b�" := by decide

end Silt

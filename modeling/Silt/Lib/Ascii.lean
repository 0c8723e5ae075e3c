import Mathlib.Data.List.Basic

/-!
# Text and bytes in ASCII

Bytes below 128 and the characters of the same numbers: the UTF-8 of such text is one byte for each
character, and such bytes are the UTF-8 of their text.

## Main results

* `Ascii.fromUTF8?_eq` : the text of bytes below 128.
* `Ascii.bytes_of_fromUTF8?` : the bytes of a text of characters below 128.
-/

namespace Silt.Ascii

/-- The characters of bytes. -/
def text (bytes : List UInt8) : List Char := bytes.map Char.ofUInt8

/-- All bytes are below 128. -/
def Plain (bytes : List UInt8) : Prop := ∀ byte ∈ bytes, byte < 128

theorem text_append (bytes bytes' : List UInt8) :
    text (bytes ++ bytes') = text bytes ++ text bytes' :=
  List.map_append

theorem utf8EncodeChar_ofUInt8 {b : UInt8} (h : b < 128) :
    String.utf8EncodeChar (Char.ofUInt8 b) = [b] := by
  have hv : (Char.ofUInt8 b).val.toNat = b.toNat := rfl
  have hle : b.toNat ≤ 127 := Nat.le_of_lt_succ (UInt8.lt_iff_toNat_lt.mp h)
  simp only [String.utf8EncodeChar, hv, if_pos hle, UInt8.ofNat_toNat]

theorem exists_byte {c : Char} (h : c.toNat < 128) : ∃ b : UInt8, b < 128 ∧ Char.ofUInt8 b = c := by
  have hn : (UInt8.ofNat c.toNat).toNat = c.toNat := by
    rw [UInt8.toNat_ofNat']
    omega
  refine ⟨UInt8.ofNat c.toNat, ?_, ?_⟩
  · rw [UInt8.lt_iff_toNat_lt, hn]
    exact h
  · apply Char.ext
    apply UInt32.toNat_inj.mp
    exact hn

theorem exists_bytes {cs : List Char} (h : ∀ c ∈ cs, c.toNat < 128) :
    ∃ bytes, Plain bytes ∧ text bytes = cs := by
  induction cs with
  | nil => exact ⟨[], nofun, rfl⟩
  | cons c cs ih =>
    obtain ⟨b, hby, rfl⟩ := exists_byte (h c List.mem_cons_self)
    obtain ⟨bytes, hb, rfl⟩ := ih fun c hc => h c (List.mem_cons_of_mem _ hc)
    exact ⟨b :: bytes, List.forall_mem_cons.mpr ⟨hby, hb⟩, rfl⟩

theorem flatMap_utf8EncodeChar {bytes : List UInt8} (h : Plain bytes) :
    (text bytes).flatMap String.utf8EncodeChar = bytes := by
  induction bytes with
  | nil => rfl
  | cons b bytes ih =>
    obtain ⟨hby, hb⟩ := List.forall_mem_cons.mp h
    rw [text, List.map_cons, List.flatMap_cons, utf8EncodeChar_ofUInt8 hby]
    exact congrArg (b :: ·) (ih hb)

theorem utf8Encode_text {bytes : List UInt8} (h : Plain bytes) :
    (text bytes).utf8Encode = ⟨bytes.toArray⟩ := by
  rw [List.utf8Encode, flatMap_utf8EncodeChar h]
  apply ByteArray.ext
  rw [List.data_toByteArray]

theorem fromUTF8?_eq {bytes : List UInt8} (h : Plain bytes) :
    String.fromUTF8? ⟨bytes.toArray⟩ = some (String.ofList (text bytes)) := by
  have hv : ByteArray.IsValidUTF8 ⟨bytes.toArray⟩ := ⟨text bytes, (utf8Encode_text h).symm⟩
  rw [String.fromUTF8?, dif_pos hv]
  refine congrArg some (String.toByteArray_inj.mp ?_)
  rw [String.toByteArray_ofList, utf8Encode_text h]
  rfl

theorem bytes_of_fromUTF8? {bytes ascii : List UInt8} {s : String}
    (h : String.fromUTF8? ⟨bytes.toArray⟩ = some s) (ha : Plain ascii)
    (hs : s.toList = text ascii) : bytes = ascii := by
  have hs' : s = String.ofList (text ascii) := by rw [← hs, String.ofList_toList]
  have hb : s.toByteArray = ⟨bytes.toArray⟩ := by
    rw [String.fromUTF8?] at h
    split at h
    · cases h
      rfl
    · cases h
  rw [hs', String.toByteArray_ofList, utf8Encode_text ha] at hb
  exact (congrArg (fun array : ByteArray => array.data.toList) hb).symm

end Silt.Ascii

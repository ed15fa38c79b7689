import Mathlib
import Endmark.Text.Utf8

/-!
# Texts from their bytes

A text is read back from its bytes.  Bytes of which each is an ASCII character are a text with one
character for each.  Where a byte is no continuation of a character, the bytes can be cut.
-/

namespace Endmark.Text

open String
open List

theorem bytes_ofList (cs : List Char) :
  bytes (ofList cs) = cs.flatMap utf8EncodeChar
  := by
  rw [bytes, toUTF8, toByteArray_ofList, utf8Encode, data_toByteArray]

theorem ofBytes_bytes :
  ofBytes (bytes s) = s
  := by
  have hvalid : (ByteArray.mk (bytes s).toArray).IsValidUTF8 := s.isValidUTF8
  rw [ofBytes, ofBytes?, fromUTF8?, dif_pos hvalid]
  rfl

theorem ofBytes_flatMap :
  ofBytes (cs.flatMap utf8EncodeChar) = ofList cs
  := by
  rw [← bytes_ofList, ofBytes_bytes]

theorem length_bytes_ofBytes_le :
  (bytes (ofBytes b)).length ≤ b.length
  := by
  rw [ofBytes, ofBytes?, fromUTF8?]
  split
  · exact le_refl _
  · exact Nat.zero_le _

/-- The character of an ASCII byte. -/
def char (b : UInt8) : Char :=
  Char.ofNat b.toNat

theorem utf8EncodeChar_char (h : b < 0x80) :
  utf8EncodeChar (char b) = [b]
  := by
  have hall : ∀ b : UInt8, b < 0x80 → utf8EncodeChar (char b) = [b] := by decide +kernel
  exact hall b h

/-- An ASCII byte is found in its own character only. -/
theorem eq_of_mem_utf8EncodeChar (hb : b < 0x80) (h : b ∈ utf8EncodeChar c) :
  c = char b
  := by
  have hb : b.toNat < 128 := hb
  have hc : c.val.toNat = b.toNat := by
    unfold utf8EncodeChar at h
    simp only at h
    split at h
    · simp [← UInt8.toNat_inj] at *
      omega
    split at h
    · simp [← UInt8.toNat_inj] at h
      omega
    split at h <;> simp [← UInt8.toNat_inj] at h <;> omega
  rw [char, ← hc]
  exact (Char.ofNat_toNat c).symm

/-- ASCII bytes spell their characters. -/
theorem ofBytes_ascii (h : ∀ x ∈ b, x < 0x80) :
  ofBytes b = ofList (b.map char)
  := by
  have hencode : (b.map char).flatMap utf8EncodeChar = b := by
    induction b with
    | nil => rfl
    | cons x b ih =>
      rw [map_cons, flatMap_cons, utf8EncodeChar_char (h x mem_cons_self),
        ih fun y hy => h y (mem_cons_of_mem _ hy), singleton_append]
  rw [← ofBytes_flatMap, hencode]

end Endmark.Text

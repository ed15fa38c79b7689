import Mathlib
import Endmark.Machine.Decoding

/-!
# The bytes of integers

An integer that fits in a field is read back from its bytes.
-/

namespace Endmark.Number

@[simp]
theorem length_littleEndian :
  (littleEndian count n).length = count
  := by
  induction count generalizing n with
  | zero => rfl
  | succ count ih => rw [littleEndian, List.length_cons, ih]

@[simp]
theorem length_littleEndianInt :
  (littleEndianInt count n).length = count
  := length_littleEndian

theorem ofLittleEndian_littleEndian :
  ofLittleEndian (littleEndian count n) = n % 256 ^ count
  := by
  induction count generalizing n with
  | zero => rw [littleEndian, ofLittleEndian, pow_zero, Nat.mod_one]
  | succ count ih =>
    rw [littleEndian, ofLittleEndian, ih, pow_succ', Nat.mod_mul]
    rfl

theorem fitsSigned_iff :
  fitsSigned bits n ↔ -2 ^ (bits - 1) ≤ n ∧ n < 2 ^ (bits - 1)
  := by
  simp [fitsSigned, and_comm]

theorem ofLittleEndian_littleEndianInt :
  (ofLittleEndian (littleEndianInt count n) : Int) = n % 256 ^ count
  := by
  have hpos : (0 : Int) < 256 ^ count := by positivity
  have hmod : ((n % .ofNat (.pow 256 count)).toNat : Int) = n % 256 ^ count := by
    apply Int.toNat_of_nonneg (Int.emod_nonneg _ hpos.ne')
  rw [littleEndianInt, ofLittleEndian_littleEndian, Int.natCast_emod, hmod]
  apply Int.emod_emod

/-- An integer that fits is read back from its bytes. -/
theorem signed_littleEndianInt (hcount : 0 < count) (h : fitsSigned (8 * count) n) :
  Machine.Decoding.signed (littleEndianInt count n) = n
  := by
  have hpow : ((.pow 256 count : Nat) : Int) = 2 * 2 ^ (8 * count - 1) := by
    rw [← pow_succ', show 8 * count - 1 + 1 = 8 * count by omega, pow_mul]
    norm_num
  rw [fitsSigned_iff] at h
  rw [Machine.Decoding.signed, length_littleEndianInt, ofLittleEndian_littleEndianInt,
    show (256 : Int) ^ count = (.pow 256 count : Nat) by simp, Int.emod_bmod]
  apply Int.bmod_eq_of_le
  · omega
  · omega

end Endmark.Number

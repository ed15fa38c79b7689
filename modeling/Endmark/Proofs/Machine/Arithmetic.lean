import Mathlib
import Endmark.Machine.Step

/-!
# Conditions after comparisons

After a comparison the conditions for signed numbers say how the numbers compare, after bitwise
operations how the result compares with zero, and the bit that a condition leaves in a register
is its truth value.
-/

namespace Endmark.Machine

theorem isNegative_eq_msb :
  isNegative v = v.toBitVec.msb
  := by
  have := v.toNat_lt
  rw [isNegative, BitVec.msb_eq_decide, Bool.eq_iff_iff, beq_iff_eq, ← UInt64.toNat_inj]
  simp
  omega

theorem isNegative_eq_decide (v : UInt64) :
  isNegative v = decide (v.toInt64.toInt < 0)
  := by
  rw [isNegative_eq_msb, BitVec.msb_eq_toInt]
  rfl

theorem isNegative_xor (a b : UInt64) :
  isNegative (a ^^^ b) = (isNegative a ^^ isNegative b)
  := by
  simp [isNegative_eq_msb]

theorem isNegative_and :
  isNegative (a &&& b) = (isNegative a && isNegative b)
  := by
  simp [isNegative_eq_msb]

theorem zero_ofSub :
  (Flags.ofSub a b).zero = decide (a = b)
  := by
  have hzero : (Flags.ofSub a b).zero = (a - b == 0) := rfl
  rw [hzero, Bool.eq_iff_iff, decide_eq_true_iff, beq_iff_eq, sub_eq_zero]

/-- The sign of a difference in two's complement is that of the exact one unless it overflows, and
then it is the other one. -/
theorem sign_bne_overflow (hx : -2 ^ 63 ≤ x ∧ x < 2 ^ 63)
    (hy : -2 ^ 63 ≤ y ∧ y < 2 ^ 63) (hd : d = (x - y).bmod (2 ^ 64)) :
  (decide (d < 0) !=
    ((decide (x < 0) ^^ decide (y < 0)) && (decide (x < 0) ^^ decide (d < 0)))) = decide (x < y)
  := by
  have hnear : -2 ^ 63 ≤ d ∧ d < 2 ^ 63 ∧
      (d = x - y ∨ d = x - y + 2 ^ 64 ∨ d = x - y - 2 ^ 64) := by
    rw [Int.bmod_def] at hd
    split at hd <;> omega
  by_cases hxneg : x < 0 <;> by_cases hyneg : y < 0 <;> by_cases hdneg : d < 0 <;>
    by_cases hxy : x < y <;> simp [hyneg, hdneg] <;> omega

theorem sign_bne_overflow_ofSub (a b : UInt64) :
  ((Flags.ofSub a b).sign != (Flags.ofSub a b).overflow) = decide (a.toInt64 < b.toInt64)
  := by
  have hsign : (Flags.ofSub a b).sign = isNegative (a - b) := rfl
  have hoverflow : (Flags.ofSub a b).overflow = isNegative ((a ^^^ b) &&& (a ^^^ (a - b))) := rfl
  rw [hsign, hoverflow, isNegative_and, isNegative_xor, isNegative_xor]
  simp only [isNegative_eq_decide, Int64.lt_iff_toInt_lt]
  exact sign_bne_overflow ⟨Int64.le_toInt _, Int64.toInt_lt _⟩ ⟨Int64.le_toInt _, Int64.toInt_lt _⟩
    (Int64.toInt_sub a.toInt64 b.toInt64)

/-- What conditions say after a comparison of signed numbers. -/
theorem holds_ofSub (a b : Int64) :
  Cond.holds (.ofSub a.toUInt64 b.toUInt64) .e = decide (a = b) ∧
  Cond.holds (.ofSub a.toUInt64 b.toUInt64) .ne = decide (a ≠ b) ∧
  Cond.holds (.ofSub a.toUInt64 b.toUInt64) .l = decide (a < b) ∧
  Cond.holds (.ofSub a.toUInt64 b.toUInt64) .le = decide (a ≤ b) ∧
  Cond.holds (.ofSub a.toUInt64 b.toUInt64) .g = decide (b < a) ∧
  Cond.holds (.ofSub a.toUInt64 b.toUInt64) .ge = decide (b ≤ a)
  := by
  have hzero : (Flags.ofSub a.toUInt64 b.toUInt64).zero = decide (a = b) := by
    rw [zero_ofSub, decide_eq_decide]
    exact ⟨fun h => congrArg UInt64.toInt64 h, congrArg Int64.toUInt64⟩
  have hless := sign_bne_overflow_ofSub a.toUInt64 b.toUInt64
  simp only [Int64.toInt64_toUInt64] at hless
  have hgreater : decide (b ≤ a) = !decide (a < b) := by
    rw [← decide_not, decide_eq_decide, Int64.not_lt]
  have hle : decide (a ≤ b) = (decide (a = b) || decide (a < b)) := by
    rw [← Bool.decide_or, decide_eq_decide, Int64.le_iff_lt_or_eq, or_comm]
  have hlt : decide (b < a) = !decide (a ≤ b) := by
    rw [← decide_not, decide_eq_decide, Int64.not_le]
  rw [hgreater, hlt, hle, decide_not, ← hzero, ← hless]
  exact ⟨rfl, rfl, rfl, rfl, Cond.holds_negate _ .le, Cond.holds_negate _ .l⟩

/-- What conditions say of a word that a bitwise operation gives. -/
theorem holds_ofBits (v : UInt64) :
  Cond.holds (.ofBits v) .e = decide (v = 0) ∧
  Cond.holds (.ofBits v) .s = decide (v.toInt64.toInt < 0) ∧
  Cond.holds (.ofBits v) .ns = !decide (v.toInt64.toInt < 0) ∧
  Cond.holds (.ofBits v) .g = decide (0 < v.toInt64)
  := by
  have hzero : v.toInt64.toInt = 0 ↔ v = 0 := by
    rw [← Int64.toInt_zero, Int64.toInt_inj]
    exact ⟨congrArg Int64.toUInt64, congrArg UInt64.toInt64⟩
  have hgreater : Cond.holds (.ofBits v) .g = (!(v == 0) && isNegative v == false) := rfl
  rw [hgreater, ← isNegative_eq_decide]
  refine ⟨Bool.beq_eq_decide_eq v 0, rfl, rfl, ?_⟩
  rw [isNegative_eq_decide, Bool.eq_iff_iff, decide_eq_true_iff, Int64.lt_iff_toInt_lt,
    Int64.toInt_zero]
  simp only [Bool.and_eq_true, Bool.not_eq_true', beq_eq_false_iff_ne, ne_eq, ← hzero, beq_iff_eq,
    decide_eq_false_iff_not]
  omega

/-- After a test of a word, it is shown whether it is zero. -/
theorem holds_and_self (v : UInt64) :
  Cond.holds (.ofBits (v &&& v)) .e = decide (v = 0)
  := by
  rw [UInt64.and_self, (holds_ofBits v).1]

theorem holds_tested (a : Int64) :
  Cond.holds (.ofBits (a.toUInt64 &&& a.toUInt64)) .e = decide (a = 0)
  := by
  rw [holds_and_self, decide_eq_decide]
  exact ⟨fun h => congrArg UInt64.toInt64 h, congrArg Int64.toUInt64⟩

/-- Of a register whose lowest byte is the bit of a condition, that byte is the truth value. -/
theorem lowByte_toUInt64 {b : Bool} :
  ((v &&& (0xFF : UInt64).complement) ||| b.toUInt64).toUInt8.toUInt64 = b.toUInt64
  := by
  have hlow : (v &&& (0xFF : UInt64).complement).toUInt8 = 0 := by
    rw [UInt64.toUInt8_and]
    apply UInt8.and_zero
  rw [UInt64.toUInt8_or, hlow]
  cases b <;> rfl

end Endmark.Machine

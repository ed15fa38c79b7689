import Endmark.Proofs.Code.Operation
import Endmark.Routine.Numbers

/-!
# Powers

The routine for powers of integers squares the base and halves the exponent.  What is still to be
multiplied stays the same from round to round, up to a multiple of two to the 64.
-/

namespace Endmark.Routine

open Machine (Reg State Memory Ram Cond Goes stands_part holds_ofBits holds_and_self)
open Machine.Memory (loadWord?)
open Code.Frame (Leaves leaves_set)

theorem toNat_shiftRight_one {e : UInt64} :
  (e >>> 1).toNat = e.toNat / 2
  := (UInt64.toNat_shiftRight e 1).trans (Nat.shiftRight_eq_div_pow _ 1)

theorem mul_pow_shiftRight {b e : UInt64} :
  (if e &&& 1 = 0 then p else p * b) * (b * b) ^ (e >>> 1).toNat = p * b ^ e.toNat
  := by
  have hodd : e &&& 1 = 0 ↔ e.toNat % 2 = 0 := by
    rw [← UInt64.toNat_inj, UInt64.toNat_and]
    exact Nat.and_one_is_mod e.toNat ▸ Iff.rfl
  rw [toNat_shiftRight_one, ← pow_two, ← pow_mul]
  split
  next h => rw [Nat.mul_div_cancel' (Nat.dvd_of_mod_eq_zero (hodd.mp h))]
  next h =>
    rw [mul_assoc, ← pow_succ', Nat.two_mul_div_two_add_one_of_odd]
    exact Nat.odd_iff.mpr (Nat.mod_two_ne_zero.mp (mt hodd.mpr h))

variable [Memory μ] {s : State μ}

/-- What the rounds from here on come to. -/
def pending (s : State μ) : UInt64 :=
  s.get .rax * s.get .rdi ^ (s.get .rsi).toNat

/-- Only the registers that the routine works with may differ, and flags. -/
abbrev Worked : State μ → State μ → Prop :=
  Leaves [.rax, .rcx, .rdi, .rsi]

/-- The lowest bit of the exponent says whether the base is a factor. -/
theorem exists_multiplied (place : String → UInt64) (h : s.get .rsi ≠ 0) :
  ∃ s', Goes place powInt ⟨5, s⟩ ⟨11, s'⟩ ∧
    s'.get .rax = (if s.get .rsi &&& 1 = 0 then s.get .rax else s.get .rax * s.get .rdi) ∧
    s'.get .rdi = s.get .rdi ∧ s'.get .rsi = s.get .rsi ∧ Worked s s'
  := by
  have htest : Goes place powInt ⟨5, s⟩ ⟨6, _⟩ := .straight (stands_part 5 1) rfl
  have hmore := htest.trans (Goes.pass (stands_part 6 1)
    ((holds_and_self _).trans (decide_eq_false h)))
  have hbit := hmore.trans (Goes.straight (stands_part 7 2) rfl)
  have hflags : Cond.holds (.ofBits (s.get .rsi &&& 1)) .e = decide (s.get .rsi &&& 1 = 0) :=
    Bool.beq_eq_decide_eq _ _
  by_cases heven : s.get .rsi &&& 1 = 0
  · refine ⟨_, hbit.trans (Goes.branch (stands_part 9 1) ?_ rfl), ?_, rfl, rfl, ?_, rfl, rfl⟩
    · exact hflags.trans (decide_eq_true heven)
    · rw [if_pos heven]
      rfl
    · intro r hr
      cases r <;> first | rfl | contradiction
  · have hodd := hbit.trans (Goes.pass (stands_part 9 1) (hflags.trans (decide_eq_false heven)))
    refine ⟨_, hodd.trans (Goes.straight (stands_part 10 1) rfl), ?_, rfl, rfl, ?_, rfl, rfl⟩
    · rw [if_neg heven]
      rfl
    · intro r hr
      cases r <;> first | rfl | contradiction

/-- Then the base is squared and the exponent halved. -/
theorem exists_squared (s : State μ) :
  ∃ s', Goes place powInt ⟨11, s⟩ ⟨5, s'⟩ ∧ s'.get .rax = s.get .rax ∧
    s'.get .rdi = s.get .rdi * s.get .rdi ∧ s'.get .rsi = s.get .rsi >>> 1 ∧ Worked s s'
  := by
  have hsquare : Goes place powInt ⟨11, s⟩ ⟨14, _⟩ := .straight (stands_part 11 3) rfl
  have hback := hsquare.trans (Goes.jump (stands_part 14 1) rfl)
  refine ⟨_, hback.trans (Goes.straight (stands_part 4 1) rfl), rfl, rfl, rfl, ?_, rfl, rfl⟩
  intro r hr
  cases r <;> first | rfl | contradiction

/-- A round halves the exponent and keeps what it comes to. -/
theorem exists_round (h : s.get .rsi ≠ 0) :
  ∃ s', Goes place powInt ⟨5, s⟩ ⟨5, s'⟩ ∧ s'.get .rsi = s.get .rsi >>> 1 ∧
    pending s' = pending s ∧ Worked s s'
  := by
  obtain ⟨s₁, hs₁, hrax₁, hrdi₁, hrsi₁, hworked₁⟩ := exists_multiplied place h
  obtain ⟨s₂, hs₂, hrax₂, hrdi₂, hrsi₂, hworked₂⟩ := exists_squared s₁
  rw [hrsi₁] at hrsi₂
  refine ⟨s₂, hs₁.trans hs₂, hrsi₂, ?_, hworked₁.trans hworked₂⟩
  rw [pending, hrax₂, hrdi₂, hrsi₂, hrax₁, hrdi₁, mul_pow_shiftRight, pending]

/-- The rounds come to the power. -/
theorem exists_done (place : String → UInt64) (s : State μ) :
  ∃ s', Goes place powInt ⟨5, s⟩ ⟨16, s'⟩ ∧ s'.get .rax = pending s ∧ Worked s s'
  := by
  induction hn : (s.get .rsi).toNat using Nat.strong_induction_on generalizing s with
  | h n ih =>
    by_cases h : s.get .rsi = 0
    · have htest : Goes place powInt ⟨5, s⟩ ⟨6, _⟩ := .straight (stands_part 5 1) rfl
      have hlabel (t : State μ) : Goes place powInt ⟨15, t⟩ ⟨16, t⟩ :=
        .straight (stands_part 15 1) rfl
      refine ⟨_, (htest.trans (Goes.branch (stands_part 6 1) ?_ rfl)).trans (hlabel _), ?_, ?_⟩
      · exact (holds_and_self _).trans (decide_eq_true h)
      · rw [pending, h, UInt64.toNat_zero, pow_zero, mul_one]
        rfl
      · exact ⟨fun _ _ => rfl, rfl, rfl⟩
    · obtain ⟨s₁, hs₁, hrsi, hpending, hleaves⟩ := exists_round h
      have hless : (s₁.get .rsi).toNat < n := by
        have hne : (s.get .rsi).toNat ≠ (0 : UInt64).toNat := mt UInt64.toNat_inj.mp h
        rw [hrsi, toNat_shiftRight_one, ← hn]
        exact Nat.div_lt_self (Nat.pos_of_ne_zero hne) Nat.one_lt_two
      obtain ⟨s', hs', hrax, hleaves'⟩ := ih _ hless s₁ rfl
      exact ⟨s', hs₁.trans hs', hrax.trans hpending, hleaves.trans hleaves'⟩

/-- What 64 bits hold of a power of integers, or zero if the exponent is negative. -/
def power (b e : Int64) : Int64 :=
  if e.toInt < 0 then 0 else .ofInt (b.toInt ^ e.toInt.toNat)

theorem toUInt64_ofInt_pow {b : Int64} :
  (Int64.ofInt (b.toInt ^ n)).toUInt64 = b.toUInt64 ^ n
  := by
  induction n with
  | zero =>
    rw [pow_zero, pow_zero]
    rfl
  | succ n ih =>
    rw [pow_succ, pow_succ, Int64.ofInt_mul, Int64.ofInt_toInt, Int64.toUInt64_mul, ih]

/-- The power is in `rax` when the routine comes to a return. -/
theorem exists_power (place : String → UInt64) (hb : s.get .rdi = b.toUInt64)
    (he : s.get .rsi = e.toUInt64) :
  ∃ pc s', Goes place powInt ⟨0, s⟩ ⟨pc, s'⟩ ∧ powInt[pc]? = some .ret ∧
    s'.get .rax = (power b e).toUInt64 ∧ Worked s s'
  := by
  have htest : Goes place powInt ⟨0, s⟩ ⟨3, _⟩ := .straight (stands_part 0 3) rfl
  have hflags : Cond.holds (.ofBits (s.get .rsi &&& s.get .rsi)) .s = decide (e.toInt < 0) := by
    rw [UInt64.and_self, (holds_ofBits _).2.1, he, Int64.toInt64_toUInt64]
  by_cases h : e.toInt < 0
  · have hbranch := htest.trans (Goes.branch (stands_part 3 1) (hflags.trans (decide_eq_true h)) rfl)
    refine ⟨19, _, hbranch.trans (Goes.straight (stands_part 17 2) rfl), rfl, ?_, ?_, rfl, rfl⟩
    · rw [power, if_pos h]
      exact UInt64.xor_self
    · intro r hr
      cases r <;> first | rfl | contradiction
  · have hpass := htest.trans (Goes.pass (stands_part 3 1) (hflags.trans (decide_eq_false h)))
    have hstart := hpass.trans (Goes.straight (stands_part 4 1) rfl)
    obtain ⟨s', hs', hrax, hworked⟩ := exists_done (μ := μ) place _
    refine ⟨16, s', hstart.trans hs', rfl, ?_, ?_⟩
    · have hpending : s'.get .rax = 1 * s.get .rdi ^ (s.get .rsi).toNat := hrax
      rw [hpending, one_mul, hb, he, power, if_neg h, toUInt64_ofInt_pow]
      exact congrArg _ (BitVec.toNat_toInt_of_sle (BitVec.sle_iff_toInt_le.mpr (not_lt.mp h))).symm
    · have hset : Worked s (s.set .rax 1) := leaves_set (by decide)
      refine Leaves.trans ?_ hworked
      exact ⟨hset.get, rfl, rfl⟩

/-- The routine comes back to where it was called from, with the power in `rax`. -/
theorem powInt_returns (place : String → UInt64) {b e : Int64} (hb : s.get .rdi = b.toUInt64)
    (he : s.get .rsi = e.toUInt64) {back : UInt64}
    (hback : loadWord? s.memory (s.get .rsp) = some back) :
  ∃ pc s₁ s', Goes place powInt ⟨0, s⟩ ⟨pc, s₁⟩ ∧ powInt[pc]? = some .ret ∧
    s₁.pop = .ok (back, s') ∧ s'.get .rax = (power b e).toUInt64 ∧
    s'.get .rsp = s.get .rsp + 8 ∧ Leaves [.rax, .rcx, .rdi, .rsi, .rsp] s s'
  := by
  obtain ⟨pc, s₁, hs₁, hret, hrax, hworked⟩ := exists_power place hb he
  have hrsp : s₁.get .rsp = s.get .rsp := hworked.get _ (by decide)
  rw [← hrsp, ← hworked.memory] at hback
  refine ⟨pc, s₁, s₁.set .rsp (s₁.get .rsp + 8), hs₁, hret, ?_, ?_, ?_, ?_⟩
  · simp only [State.pop, State.load, hback]
    rfl
  · rw [State.get_set_of_ne _ (by decide), hrax]
  · rw [State.get_set_self, hrsp]
  · exact (hworked.mono (by decide)).trans (leaves_set (by decide))

/-- A call for a power. -/
def raising (b e : Int64) : State Ram where
  regs := { rdi := b.toUInt64, rsi := e.toUInt64, rsp := 0x8000 }
  xmms := .replicate 16 0
  flags := {}
  memory := ⟨fun _ => 0⟩

theorem powInt_returns_overflown :
  power (-3) 41 = 420491770248316829 ∧
  ∃ pc s₁ s', Goes (fun _ => 0) powInt ⟨0, raising (-3) 41⟩ ⟨pc, s₁⟩ ∧ powInt[pc]? = some .ret ∧
    s₁.pop = .ok (0, s') ∧ s'.get .rax = (power (-3) 41).toUInt64 ∧ s'.get .rsp = 0x8008 ∧
    Leaves [.rax, .rcx, .rdi, .rsi, .rsp] (raising (-3) 41) s'
  := ⟨by decide, powInt_returns _ rfl rfl rfl⟩

end Endmark.Routine

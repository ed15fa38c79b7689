import Endmark.Proofs.Code.Preservation

/-!
# Divisions

The machine divides towards zero.  Where the remainder and the divisor have different signs, the
code of a division that rounds down takes one from the quotient, or adds the divisor to the
remainder.
-/

namespace Endmark.Code

open Int64
open Machine (Reg Inst State Memory Cond Flags Goes Stands straight? straight?_append_of
  holds_ofBits holds_tested isNegative isNegative_eq_decide isNegative_xor divideSigned?)
open Machine.Assembler (defined)
open Ir (Operand BinOp WordType)

/-! ### Numbers -/

/-- What a division gives, over the integers: the quotient towards zero and its remainder, or the
quotient rounded down and its remainder. -/
def division? (a b : Int) : BinOp → Option Int
  | .div => some (a.tdiv b)
  | .rem => some (a.tmod b)
  | .floorDiv => some (a.fdiv b)
  | .mod => some (a - b * a.fdiv b)
  | _ => none

/-- Is the quotient that a remainder and a divisor belong to, towards zero, not rounded down? -/
def crosses (r b : Int) : Bool :=
  r != 0 && (decide (r < 0) != decide (b < 0))

theorem fdiv_eq_tdiv_sub {a : Int} (hb : b ≠ 0) :
  a.fdiv b = a.tdiv b - if crosses (a.tmod b) b then 1 else 0
  := by
  have hsign := Int.sign_tmod a b
  rw [Int.fdiv_eq_tdiv, crosses]
  by_cases hdvd : b ∣ a
  · simp [hdvd, Int.tmod_eq_zero_of_dvd hdvd]
  · have hr : a.tmod b ≠ 0 := fun h => hdvd (Int.dvd_of_tmod_eq_zero h)
    rcases lt_or_gt_of_ne hb with hneg | hpos
    · grind
    · grind

section

variable {b : Int64} (hb : b ≠ 0) (hab : ¬ (a = Int64.minValue ∧ b = -1))

include hab in
theorem toInt_div :
  (a / b).toInt = a.toInt.tdiv b.toInt
  := by
  by_cases ha : a = minValue
  · exact toInt_div_of_ne_right a b fun h => hab ⟨ha, h⟩
  · exact toInt_div_of_ne_left a b ha

/-- The high register holds the sign, and the two together the dividend. -/
theorem toInt_high (a : Int64) :
  (if isNegative a.toUInt64 then (0 : UInt64).complement else 0).toInt64.toInt *
      .ofNat Number.wordCount + a.toUInt64.toNat = a.toInt
  := by
  have hnat : a.toInt = .bmod a.toUInt64.toNat (2 ^ 64) :=
    BitVec.toInt_eq_toNat_bmod a.toBitVec
  have hlt := a.toUInt64.toNat_lt
  rw [isNegative_eq_decide]
  by_cases hneg : a.toInt < 0
  · simp only [toInt64_toUInt64, hneg]
    have : ((0 : UInt64).complement).toInt64.toInt = -1 := by decide
    rw [Number.wordCount]
    rw [Int.bmod_def] at hnat
    split at hnat <;> simp at * <;> omega
  · simp only [toInt64_toUInt64, hneg, decide_false, Bool.false_eq_true, if_false]
    have : (0 : UInt64).toInt64.toInt = 0 := by decide
    rw [this]
    rw [Int.bmod_def] at hnat
    split at hnat <;> omega

include hb hab in
/-- A number of 64 bits is divided. -/
theorem divideSigned?_eq :
  divideSigned? (if isNegative a.toUInt64 then (0 : UInt64).complement else 0) a.toUInt64
      b.toUInt64 = some ((a / b).toUInt64, (a % b).toUInt64)
  := by
  have hne : b.toUInt64 ≠ 0 := fun h => hb (congrArg UInt64.toInt64 h)
  have hfits : Number.fitsSigned 64 (a.toInt.tdiv b.toInt) := by
    rw [← toInt_div hab, Number.fitsSigned, Bool.and_eq_true, decide_eq_true_iff,
      decide_eq_true_iff]
    exact ⟨(a / b).toInt_lt, (a / b).le_toInt⟩
  rw [divideSigned?, if_neg hne]
  simp only [toInt_high, toInt64_toUInt64, hfits, if_true]
  rw [← toInt_div hab, ← toInt_mod, ofInt_toInt, ofInt_toInt]

include hb in
/-- The quotient rounded down, by that towards zero. -/
theorem fdiv_toInt (hab : ¬ (a = minValue ∧ b = -1)) :
  a.toInt.fdiv b.toInt =
    (a / b).toInt - if crosses (a % b).toInt b.toInt then 1 else 0
  := by
  rw [toInt_div hab, toInt_mod]
  exact fdiv_eq_tdiv_sub fun h => hb (toInt_inj.mp h)

include hb hab

theorem toInt_sub_one (h : crosses (a % b).toInt b.toInt) :
  (a / b - 1).toInt = a.toInt.fdiv b.toInt
  := by
  have hfloor := fdiv_toInt hb hab
  have hsize := Int.natAbs_fdiv_le_natAbs a.toInt b.toInt
  have := a.le_toInt
  have := a.toInt_lt
  have := (a / b).toInt_lt
  rw [if_pos h] at hfloor
  rw [toInt_sub, toInt_one, Int.bmod_eq_of_le] <;> omega

/-- A remainder that crosses zero is set right by one divisor. -/
theorem toInt_add_divisor (h : crosses (a % b).toInt b.toInt) :
  (a % b + b).toInt = a.toInt - b.toInt * a.toInt.fdiv b.toInt
  := by
  have hsum := Int.tmod_add_mul_tdiv a.toInt b.toInt
  have := (a % b).le_toInt
  have := (a % b).toInt_lt
  have := b.le_toInt
  have := b.toInt_lt
  rw [fdiv_toInt hb hab, if_pos h, mul_sub, toInt_div hab, toInt_add,
    Int.bmod_eq_of_le]
  · rw [toInt_mod] at *
    omega
  all_goals
    simp only [crosses, Bool.and_eq_true, bne_iff_ne, ne_eq, decide_eq_decide] at h
    omega

end

/-! ### Rounding down -/

section

open Code.Frame (Leaves leaves_set)

variable [Memory μ] (place : String → UInt64) {s : State μ} {b : Int64}

/-- The correction, which sets a register, is made just where the quotient is not rounded down
yet. -/
theorem exists_goes_roundDown {r : Int64} (hstands : Stands code pc (roundDown done correction))
    (hcode : (defined code).Nodup) (hrdx : s.get .rdx = r.toUInt64)
    (hrcx : s.get .rcx = b.toUInt64) (ht : t ≠ .r10)
    (hcorrect : ∀ s₁, Leaves [.r10] s s₁ →
      ∃ flags, correction.exec place s₁ = .ok ((s₁.set t v).setFlags flags, .next)) :
  ∃ s', Goes place code ⟨pc, s⟩ ⟨pc + 7, s'⟩ ∧
    s'.get t = (if crosses r.toInt b.toInt then v else s.get t) ∧ Leaves [t, .r10] s s'
  := by
  have hsign := hstands.tail.tail.tail.tail
  have hlast := hsign.tail.tail
  have hdone := Machine.labelAt_of_stands hcode hlast
  have hend (s : State μ) : Goes place code ⟨pc + 6, s⟩ ⟨pc + 7, s⟩ := .straight hlast rfl
  let s₁ := s.setFlags (.ofBits (r.toUInt64 &&& r.toUInt64))
  have htest : Goes place code ⟨pc, s⟩ ⟨pc + 1, s₁⟩ := by
    have hrun : straight? place [.test .rdx .rdx] s = some s₁ := by
      simp only [straight?, Inst.exec, hrdx]
      rfl
    exact .straight hstands.left hrun
  have hzero : Cond.holds s₁.flags .e = decide (r = 0) := holds_tested r
  by_cases hr : r = 0
  · have hexact : crosses r.toInt b.toInt = false := by
      subst hr
      rfl
    refine ⟨s₁, (htest.trans ?_).trans (hend _), by rw [hexact]; rfl, fun _ _ => rfl, rfl, rfl⟩
    exact Goes.branch hstands.tail (hzero.trans (decide_eq_true hr)) hdone
  · let s₂ := ((s₁.set .r10 r.toUInt64).set .r10 (r.toUInt64 ^^^ b.toUInt64)).setFlags
      (.ofBits (r.toUInt64 ^^^ b.toUInt64))
    have hxor : Goes place code ⟨pc, s⟩ ⟨pc + 4, s₂⟩ := by
      have hpass : Goes place code ⟨pc + 1, s₁⟩ ⟨pc + 2, s₁⟩ :=
        .pass hstands.tail (hzero.trans (decide_eq_false hr))
      have hrdx₁ : s₁.get .rdx = r.toUInt64 := hrdx
      have hrcx₁ : (s₁.set .r10 r.toUInt64).get .rcx = b.toUInt64 := hrcx
      have hrun : straight? place [.mov .r10 .rdx, .alu .xor .r10 .rcx] s₁ = some s₂ := by
        simp only [straight?, Inst.exec, hrdx₁, hrcx₁]
        rfl
      exact (htest.trans hpass).trans (Goes.straight hstands.tail.tail.left hrun)
    have hleaves : Leaves [.r10] s s₂ :=
      ⟨((leaves_set (.head _)).trans (leaves_set (.head _))).get, rfl, rfl⟩
    have hcrosses : crosses r.toInt b.toInt = !Cond.holds s₂.flags .ns := by
      have hr' : (r.toInt != 0) := bne_iff_ne.mpr fun h => hr (toInt_inj.mp h)
      have hns : Cond.holds s₂.flags .ns = _ := (holds_ofBits _).2.2.1
      rw [hns, ← isNegative_eq_decide, isNegative_xor, isNegative_eq_decide, isNegative_eq_decide,
        toInt64_toUInt64, toInt64_toUInt64, crosses, hr', Bool.true_and, Bool.not_not]
    rw [hcrosses]
    cases hns : Cond.holds s₂.flags .ns with
    | true =>
      exact ⟨s₂, (hxor.trans (Goes.branch hsign hns hdone)).trans (hend _),
        hleaves.get t (by simpa using ht), hleaves.mono (by simp)⟩
    | false =>
      obtain ⟨flags, hflags⟩ := hcorrect s₂ hleaves
      refine ⟨(s₂.set t v).setFlags flags, (hxor.trans ?_).trans (hend _), ?_, ?_⟩
      · have hrun : straight? place [correction] s₂ = some ((s₂.set t v).setFlags flags) := by
          rw [straight?, hflags]
          rfl
        exact (Goes.pass hsign hns).trans (Goes.straight hsign.tail.left hrun)
      · exact s₂.get_set_self t
      · have hset : Leaves [t, .r10] s₂ (s₂.set t v) := leaves_set (.head _)
        exact (hleaves.mono (by simp)).trans ⟨hset.get, rfl, rfl⟩

/-- The quotient and the remainder are left in `rax` and `rdx`. -/
theorem exists_divide (hb : b ≠ 0) (hab : ¬ (a = minValue ∧ b = -1))
    (hrax : s.get .rax = a.toUInt64) (hrcx : s.get .rcx = b.toUInt64) :
  ∃ s', straight? place [.cqo, .unary .idiv .rcx] s = some s' ∧ s'.get .rax = (a / b).toUInt64 ∧
    s'.get .rdx = (a % b).toUInt64 ∧ s'.get .rcx = b.toUInt64 ∧ Leaves [.rax, .rdx] s s'
  := by
  let s₁ := s.set .rdx (if isNegative a.toUInt64 then (0 : UInt64).complement else 0)
  let s₂ := (s₁.set .rax (a / b).toUInt64).set .rdx (a % b).toUInt64
  have hleaves : Leaves [.rax, .rdx] s s₂ :=
    ((leaves_set (by decide)).trans (leaves_set (by decide))).trans (leaves_set (by decide))
  refine ⟨s₂, ?_, rfl, rfl, (hleaves.get .rcx (by decide)).trans hrcx, hleaves⟩
  have hrax₁ : s₁.get .rax = a.toUInt64 := hrax
  have hrcx₁ : s₁.get .rcx = b.toUInt64 := hrcx
  have hcqo : straight? place [.cqo] s = some s₁ := by
    simp only [straight?, Inst.exec, hrax]
    rfl
  apply straight?_append_of hcqo
  simp only [straight?, Inst.exec, Machine.UnaryOp.exec, hrax₁, hrcx₁]
  have hrdx₁ : s₁.get .rdx = if isNegative a.toUInt64 then (0 : UInt64).complement else 0 := rfl
  rw [hrdx₁, divideSigned?_eq hb hab]
  rfl

/-- A division leaves its exact value in `rax`. -/
theorem exists_goes_intBinary
    (hstands : Stands code pc (intBinary done op)) (hcode : (defined code).Nodup) (hb : b ≠ 0)
    (hab : ¬ (a = minValue ∧ b = -1)) (hrax : s.get .rax = a.toUInt64)
    (hrcx : s.get .rcx = b.toUInt64) (hv : division? a.toInt b.toInt op = some v) :
  ∃ s', Goes place code ⟨pc, s⟩ ⟨pc + (intBinary done op).length, s'⟩ ∧
    (s'.get .rax).toInt64.toInt = v ∧ Leaves [.rax, .rcx, .rdx, .r10] s s'
  := by
  obtain ⟨s₁, hs₁, hquotient, hremainder, hdivisor, hleaves₁⟩ :=
    exists_divide place hb hab hrax hrcx
  replace hleaves₁ : Leaves [.rax, .rcx, .rdx, .r10] s s₁ := hleaves₁.mono (by decide)
  cases op
  case div =>
    cases hv
    refine ⟨s₁, .straight hstands hs₁, ?_, hleaves₁⟩
    rw [hquotient]
    exact toInt_div hab
  case rem =>
    cases hv
    refine ⟨s₁.set .rax (a % b).toUInt64, .straight hstands (straight?_append_of hs₁ ?_),
      toInt_mod a b, hleaves₁.trans (leaves_set (by decide))⟩
    rw [← hremainder]
    rfl
  case floorDiv =>
    cases hv
    obtain ⟨s₂, hgoes, hrax₂, hleaves₂⟩ := exists_goes_roundDown place (t := .rax)
      hstands.right hcode hremainder hdivisor (by decide)
      fun s₂ hs₂ => ⟨.ofSub (a / b).toUInt64 1, by
        have hrax₂ : s₂.get .rax = (a / b).toUInt64 := (hs₂.get _ (by decide)).trans hquotient
        rw [Inst.exec, hrax₂]
        rfl⟩
    refine ⟨s₂, (Goes.straight hstands.left hs₁).trans hgoes, ?_,
      hleaves₁.trans (hleaves₂.mono (by decide))⟩
    rw [hrax₂, hquotient]
    split
    case isTrue h => exact toInt_sub_one hb hab h
    case isFalse h =>
      rw [fdiv_toInt hb hab, if_neg h, sub_zero]
      rfl
  case mod =>
    cases hv
    obtain ⟨s₂, hgoes, hrdx₂, hleaves₂⟩ := exists_goes_roundDown place (t := .rdx)
      hstands.left.right hcode hremainder hdivisor (by decide)
      fun s₂ hs₂ => ⟨.ofAdd (a % b).toUInt64 b.toUInt64, by
        have hrdx₂ : s₂.get .rdx = (a % b).toUInt64 := (hs₂.get _ (by decide)).trans hremainder
        have hrcx₂ : s₂.get .rcx = b.toUInt64 := (hs₂.get _ (by decide)).trans hdivisor
        rw [Inst.exec, hrdx₂, hrcx₂]
        rfl⟩
    refine ⟨_, ((Goes.straight hstands.left.left hs₁).trans hgoes).trans
        (Goes.straight hstands.right rfl), ?_,
      (hleaves₁.trans (hleaves₂.mono (by decide))).trans (leaves_set (by decide))⟩
    rw [State.get_set_self, hrdx₂, hremainder]
    split
    case isTrue h => exact toInt_add_divisor hb hab h
    case isFalse h =>
      have hsum := Int.tmod_add_mul_tdiv a.toInt b.toInt
      rw [fdiv_toInt hb hab, if_neg h, sub_zero, toInt_div hab, toInt64_toUInt64,
        toInt_mod]
      omega
  all_goals cases hv

end

namespace Frame

variable [Memory μ]

/-- The code of a division of integers, towards zero or rounded down, gives the exact quotient or
remainder for all operands but a divisor of zero and the one quotient that is not in range.  It
changes no registers but the four it works with, and nothing in memory. -/
theorem binary_divides (place : String → UInt64) (m : Ir.Module) (function : Ir.Function)
    {number : Nat} {op : BinOp} {ty : WordType} {lhs rhs : Operand} {insts : Insts}
    (hty : ty ≠ .f64) (hinsts : (ofFunction m function).binary number op ty lhs rhs = .ok insts)
    {code : List (Inst String)} {pc : Nat} (hstands : Stands code pc insts)
    (hcode : (defined code).Nodup) {s : State μ} {a b : Int64}
    (ha : (ofFunction m function).Reads place s a.toUInt64 lhs)
    (hb : (ofFunction m function).Reads place s b.toUInt64 rhs) (hzero : b ≠ 0)
    (hab : ¬ (a = Int64.minValue ∧ b = -1)) {v : Int}
    (hv : division? a.toInt b.toInt op = some v) :
  ∃ s', Goes place code ⟨pc, s⟩ ⟨pc + insts.length, s'⟩ ∧ (s'.get .rax).toInt64.toInt = v ∧
    Leaves [.rax, .rcx, .rdx, .r10] s s'
  := by
  rw [binary, if_neg hty] at hinsts
  cases hinsts
  obtain ⟨s₁, hs₁, hrax₁, hleaves₁⟩ := exists_load ha .rax
  have hplaces : ∀ r ∈ .rbp :: Allocation.registers, r ∉ [Reg.rax] := by decide
  have hb₁ := hb.keep (served_ofFunction m function) (fun r hr => hleaves₁.get r (hplaces r hr))
    (by simp [hleaves₁.memory]) (by simp [hleaves₁.memory])
  obtain ⟨s₂, hs₂, hrcx₂, hleaves₂⟩ := exists_load hb₁ .rcx
  have hrax₂ : s₂.get .rax = a.toUInt64 := (hleaves₂.get .rax (by decide)).trans hrax₁
  obtain ⟨s', hgoes, hvalue, hleaves⟩ :=
    exists_goes_intBinary place hstands.right hcode hzero hab hrax₂ hrcx₂ hv
  have hloads := Goes.straight hstands.left (straight?_append_of hs₁ hs₂)
  refine ⟨s', ?_, hvalue,
    ((hleaves₁.mono (by decide)).trans (hleaves₂.mono (by decide))).trans hleaves⟩
  rw [List.length_append, ← Nat.add_assoc]
  exact hloads.trans hgoes

/-- Minus seven, in the register of `b`, is divided by two. -/
theorem adding_binary_divides :
  ∃ insts s', (ofFunction addingModule adding).binary 0 .floorDiv .i64 (.var "b") (.int 2) =
      .ok insts ∧
    Goes (fun _ => 0) insts ⟨0, addingCall.set .rbx (-7)⟩ ⟨insts.length, s'⟩ ∧
    (s'.get .rax).toInt64.toInt = -4 ∧ s'.get .rbx = -7
  := by
  let insts := (ofFunction addingModule adding).load .rax (.var "b") ++
    (ofFunction addingModule adding).load .rcx (.int 2) ++ intBinary (codeLabel 0) .floorDiv
  have hinsts : (ofFunction addingModule adding).binary 0 .floorDiv .i64 (.var "b") (.int 2) =
      .ok insts := rfl
  have hcode : (defined insts).Nodup := by
    simp only [insts, defined_append, defined_load]
    decide
  have ha : (ofFunction addingModule adding).Reads (fun _ => 0) (addingCall.set .rbx (-7))
      (Int64.toUInt64 (-7)) (.var "b") := by
    rw [Reads, allocation_adding]
    rfl
  have hb : (ofFunction addingModule adding).Reads (fun _ => 0) (addingCall.set .rbx (-7))
      (Int64.toUInt64 2) (.int 2) := rfl
  obtain ⟨s', hgoes, hvalue, hleaves⟩ :=
    binary_divides (fun _ => 0) addingModule adding (by decide) hinsts ⟨[], [], by simp, rfl⟩ hcode
      ha hb (by decide) (by decide) rfl
  exact ⟨insts, s', hinsts, by simpa using hgoes, hvalue, hleaves.get .rbx (by decide)⟩

end Frame

end Endmark.Code

import Endmark.Proofs.Code.Frame
import Endmark.Proofs.Machine.Arithmetic

/-!
# What the code of operations computes

The instructions of an operation on words in `rax` and `rcx` leave its value in `rax`.
-/

namespace Endmark

namespace Ir

/-- The operation has a value for all words and needs no branches. -/
def BinOp.isPlain : BinOp → Bool
  | add | sub | mul | and | or | xor | eq | ne | lt | le | gt | ge => true
  | _ => false

/-- The operation on words of the kind works on integers or truth values. -/
def UnOp.isPlain : UnOp → WordType → Bool
  | neg, ty => ty != .f64
  | not, _ => true
  | _, _ => false

end Ir

namespace Code

open Machine (Reg Inst State Memory Cond straight? straight?_append_of holds_tested)
open Ir (truthWord)
open Code.Frame (Scratch leaves_set)

variable [Memory μ] {s : State μ} (place : String → UInt64)

/-- The truth of a condition is left in `rax`. -/
theorem exists_setRax {cond : Cond} (s : State μ) :
  ∃ s', straight? place (setRax cond) s = some s' ∧
    s'.get .rax = (truthWord (cond.holds s.flags)).toUInt64 ∧ Scratch s s'
  := by
  refine ⟨_, rfl, ?_, (leaves_set (by decide)).trans (leaves_set (by decide))⟩
  rw [State.get_set_self, State.setLowByte, State.get_set_self, Machine.lowByte_toUInt64]
  cases cond.holds s.flags <;> rfl

theorem exists_comparison {cond : Cond} {a b : Int64} (hrax : s.get .rax = a.toUInt64)
    (hrcx : s.get .rcx = b.toUInt64) :
  ∃ s', straight? place (.alu .cmp .rax .rcx :: setRax cond) s = some s' ∧
    s'.get .rax = (truthWord (cond.holds (.ofSub a.toUInt64 b.toUInt64))).toUInt64 ∧ Scratch s s'
  := by
  let s₁ := s.setFlags (.ofSub a.toUInt64 b.toUInt64)
  have hcmp : straight? place [.alu .cmp .rax .rcx] s = some s₁ := by
    simp only [straight?, Inst.exec, hrax, hrcx]
    rfl
  obtain ⟨s', hs', hvalue, hscratch⟩ := exists_setRax place s₁
  exact ⟨s', straight?_append_of hcmp hs', hvalue, hscratch.get, hscratch.xmms, hscratch.memory⟩

/-- The value of an operation on two integers is computed. -/
theorem exists_intBinary (hop : op.isPlain) (hv : op.value? a b = some v)
    (hrax : s.get .rax = a.toUInt64) (hrcx : s.get .rcx = b.toUInt64) :
  ∃ s', straight? place (intBinary done op) s = some s' ∧ s'.get .rax = v.toUInt64 ∧ Scratch s s'
  := by
  have hresult {i : Inst String} {result : UInt64} {flags : Machine.Flags}
      (hi : i.exec place s = .ok ((s.set .rax result).setFlags flags, .next))
      (hresult : result = v.toUInt64) :
      ∃ s', straight? place [i] s = some s' ∧ s'.get .rax = v.toUInt64 ∧ Scratch s s' := by
    subst hresult
    refine ⟨(s.set .rax v.toUInt64).setFlags flags, ?_, ?_,
      (leaves_set (by decide)).get, rfl, rfl⟩
    · rw [straight?, hi]
      rfl
    · exact s.get_set_self .rax
  obtain ⟨he, hne, hl, hle, hg, hge⟩ := Machine.holds_ofSub a b
  cases op
  case add | sub | mul | and | or | xor =>
    cases hv
    apply hresult rfl
    rw [hrax, hrcx]
    rfl
  case eq =>
    cases hv
    rw [← he]
    exact exists_comparison place hrax hrcx
  case ne =>
    cases hv
    rw [← hne]
    exact exists_comparison place hrax hrcx
  case lt =>
    cases hv
    rw [← hl]
    exact exists_comparison place hrax hrcx
  case le =>
    cases hv
    rw [← hle]
    exact exists_comparison place hrax hrcx
  case gt =>
    cases hv
    rw [← hg]
    exact exists_comparison place hrax hrcx
  case ge =>
    cases hv
    rw [← hge]
    exact exists_comparison place hrax hrcx
  all_goals cases hop

/-- The value of an operation on one integer is computed. -/
theorem exists_unary (hop : op.isPlain ty) (hv : op.value? a = some v)
    (hrax : s.get .rax = a.toUInt64) :
  ∃ s', straight? place (unary op ty) s = some s' ∧ s'.get .rax = v.toUInt64 ∧ Scratch s s'
  := by
  cases op
  case neg =>
    cases hv
    rw [unary, if_neg (by simpa [Ir.UnOp.isPlain] using hop)]
    refine ⟨_, rfl, ?_, (leaves_set (by decide)).get, rfl, rfl⟩
    rw [hrax]
    exact UInt64.eq_of_toBitVec_eq rfl
  case not =>
    cases hv
    let s₁ := s.setFlags (.ofBits (a.toUInt64 &&& a.toUInt64))
    have htest : straight? place [.test .rax .rax] s = some s₁ := by
      simp only [straight?, Inst.exec, hrax]
      rfl
    obtain ⟨s', hs', hvalue, hscratch⟩ := exists_setRax place s₁
    refine ⟨s', straight?_append_of htest hs', ?_, hscratch.get, hscratch.xmms, hscratch.memory⟩
    rw [hvalue, ← holds_tested]
    rfl
  all_goals cases hop

end Code

end Endmark

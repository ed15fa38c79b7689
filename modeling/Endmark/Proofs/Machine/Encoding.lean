import Endmark.Machine.Encoding
import Endmark.Proofs.Lookup

/-!
# The fields of encoded instructions

An instruction has a field for a distance just when it refers to a symbol.  The field is of
zeros, and its addend is the distance from the end of the instruction back to the field.
-/

namespace Endmark.Machine

/-- What a memory operand names. -/
def Mem.target? : Mem σ → Option σ
  | base _ _ _ => none
  | rip target => some target

/-- The symbol whose distance the instruction holds: that of a jump or call, or that of a place
relative to the next instruction. -/
def Inst.reference? (i : Inst σ) : Option σ :=
  i.target? <|> i.mem?.bind (·.target?)

/-- The width of the field for a distance. -/
def Inst.fieldSize (short : Bool) (i : Inst σ) : Nat :=
  if i.isJump && short then 1 else 4

theorem Inst.reference?_of_isJump {i : Inst σ} (h : i.isJump) :
  i.reference? = i.target?
  := by
  cases i <;> first | rfl | cases h

/-- The bytes have zeros in the field, and behind it comes what the addend says. -/
structure Fixup.Fits (fixup : Fixup σ) (bytes : List UInt8) : Prop where
  split : ∃ before after, bytes = before ++ List.replicate fixup.size 0 ++ after ∧
    fixup.offset = before.length ∧ fixup.addend = -(fixup.size + after.length : Int)

/-- The bytes have a field of the given width for the distance of the symbol, if there is
one. -/
def Encoded.Refers (e : Encoded σ) (reference : Option σ) (size : Nat) : Prop :=
  e.fixup.map (·.target) = reference ∧
    ∀ fixup, e.fixup = some fixup → fixup.size = size ∧ fixup.Fits e.bytes

theorem refers_none (bytes : List UInt8) (size : Nat) :
  (.mk bytes none : Encoded σ).Refers none size
  := ⟨rfl, fun _ h => nomatch h⟩

namespace Encoding

theorem branch_refers (opcode : List UInt8) (target : σ) :
  (branch opcode target size).Refers (some target) size
  := by
  refine ⟨rfl, ?_⟩
  rintro _ ⟨⟩
  refine ⟨rfl, opcode, [], ?_, rfl, ?_⟩
  · rw [List.append_nil]
    rfl
  · simp

/-- The symbol that an operand names. -/
def Operand.reference? : Operand σ → Option σ
  | .reg _ => none
  | .mem m => m.target?

/-- An encoding refers to the symbol of its operand, in four bytes. -/
theorem Form.refers {f : Form σ} (h : f.encode = .ok e) :
  e.Refers f.operand.reference? 4
  := by
  obtain ⟨lead, wide, forceRex, opcode, reg, operand, imm⟩ := f
  cases operand with
  | reg code =>
    cases h
    apply refers_none
  | mem m =>
    cases m with
    | rip target =>
      cases h
      refine ⟨rfl, ?_⟩
      rintro _ ⟨⟩
      exact ⟨rfl, _, imm, rfl, rfl, rfl⟩
    | base base index disp =>
      obtain ⟨bytes, -, h⟩ := of_bind_ok h
      cases h
      apply refers_none

end Encoding

open Encoding in
/-- An encoded instruction has a field for what it refers to. -/
theorem Inst.encode_refers {i : Inst σ} (h : i.encode short = .ok e) :
  e.Refers i.reference? (i.fieldSize short)
  := by
  cases i
  all_goals simp only [encode] at h
  case jmp | jcc | call =>
    cases h
    cases short <;> apply branch_refers
  case movImm imm =>
    split at h
    · exact Form.refers h
    · cases h
      apply refers_none
  all_goals first
    | exact Form.refers h
    | cases h
      apply refers_none

/-- Which form is asked for does not matter to a fault. -/
theorem Inst.encode_error {i : Inst σ} (h : i.encode short = .error fault) :
  i.encode false = .error fault
  := by
  cases i <;> first | exact h | cases h

end Endmark.Machine

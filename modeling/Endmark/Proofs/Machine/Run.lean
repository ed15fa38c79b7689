import Endmark.Machine.Step
import Endmark.Proofs.Machine.Assembler

/-!
# Runs of rows of instructions

The machine goes through a row of instructions one by one, or on to a label of the row.  What
leaves the row, such as a return, ends the run.
-/

namespace Endmark.Machine

open Relation
open List Option
open Assembler (defined)

namespace State

@[simp]
theorem get_set (s : State μ) :
  (s.set r v).get r' = if r' = r then v else s.get r'
  := Regs.get_set s.regs r r' v

theorem get_set_self (s : State μ) (r : Reg) :
  (s.set r v).get r = v
  := s.get_set.trans (if_pos rfl)

theorem get_set_of_ne (s : State μ) (h : r' ≠ r) :
  (s.set r v).get r' = s.get r'
  := s.get_set.trans (if_neg h)

@[simp]
theorem memory_set (s : State μ) (r : Reg) (v : UInt64) :
  (s.set r v).memory = s.memory
  := rfl

@[simp]
theorem get_setFlags (s : State μ) (f : Flags) (r : Reg) :
  (s.setFlags f).get r = s.get r
  := rfl

@[simp]
theorem memory_setFlags (s : State μ) (f : Flags) :
  (s.setFlags f).memory = s.memory
  := rfl

@[simp]
theorem flags_setFlags (s : State μ) (f : Flags) :
  (s.setFlags f).flags = f
  := rfl

/-- To set a register to what it holds changes nothing. -/
theorem set_get {s : State μ} :
  s.set r (s.get r) = s
  := by
  cases r <;> rfl

end State

/-! ### Places in a row -/

/-- The block stands in the code, with the given number of instructions in front of it. -/
def Stands (code : List (Inst String)) (pc : Nat) (block : List (Inst String)) : Prop :=
  ∃ front back, code = front ++ block ++ back ∧ front.length = pc

/-- Where a label stands. -/
def labelAt (code : List (Inst String)) (name : String) : Option Nat :=
  code.findIdx? (· = .label name)

theorem Stands.left (h : Stands code pc (block ++ block')) :
  Stands code pc block
  := by
  obtain ⟨front, back, rfl, rfl⟩ := h
  exact ⟨front, block' ++ back, by simp only [append_assoc], rfl⟩

theorem Stands.right (h : Stands code pc (block ++ block')) :
  Stands code (pc + block.length) block'
  := by
  obtain ⟨front, back, rfl, rfl⟩ := h
  exact ⟨front ++ block, back, by simp only [append_assoc], length_append⟩

theorem Stands.tail (h : Stands code pc (i :: block)) :
  Stands code (pc + 1) block
  := by
  obtain ⟨front, back, rfl, rfl⟩ := h
  exact ⟨front ++ [i], back, by simp, by simp⟩

theorem Stands.getElem? (h : Stands code pc (i :: block)) :
  code[pc]? = some i
  := by
  obtain ⟨front, back, rfl, rfl⟩ := h
  simp

/-- Any part of the code stands in it. -/
theorem stands_part (pc n : Nat) (hpc : pc ≤ code.length := by decide) :
  Stands code pc ((code.drop pc).take n)
  := by
  refine ⟨code.take pc, (code.drop pc).drop n, ?_, length_take_of_le hpc⟩
  rw [append_assoc, take_append_drop, take_append_drop]

/-- A label that is defined once is found where it stands. -/
theorem labelAt_of_stands (hcode : (defined code).Nodup)
    (h : Stands code pc (.label name :: block)) :
  labelAt code name = some pc
  := by
  obtain ⟨front, back, rfl, rfl⟩ := h
  have hnot : .label name ∉ front := by
    intro hmem
    rw [append_assoc, defined, filterMap_append, nodup_append] at hcode
    apply hcode.2.2 name (Assembler.mem_defined.mpr hmem) name _ rfl
    exact Assembler.mem_defined.mpr mem_cons_self
  rw [labelAt, findIdx?_eq_some_iff_getElem]
  refine ⟨by simp, by simp, ?_⟩
  intro j hj
  rw [getElem_append_left (by simp; omega), getElem_append_left hj, decide_eq_true_iff]
  intro heq
  apply hnot
  rw [← heq]
  apply getElem_mem

/-! ### Runs -/

/-- Where control is in a row of instructions, and the state of the machine. -/
structure Config (μ : Type) where
  pc : Nat
  state : State μ

variable [Memory μ]

/-- One step within the row. -/
def step? (place : String → UInt64) (code : List (Inst String)) (c : Config μ) :
    Option (Config μ) :=
  match code[c.pc]? with
  | none => none
  | some i =>
    match i.exec place c.state with
    | .ok (s, .next) => some ⟨c.pc + 1, s⟩
    | .ok (s, .jump target) => (labelAt code target).map (⟨·, s⟩)
    | _ => none

/-- The machine goes from one place and state to the other, in any number of steps. -/
abbrev Goes (place : String → UInt64) (code : List (Inst String)) : Config μ → Config μ → Prop :=
  Relation.ReflTransGen fun c c' => step? place code c = some c'

/-- The state after instructions that do not jump. -/
def straight? (place : String → UInt64) : List (Inst String) → State μ → Option (State μ)
  | [], s => some s
  | i :: rest, s =>
    match i.exec place s with
    | .ok (s', .next) => straight? place rest s'
    | _ => none

variable {s : State μ}

theorem straight?_append :
  straight? place (block ++ block') s = (straight? place block s).bind (straight? place block')
  := by
  induction block generalizing s with
  | nil => rfl
  | cons i rest ih =>
    rw [cons_append, straight?, straight?]
    split
    · apply ih
    · rfl

theorem straight?_append_of (h : straight? place block s = some s₁)
    (h' : straight? place block' s₁ = some s') :
  straight? place (block ++ block') s = some s'
  := by
  rw [straight?_append, h]
  exact h'

/-- Instructions that do not jump are gone through. -/
theorem Goes.straight (h : Stands code pc block) (hs : straight? place block s = some s') :
  Goes place code ⟨pc, s⟩ ⟨pc + block.length, s'⟩
  := by
  induction block generalizing pc s with
  | nil =>
    cases hs
    exact .refl
  | cons i rest ih =>
    rw [straight?] at hs
    split at hs
    case h_1 s₁ hexec =>
      have hstep : step? place code ⟨pc, s⟩ = some ⟨pc + 1, s₁⟩ := by
        simp [step?, h.getElem?, hexec]
      have hrest := ih h.tail hs
      rw [length_cons, add_comm rest.length, ← add_assoc]
      exact .head hstep hrest
    case h_2 => cases hs

theorem Goes.jump (h : Stands code pc (.jmp name :: block)) (hname : labelAt code name = some pc') :
  Goes place code ⟨pc, s⟩ ⟨pc', s⟩
  := by
  apply ReflTransGen.single
  simp [step?, h.getElem?, Inst.exec, hname]

theorem Goes.branch {cond : Cond} (h : Stands code pc (.jcc cond name :: block))
    (hcond : cond.holds s.flags) (hname : labelAt code name = some pc') :
  Goes place code ⟨pc, s⟩ ⟨pc', s⟩
  := by
  apply ReflTransGen.single
  simp [step?, h.getElem?, Inst.exec, hcond, hname]

theorem Goes.pass {cond : Cond} (h : Stands code pc (.jcc cond name :: block))
    (hcond : cond.holds s.flags = false) :
  Goes place code ⟨pc, s⟩ ⟨pc + 1, s⟩
  := by
  apply ReflTransGen.single
  simp [step?, h.getElem?, Inst.exec, hcond]

/-! ### Memory -/

open Memory (loadWord? storeWord?)

theorem Goes.store (h : Stands code pc (.store mem r :: block))
    (hm : storeWord? s.memory (s.address place mem) (s.get r) = some m) :
  Goes place code ⟨pc, s⟩ ⟨pc + 1, { s with memory := m }⟩
  := by
  apply ReflTransGen.single
  simp only [step?, h.getElem?, Inst.exec, State.store, hm]
  rfl

theorem Goes.pop (h : Stands code pc (.pop r :: block)) (htop : s.get .rsp = top)
    (hv : loadWord? s.memory top = some v) :
  Goes place code ⟨pc, s⟩ ⟨pc + 1, (s.set .rsp (top + 8)).set r v⟩
  := by
  subst htop
  apply ReflTransGen.single
  simp only [step?, h.getElem?, Inst.exec, State.pop, State.load, hv]
  rfl

end Endmark.Machine

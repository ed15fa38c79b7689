import Endmark.Code.Function
import Endmark.Proofs.Ir.Assignment
import Endmark.Proofs.Machine.Assembler

/-!
# Labels of the code of functions

The code of a function defines its name, a label for each label of its body and for each
operation that needs one, and the label of its end.
-/

namespace Endmark.Code

open List
open Machine (Reg Inst Mem)
open Machine.Assembler (defined)
open Ir (Instr Operand)

@[simp]
theorem defined_nil :
  defined [] = []
  := rfl

@[simp]
theorem defined_append {insts insts' : Insts} :
  defined (insts ++ insts') = defined insts ++ defined insts'
  := filterMap_append

@[simp]
theorem defined_cons (i : Inst String) (insts : Insts) :
  defined (i :: insts) = i.label?.toList ++ defined insts
  := by
  rw [defined, filterMap_cons]
  cases i.label? <;> rfl

theorem defined_map {α : Type} {inst : α → Inst String} (h : ∀ a, (inst a).label? = none)
    {l : List α} :
  defined (l.map inst) = []
  := by
  rw [defined, filterMap_map]
  apply filterMap_eq_nil_iff.mpr
  intro a _
  exact h a

theorem defined_flatMap {α : Type} {block : α → Insts} (h : ∀ a, defined (block a) = [])
    {l : List α} :
  defined (l.flatMap block) = []
  := by
  induction l with
  | nil => rfl
  | cons a rest ih => rw [flatMap_cons, defined_append, h, ih, append_nil]

namespace Frame

variable (f : Frame)

@[simp]
theorem defined_load :
  defined (f.load r o) = []
  := by
  unfold load
  split
  · split
    · split <;> rfl
    · rfl
    · rfl
  all_goals rfl

@[simp]
theorem defined_store :
  defined (f.store dst r) = []
  := by
  unfold store
  split
  · split
    · split <;> rfl
    · rfl
    · rfl
  · rfl

@[simp]
theorem defined_call (callee : String) (args : List Operand) :
  defined (f.call callee args) = []
  := by
  have hstack (l : List Operand) : defined (l.flatMap fun a => f.load .rax a ++ [.push .rax]) = [] :=
    defined_flatMap (fun a => by simp [Inst.label?])
  simp only [call, defined_append, hstack]
  rw [defined_flatMap]
  · split <;> split <;> rfl
  · rintro ⟨a, r⟩
    exact defined_load f

@[simp]
theorem defined_param :
  defined (f.param k name) = []
  := by
  unfold param
  split
  · rfl
  · simp only [defined_append]
    split <;> split <;> rfl

theorem defined_prologue :
  defined f.prologue = [f.function.name]
  := by
  have hpushes : defined (f.allocation.saved.map .push) = [] := defined_map (fun _ => rfl)
  simp only [prologue, defined_append, hpushes]
  rw [defined_flatMap]
  · split <;> rfl
  · rintro ⟨p, k⟩
    exact defined_param f

theorem defined_epilogue :
  defined f.epilogue = [epilogueLabel]
  := by
  have hpops : defined (f.allocation.saved.reverse.map .pop) = [] :=
    defined_map (fun _ => rfl)
  simp only [epilogue, defined_append, hpops]
  rfl

theorem defined_intBinary :
  defined (intBinary done op) = if op == .floorDiv || op == .mod then [done] else []
  := by
  cases op <;> rfl

/-- The machine labels of an instruction. -/
def labels (counts : Counts) : Instr → List String
  | .label name => [labelFor name]
  | .binary _ op ty _ _ => if needsLabel op ty then [codeLabel counts.labels] else []
  | _ => []

theorem defined_floatBinary (h : floatBinary? op = some insts) :
  defined insts = []
  := by
  cases op <;> cases h <;> rfl

theorem defined_unary :
  defined (unary op ty) = []
  := by
  cases op
  case neg =>
    rw [unary]
    split <;> rfl
  all_goals rfl

/-- An operation defines a label just when it jumps. -/
theorem defined_binary (h : f.binary number op ty lhs rhs = .ok insts) :
  defined insts = if needsLabel op ty then [codeLabel number] else []
  := by
  unfold binary at h
  by_cases hty : ty = .f64
  · subst hty
    simp only [if_true] at h
    split at h
    case h_1 float hfloat =>
      cases h
      simp [defined_floatBinary hfloat, needsLabel]
    case h_2 => cases h
  · simp only [hty] at h
    cases h
    simp [defined_intBinary, needsLabel, hty]

/-- What the code of an instruction defines, raw text apart. -/
theorem defined_instr (hraw : i.isRaw = false) (h : f.instr counts i rest = .ok insts) :
  defined insts = labels counts i
  := by
  unfold instr at h
  split at h
  case h_1 name =>
    cases h
    rfl
  case h_2 =>
    cases h
    simp [labels]
  case h_3 dst op ty lhs rhs =>
    cases hbinary : f.binary counts.labels op ty lhs rhs with
    | error fault =>
      rw [hbinary] at h
      cases h
    | ok block =>
      rw [hbinary] at h
      cases h
      rw [defined_append, defined_store, append_nil, f.defined_binary hbinary]
      rfl
  case h_4 =>
    cases h
    simp [labels, defined_unary]
  case h_5 dst callee args =>
    cases h
    cases dst <;> simp [labels]
  case h_6 =>
    cases h
    simp only [branch, defined_append, defined_load]
    split
    · rfl
    · split <;> rfl
  case h_7 =>
    cases h
    split <;> rfl
  case h_8 dst ty base offset =>
    cases hdisp : displacement offset with
    | error fault =>
      rw [hdisp] at h
      cases h
    | ok disp =>
      rw [hdisp] at h
      cases h
      simp [labels, Inst.label?]
  case h_9 ty base offset value =>
    cases hdisp : displacement offset with
    | error fault =>
      rw [hdisp] at h
      cases h
    | ok disp =>
      rw [hdisp] at h
      cases h
      simp [labels, Inst.label?]
  case h_10 =>
    cases h
    simp [labels]
  case h_11 =>
    cases h
    simp [labels]
  case h_12 value =>
    cases h
    have hend : defined (if rest.isEmpty then [] else [.jmp epilogueLabel]) = [] := by
      split <;> rfl
    rw [defined_append, hend, append_nil]
    cases value with
    | none => rfl
    | some v => exact f.defined_load
  case h_13 => cases hraw

/-- The machine labels of a body. -/
def bodyLabels : Counts → List Instr → List String
  | _, [] => []
  | counts, i :: rest => labels counts i ++ bodyLabels (counts.after i) rest

/-- What the code of a body defines, raw text apart. -/
theorem defined_body {body : List Instr} (hraw : ∀ i ∈ body, i.isRaw = false)
    (h : (f.body counts body).2 = []) :
  defined (f.body counts body).1 = bodyLabels counts body
  := by
  induction body generalizing counts with
  | nil => rfl
  | cons i rest ih =>
    rw [forall_mem_cons] at hraw
    rw [body] at h ⊢
    cases hinstr : f.instr counts i rest with
    | error fault =>
      rw [hinstr] at h
      cases h
    | ok first =>
      rw [hinstr] at h
      rw [defined_append, f.defined_instr hraw.1 hinstr, ih hraw.2 h]
      rfl

end Frame

end Endmark.Code

import Endmark.Proofs.Code.Labels
import Endmark.Proofs.Code.Operation

/-!
# Where the code of instructions stands

Functions on integers and truth values have code.  The code of each instruction stands behind
that of those before it, and the machine label for a label of the body stands at the code of
that label.
-/

namespace Endmark

open List Bool

/-! ### Plain functions -/

namespace Ir

/-- Variables and constants. -/
def Operand.isPlain : Operand → Bool
  | .var _ | .int _ | .bool _ => true
  | _ => false

/-- Instructions on integers and truth values that stay within the function. -/
def Instr.isPlain : Instr → Bool
  | .label _ | .jump _ | .ret none => true
  | .move (.var _) _ src => src.isPlain
  | .binary (.var _) op ty lhs rhs => op.isPlain && ty != .f64 && lhs.isPlain && rhs.isPlain
  | .unary (.var _) op ty src => op.isPlain ty && src.isPlain
  | .branch cond _ _ => cond.isPlain
  | .ret (some value) => value.isPlain
  | _ => false

end Ir

namespace Code.Frame

open Machine (Reg Inst Stands labelAt labelAt_of_stands)
open Machine.Assembler (defined)
open Ir (Instr labelNames)

variable (f : Frame)

/-- The instructions of an instruction in front of the given ones. -/
def instrCode (i : Instr) (rest : List Instr) : Insts :=
  match f.instr {} i rest with
  | .ok insts => insts
  | .error _ => []

variable {i : Instr}

theorem instr_of_isPlain (hi : i.isPlain) (counts : Counts) (rest : List Instr) :
  f.instr counts i rest = .ok (f.instrCode i rest)
  := by
  unfold Instr.isPlain at hi
  split at hi
  case h_5 x op ty lhs rhs =>
    simp only [and_eq_true, bne_iff_ne] at hi
    obtain ⟨⟨⟨hop, hty⟩, -⟩, -⟩ := hi
    simp only [instrCode, instr, binary, hty]
    cases op <;> first | rfl | cases hop
  case h_9 => cases hi
  all_goals rfl

/-- The instructions of a body. -/
def bodyCode : List Instr → Insts
  | [] => []
  | i :: rest => f.instrCode i rest ++ bodyCode rest

theorem body_of_isPlain {body : List Instr} (hbody : ∀ i ∈ body, i.isPlain) :
  f.body counts body = (f.bodyCode body, [])
  := by
  induction body generalizing counts with
  | nil => rfl
  | cons i rest ih =>
    rw [forall_mem_cons] at hbody
    rw [body, f.instr_of_isPlain hbody.1, ih hbody.2]
    rfl

/-- The instructions of the function. -/
def allCode : Insts :=
  f.prologue ++ f.bodyCode f.function.body ++ f.epilogue

theorem code_of_isPlain (hbody : ∀ i ∈ f.function.body, i.isPlain) :
  f.code = .ok f.allCode
  := by
  rw [code, f.body_of_isPlain hbody]
  rfl

/-! ### Entries -/

/-- The instructions of the first instructions of a body. -/
def frontCode : Nat → List Instr → Insts
  | k + 1, i :: rest => f.instrCode i rest ++ frontCode k rest
  | _, _ => []

theorem bodyCode_eq (k : Nat) (body : List Instr) :
  f.bodyCode body = f.frontCode k body ++ f.bodyCode (body.drop k)
  := by
  induction k generalizing body with
  | zero => rfl
  | succ k ih =>
    cases body with
    | nil => rfl
    | cons i rest => rw [bodyCode, ih rest, frontCode, append_assoc, drop_succ_cons]

/-- One more instruction adds its code. -/
theorem frontCode_succ {body : List Instr} (hi : body[k]? = some i) :
  f.frontCode (k + 1) body = f.frontCode k body ++ f.instrCode i (body.drop (k + 1))
  := by
  induction k generalizing body with
  | zero =>
    cases body with
    | nil => cases hi
    | cons j rest =>
      cases hi
      simp [frontCode]
  | succ k ih =>
    cases body with
    | nil => cases hi
    | cons j rest =>
      rw [frontCode, ih hi, frontCode, append_assoc, drop_succ_cons]

/-- Where the code of the instruction with the given number starts. -/
def entry (k : Nat) : Nat :=
  f.prologue.length + (f.frontCode k f.function.body).length

theorem stands_entry (k : Nat) :
  Stands f.allCode (f.entry k) (f.bodyCode (f.function.body.drop k) ++ f.epilogue)
  := by
  refine ⟨f.prologue ++ f.frontCode k f.function.body, [], ?_, length_append⟩
  rw [allCode, f.bodyCode_eq k]
  simp

theorem stands_prologue :
  Stands f.allCode 0 f.prologue
  := ⟨[], _, by rw [allCode, append_assoc, nil_append], rfl⟩

theorem stands_epilogue :
  Stands f.allCode (f.entry f.function.body.length) f.epilogue
  := by
  have h := f.stands_entry f.function.body.length
  rw [drop_length] at h
  exact h

theorem stands_instr (hi : f.function.body[k]? = some i) :
  Stands f.allCode (f.entry k) (f.instrCode i (f.function.body.drop (k + 1)))
  := by
  have h := f.stands_entry k
  rw [drop_eq_getElem?_toList_append, hi] at h
  exact h.left.left

theorem entry_succ (hi : f.function.body[k]? = some i) :
  f.entry (k + 1) = f.entry k + (f.instrCode i (f.function.body.drop (k + 1))).length
  := by
  rw [entry, f.frontCode_succ hi, length_append, entry, add_assoc]

/-! ### Labels -/

theorem labels_of_isPlain (hi : i.isPlain) :
  labels counts i = (labelNames [i]).map labelFor
  := by
  unfold Instr.isPlain at hi
  split at hi
  case h_5 x op ty lhs rhs =>
    have hop : (op == .floorDiv || op == .mod) = false := by
      simp only [and_eq_true] at hi
      cases op <;> first | rfl | cases hi.1.1.1
    rw [labels, needsLabel, hop, Bool.and_false]
    rfl
  case h_9 => cases hi
  all_goals rfl

theorem isRaw_of_isPlain (hi : i.isPlain) :
  i.isRaw = false
  := by
  cases i
  case raw => cases hi
  all_goals rfl

theorem defined_bodyCode {body : List Instr} (hbody : ∀ i ∈ body, i.isPlain) :
  defined (f.bodyCode body) = (labelNames body).map labelFor
  := by
  induction body with
  | nil => rfl
  | cons i rest ih =>
    rw [forall_mem_cons] at hbody
    have hinstr := f.instr_of_isPlain hbody.1 {} rest
    rw [bodyCode, defined_append, ih hbody.2, f.defined_instr (isRaw_of_isPlain hbody.1) hinstr,
      labels_of_isPlain hbody.1, ← map_append, ← Ir.labelNames_append]
    rfl

theorem labelFor_injective :
  Function.Injective labelFor
  := by
  intro a b h
  rw [labelFor, labelFor, String.append_right_inj] at h
  exact h

theorem isUnitLabel_labelFor (name : String) :
  Machine.isUnitLabel (labelFor name)
  := by
  rw [Machine.isUnitLabel, labelFor, String.toList_append]
  rfl

/-- A plain function with labels that can be told apart in its code. -/
structure Plain : Prop where
  instrs : ∀ i ∈ f.function.body, i.isPlain = true
  name : Machine.isUnitLabel f.function.name = false
  labels : (labelNames f.function.body).Nodup
  epilogue : "epilogue" ∉ labelNames f.function.body

variable {f}

/-- No label of the function is defined twice. -/
theorem Plain.nodup_defined (h : f.Plain) :
  (defined f.allCode).Nodup
  := by
  have hname (name : String) : f.function.name ≠ labelFor name := by
    intro heq
    have hunit := isUnitLabel_labelFor name
    rw [← heq, h.name] at hunit
    cases hunit
  have hepilogue : epilogueLabel = labelFor "epilogue" := by decide
  rw [allCode, defined_append, defined_append, defined_prologue, defined_epilogue,
    f.defined_bodyCode h.instrs, hepilogue, nodup_append, nodup_append]
  refine ⟨⟨nodup_singleton _, h.labels.map labelFor_injective, ?_⟩, nodup_singleton _, ?_⟩
  · rintro _ hfirst _ hlabel rfl
    rw [mem_singleton] at hfirst
    obtain ⟨name, -, heq⟩ := mem_map.mp hlabel
    exact hname name (hfirst.symm.trans heq.symm)
  · rintro _ hmem _ hlast rfl
    rw [mem_singleton] at hlast
    rw [mem_append, mem_singleton, hlast, mem_map] at hmem
    obtain heq | ⟨name, hlabel, heq⟩ := hmem
    · exact hname _ heq.symm
    · rw [labelFor_injective heq] at hlabel
      exact h.epilogue hlabel

/-- The code of a label is where its machine label is found. -/
theorem Plain.labelAt_entry (h : f.Plain) {name : String}
    (hk : f.function.body[k]? = some (.label name)) :
  labelAt f.allCode (labelFor name) = some (f.entry k)
  := labelAt_of_stands h.nodup_defined (f.stands_instr hk)

theorem Plain.labelAt_epilogue (h : f.Plain) :
  labelAt f.allCode epilogueLabel = some (f.entry f.function.body.length)
  := labelAt_of_stands h.nodup_defined f.stands_epilogue

end Code.Frame

end Endmark

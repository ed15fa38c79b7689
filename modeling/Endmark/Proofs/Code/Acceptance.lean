import Endmark.Code.Module
import Endmark.Proofs.Code.Layout
import Endmark.Proofs.Lowering.Scoping

/-!
# Code that can be assembled

The code of a function has no raw text, no scaled register and no name that its instructions do
not have.  When every label is there once and every target is there, the code can be assembled,
and what is left to be linked are names of functions, routines, globals and string constants.
-/

namespace Endmark.Machine

/-! ### Rows of instructions -/

/-- Is the operand without a scaled register? -/
def Mem.isDirect : Mem σ → Bool
  | .base _ index _ => index.isNone
  | .rip _ => true

theorem Encoding.Form.exists_encode {f : Form σ} (h : ∀ m, f.operand = .mem m → m.isDirect) :
  ∃ e, f.encode = .ok e
  := by
  obtain ⟨lead, wide, forceRex, opcode, reg, operand, imm⟩ := f
  cases operand with
  | reg code => exact ⟨_, rfl⟩
  | mem m =>
    cases m with
    | rip target => exact ⟨_, rfl⟩
    | base b index disp =>
      obtain rfl := Option.isNone_iff_eq_none.mp (h _ rfl)
      simp only [encode, address]
      split <;> exact ⟨_, rfl⟩

/-- An instruction has an encoding if its memory operand has no scaled register. -/
theorem Inst.exists_encode {i : Inst σ} (h : ∀ m ∈ i.mem?, m.isDirect) :
  ∃ e, i.encode short = .ok e
  := by
  cases i with
  | load _ m | store m _ | storeImm m _ | storeByte m _ | storeByteImm m _ | loadByte _ m
  | lea _ m | aluLoad _ _ m | aluStore _ m _ | aluStoreImm _ m _ =>
    apply Encoding.Form.exists_encode
    rintro _ ⟨⟩
    exact h m rfl
  | movImm d i =>
    rw [encode]
    split <;> exact ⟨_, rfl⟩
  | _ => exact ⟨_, rfl⟩

/-- The instruction has an encoding, and satisfies `P` in what it refers to. -/
structure Inst.KeepsTo (P : String → Prop) (i : Inst String) : Prop where
  direct : ∀ m ∈ i.mem?, m.isDirect = true
  symbol : ∀ name ∈ i.reference?, P name

/-- Has the instruction an encoding, and does it refer to nothing? -/
def Inst.isClosed (i : Inst String) : Bool :=
  i.mem?.all Mem.isDirect && i.reference?.isNone

theorem Inst.keepsTo_of_isClosed {i : Inst String} (h : i.isClosed) :
  i.KeepsTo P
  := by
  rw [isClosed, Bool.and_eq_true, Option.all_eq_true, Option.isNone_iff_eq_none] at h
  refine ⟨h.1, fun name hname => ?_⟩
  rw [h.2] at hname
  cases hname

open Assembler in
/-- Instructions can be assembled when they have encodings and the labels of the unit that they
refer to are there, no label twice. -/
theorem exists_assemble (hnodup : (defined insts).Nodup) (hkeeps : ∀ i ∈ insts, i.KeepsTo P)
    (hlabels : ∀ name, P name → isUnitLabel name → name ∈ defined insts) :
  ∃ a, assemble insts = .ok a ∧ ∀ r ∈ a.relocations, P r.symbol ∧ r.symbol ∉ defined insts
  := by
  rcases assemble_cases with ⟨err, -, hexplains⟩ | ⟨-, code, relocations, hemit, hok⟩
  · exfalso
    cases err with
    | line => exact hexplains
    | memory fault =>
      obtain ⟨i, hi, hfault⟩ := hexplains
      obtain ⟨e, he⟩ := Inst.exists_encode (hkeeps i hi).direct
      cases hfault.symm.trans he
    | duplicateLabel name =>
      have hcount := List.nodup_iff_count_le_one.mp hnodup name
      have hexplains : 2 ≤ (defined insts).count name := hexplains
      omega
    | undefinedLabel name =>
      obtain ⟨hunit, hmissing, i, hi, htarget⟩ := hexplains
      have href : i.reference? = some name := by
        rw [Inst.reference?, htarget]
        rfl
      exact hmissing (hlabels name ((hkeeps i hi).symbol name href) hunit)
  · refine ⟨_, hok, fun r hr => ?_⟩
    obtain ⟨pieces, hpieces⟩ := exists_listing hemit
    obtain ⟨p, hp, hleft⟩ := exists_leftTo hpieces.leftTo_outside hr
    obtain ⟨hp, hleaves⟩ := List.mem_filter.mp hp
    constructor
    · refine (hkeeps p.inst ?_).symbol r.symbol hleft.symbol
      rw [← map_items insts, ← hpieces.forms, List.map_map]
      exact List.mem_map_of_mem hp
    · rw [Piece.leaves, hleft.symbol, Option.any_some, Option.isNone_iff_eq_none,
        lookup_eq_none_iff_notMem, map_labelsFrom, map_items] at hleaves
      exact hleaves

end Endmark.Machine

namespace Endmark.Code

open Machine (Reg Inst Mem isUnitLabel)
open Machine.Assembler (defined)
open Ir (Instr Operand Place)

/-- Instructions with the given vocabulary can be compiled: there are symbols for all they name,
their distances fit, and there is no raw text. -/
structure Compiles (V : Ir.Vocabulary) (strings : Nat) (P : String → Prop) : Prop where
  global : ∀ x, V.global x → P (globalSymbol x)
  string : ∀ index < strings, P (stringSymbol index)
  callee : ∀ name, V.callee name → P name
  alloc : P allocRoutine
  free : P freeRoutine
  offset : ∀ o, V.offset o → Number.fitsSigned 32 o.toInt = true
  raw : ¬ V.raw

theorem Compiles.mono (h : Compiles V strings P) (hPQ : ∀ name, P name → Q name) :
  Compiles V strings Q
  where
  global x hx := hPQ _ (h.global x hx)
  string index hindex := hPQ _ (h.string index hindex)
  callee name hname := hPQ _ (h.callee name hname)
  alloc := hPQ _ h.alloc
  free := hPQ _ h.free
  offset := h.offset
  raw := h.raw

/-- Every instruction has an encoding and satisfies `P` in what it refers to. -/
def KeepTo (P : String → Prop) (insts : Insts) : Prop :=
  ∀ i ∈ insts, i.KeepsTo P

theorem keepTo_nil :
  KeepTo P []
  := List.forall_mem_nil _

theorem KeepTo.append (h : KeepTo P insts) (h' : KeepTo P insts') :
  KeepTo P (insts ++ insts')
  := List.forall_mem_append.mpr ⟨h, h'⟩

theorem keepTo_flatMap {α : Type} {block : α → Insts} {l : List α}
    (h : ∀ a ∈ l, KeepTo P (block a)) :
  KeepTo P (l.flatMap block)
  := by
  intro i hi
  obtain ⟨a, ha, hi⟩ := List.mem_flatMap.mp hi
  exact h a ha i hi

/-- Instructions that refer to nothing keep to anything. -/
theorem keepTo_of_all (h : insts.all Inst.isClosed) :
  KeepTo P insts
  := fun i hi => Inst.keepsTo_of_isClosed (List.all_eq_true.mp h i hi)

theorem keepTo_singleton (hdirect : ∀ m ∈ i.mem?, m.isDirect)
    (hsymbol : ∀ name ∈ i.reference?, P name) :
  KeepTo P [i]
  := by
  intro j hj
  rw [List.mem_singleton.mp hj]
  exact ⟨hdirect, hsymbol⟩

theorem keepTo_jmp (h : P name) :
  KeepTo P [.jmp name]
  := by
  apply keepTo_singleton
  · rintro _ ⟨⟩
  · rintro _ ⟨⟩
    exact h

theorem keepTo_jcc {cond : Machine.Cond} (h : P name) :
  KeepTo P [.jcc cond name]
  := by
  apply keepTo_singleton
  · rintro _ ⟨⟩
  · rintro _ ⟨⟩
    exact h

namespace Frame

variable {strings : Nat} (f : Frame)

variable {counts : Counts} {body : List Instr}

section

variable (hV : Compiles V strings P)

include hV

/-- Loading an operand refers to what stands for it only. -/
theorem keepTo_load (r : Reg) (h : o.Uses V strings) :
  KeepTo P (f.load r o)
  := by
  cases o with
  | var name =>
    rw [load]
    split
    · split
      · exact keepTo_nil
      · exact keepTo_of_all rfl
    · exact keepTo_of_all rfl
    · exact keepTo_of_all rfl
  | global name =>
    apply keepTo_singleton
    · rintro _ ⟨⟩
      rfl
    · rintro _ ⟨⟩
      exact hV.global name h
  | str index =>
    apply keepTo_singleton
    · rintro _ ⟨⟩
      rfl
    · rintro _ ⟨⟩
      exact hV.string index h
  | int | float | bool => exact keepTo_of_all rfl

theorem keepTo_store {r : Reg} (h : dst.Uses V) :
  KeepTo P (f.store dst r)
  := by
  cases dst with
  | var name =>
    rw [store]
    split
    · split
      · exact keepTo_nil
      · exact keepTo_of_all rfl
    · exact keepTo_of_all rfl
    · exact keepTo_nil
  | global name =>
    apply keepTo_singleton
    · rintro _ ⟨⟩
      rfl
    · rintro _ ⟨⟩
      exact hV.global name h

theorem keepTo_storeResult {dst : Option Place} (h : ∀ p ∈ dst, p.Uses V) :
  KeepTo P ((dst.map (f.store · .rax)).getD [])
  := by
  cases dst with
  | none => exact keepTo_nil
  | some dst => exact f.keepTo_store hV (h dst rfl)

/-- A call refers to the callee and its arguments only. -/
theorem keepTo_call (hcallee : P callee) (h : ∀ o ∈ args, o.Uses V strings) :
  KeepTo P (f.call callee args)
  := by
  have hstack : KeepTo P ((args.drop Reg.arguments.length).reverse.flatMap
      fun a => f.load .rax a ++ [.push .rax]) := by
    apply keepTo_flatMap
    intro a ha
    have ha := List.mem_of_mem_drop (List.mem_reverse.mp ha)
    exact (f.keepTo_load hV .rax (h a ha)).append (keepTo_of_all rfl)
  have hcall : KeepTo P [.call callee] := by
    apply keepTo_singleton
    · rintro _ ⟨⟩
    · rintro _ ⟨⟩
      exact hcallee
  refine (((KeepTo.append ?_ hstack).append ?_).append hcall).append ?_
  · split <;> exact keepTo_of_all rfl
  · apply keepTo_flatMap
    rintro ⟨a, r⟩ ha
    exact f.keepTo_load hV r (h a (List.of_mem_zip ha).1)
  · split <;> exact keepTo_of_all rfl

omit hV in
theorem keepTo_intBinary (h : op = .floorDiv ∨ op = .mod → P done) :
  KeepTo P (intBinary done op)
  := by
  have hround (hdone : P done) {correction : Inst String} (hclosed : correction.isClosed) :
      KeepTo P (roundDown done correction) := by
    have htest : KeepTo P [.test .rdx .rdx] := keepTo_of_all rfl
    have hsigns : KeepTo P [.mov .r10 .rdx, .alu .xor .r10 .rcx] := keepTo_of_all rfl
    have hcorrection : KeepTo P [correction, .label done] := by
      apply keepTo_of_all
      simp only [List.all_cons, hclosed]
      rfl
    exact (htest.append (keepTo_jcc hdone)).append
      ((hsigns.append (keepTo_jcc hdone)).append hcorrection)
  cases op with
  | floorDiv => exact (keepTo_of_all rfl).append (hround (h (.inl rfl)) rfl)
  | mod =>
    exact ((keepTo_of_all rfl).append (hround (h (.inr rfl)) rfl)).append (keepTo_of_all rfl)
  | _ => exact keepTo_of_all rfl

/-- An operation that the type supports has code. -/
theorem exists_binary (hsupports : op.supports ty) (hlhs : lhs.Uses V strings)
    (hrhs : rhs.Uses V strings) (hlabel : needsLabel op ty → P (codeLabel number)) :
  ∃ insts, f.binary number op ty lhs rhs = .ok insts ∧ KeepTo P insts
  := by
  have hoperands := (f.keepTo_load hV .rax hlhs).append (f.keepTo_load hV .rcx hrhs)
  rw [binary]
  split
  case isTrue hty =>
    subst hty
    have hfloat : ∃ insts, floatBinary? op = some insts ∧ insts.all Inst.isClosed := by
      cases op <;> first | exact ⟨_, rfl, rfl⟩ | cases hsupports
    obtain ⟨insts, hinsts, hclosed⟩ := hfloat
    rw [hinsts]
    exact ⟨_, rfl, hoperands.append (keepTo_of_all hclosed)⟩
  case isFalse hty =>
    refine ⟨_, rfl, hoperands.append (keepTo_intBinary fun hop => hlabel ?_)⟩
    rcases hop with rfl | rfl <;> simp [needsLabel, hty]

omit hV in
theorem keepTo_unary {op : Ir.UnOp} {ty : Ir.WordType} :
  KeepTo P (unary op ty)
  := by
  cases op with
  | neg =>
    rw [unary]
    split <;> exact keepTo_of_all rfl
  | _ => exact keepTo_of_all rfl

theorem keepTo_branch {cond : Operand}
    (hcond : cond.Uses V strings) (htrue : P (labelFor ifTrue)) (hfalse : P (labelFor ifFalse)) :
  KeepTo P (f.branch cond ifTrue ifFalse rest)
  := by
  have hother : KeepTo P
      (if nextLabel? rest = some ifFalse then [] else [.jmp (labelFor ifFalse)]) := by
    split
    · exact keepTo_nil
    · exact keepTo_jmp hfalse
  refine ((f.keepTo_load hV .rax hcond).append (keepTo_of_all rfl)).append ?_
  split
  · exact keepTo_jcc hfalse
  · exact (keepTo_jcc htrue).append hother

theorem exists_displacement (h : V.offset o) :
  ∃ disp, displacement o = .ok disp
  := by
  rw [displacement, if_pos (hV.offset o h)]
  exact ⟨_, rfl⟩

/-- Every instruction can be compiled, and keeps to what it names. -/
theorem exists_instr (h : i.Uses V strings) (htargets : ∀ name ∈ i.targets, P (labelFor name))
    (hlabels : ∀ name ∈ labels counts i, P name) (hend : P epilogueLabel) :
  ∃ insts, f.instr counts i rest = .ok insts ∧ KeepTo P insts
  := by
  cases i with
  | label name => exact ⟨_, rfl, keepTo_of_all rfl⟩
  | move dst ty src => exact ⟨_, rfl, (f.keepTo_load hV _ h.2).append (f.keepTo_store hV h.1)⟩
  | binary dst op ty lhs rhs =>
    obtain ⟨hdst, hsupports, hlhs, hrhs⟩ := h
    have hlabel (hneeds : needsLabel op ty) : P (codeLabel counts.labels) := by
      apply hlabels
      rw [labels, if_pos hneeds]
      exact List.mem_singleton_self _
    obtain ⟨insts, hinsts, hkeep⟩ := f.exists_binary hV hsupports hlhs hrhs hlabel
    rw [instr, hinsts]
    exact ⟨_, rfl, hkeep.append (f.keepTo_store hV hdst)⟩
  | unary dst op ty src =>
    exact ⟨_, rfl, ((f.keepTo_load hV _ h.2).append keepTo_unary).append (f.keepTo_store hV h.1)⟩
  | call dst callee args =>
    exact ⟨_, rfl, (f.keepTo_call hV (hV.callee callee h.2.1) h.2.2).append
      (f.keepTo_storeResult hV h.1)⟩
  | branch cond ifTrue ifFalse =>
    exact ⟨_, rfl, f.keepTo_branch hV h.1 (htargets _ (by simp [Instr.targets]))
      (htargets _ (by simp [Instr.targets]))⟩
  | jump target =>
    refine ⟨_, rfl, ?_⟩
    split
    · exact keepTo_nil
    · exact keepTo_jmp (htargets _ (by simp [Instr.targets]))
  | load dst ty base offset =>
    obtain ⟨disp, hdisp⟩ := exists_displacement hV h.2.2
    rw [instr, hdisp]
    exact ⟨_, rfl, ((f.keepTo_load hV _ h.2.1).append (keepTo_of_all rfl)).append
      (f.keepTo_store hV h.1)⟩
  | store ty base offset value =>
    obtain ⟨disp, hdisp⟩ := exists_displacement hV h.2.1
    rw [instr, hdisp]
    exact ⟨_, rfl, ((f.keepTo_load hV _ h.1).append (f.keepTo_load hV _ h.2.2)).append
      (keepTo_of_all rfl)⟩
  | alloc dst size =>
    refine ⟨_, rfl, (f.keepTo_call hV hV.alloc fun o ho => ?_).append (f.keepTo_store hV h.1)⟩
    rw [List.mem_singleton.mp ho]
    exact h.2
  | free block =>
    refine ⟨_, rfl, f.keepTo_call hV hV.free fun o ho => ?_⟩
    rw [List.mem_singleton.mp ho]
    exact h
  | ret value =>
    refine ⟨_, rfl, .append ?_ ?_⟩
    · cases value with
      | none => exact keepTo_of_all rfl
      | some v => exact f.keepTo_load hV .rax (h v rfl)
    · split
      · exact keepTo_nil
      · exact keepTo_jmp hend
  | raw dst text span => exact absurd h.1 hV.raw

/-- Every body can be compiled, and keeps to what it names. -/
theorem body_keepTo (h : ∀ i ∈ body, i.Uses V strings)
    (htargets : ∀ name ∈ body.flatMap Instr.targets, P (labelFor name))
    (hlabels : ∀ name ∈ bodyLabels counts body, P name) (hend : P epilogueLabel) :
  (f.body counts body).2 = [] ∧ KeepTo P (f.body counts body).1
  := by
  induction body generalizing counts with
  | nil => exact ⟨rfl, keepTo_nil⟩
  | cons i rest ih =>
    rw [List.forall_mem_cons] at h
    rw [List.flatMap_cons, List.forall_mem_append] at htargets
    rw [bodyLabels, List.forall_mem_append] at hlabels
    obtain ⟨first, hfirst, hkeep⟩ := f.exists_instr hV h.1 htargets.1 hlabels.1 hend
    obtain ⟨hfaults, hrest⟩ := ih h.2 htargets.2 hlabels.2
    rw [body, hfirst]
    exact ⟨hfaults, hkeep.append hrest⟩

end

theorem keepTo_param :
  KeepTo P (f.param k name)
  := by
  rw [param]
  split
  · exact keepTo_nil
  · simp only
    split <;> split <;> exact keepTo_of_all rfl

theorem keepTo_prologue :
  KeepTo P f.prologue
  := by
  refine .append (((keepTo_of_all rfl).append ?_).append ?_) ?_
  · apply keepTo_of_all
    rw [List.all_map]
    exact List.all_eq_true.mpr fun _ _ => rfl
  · split <;> exact keepTo_of_all rfl
  · apply keepTo_flatMap
    rintro ⟨p, k⟩ -
    exact f.keepTo_param

theorem keepTo_epilogue :
  KeepTo P f.epilogue
  := by
  refine ((keepTo_of_all rfl).append ?_).append (keepTo_of_all rfl)
  apply keepTo_of_all
  rw [List.all_map]
  exact List.all_eq_true.mpr fun _ _ => rfl

/-- All machine labels of the function. -/
def allLabels : List String :=
  [f.function.name] ++ bodyLabels {} f.function.body ++ [epilogueLabel]

/-- Every function can be compiled to instructions, and keeps to what it names. -/
theorem exists_code (hV : Compiles V strings P) (h : f.function.Uses V strings)
    (htargets : ∀ name ∈ f.function.body.flatMap Instr.targets, P (labelFor name))
    (hlabels : ∀ name ∈ f.allLabels, P name) :
  ∃ insts, f.code = .ok insts ∧ KeepTo P insts ∧ defined insts = f.allLabels
  := by
  simp only [allLabels, List.forall_mem_append, List.forall_mem_singleton] at hlabels
  obtain ⟨hfaults, hbody⟩ := f.body_keepTo hV h.code htargets hlabels.1.2 hlabels.2
  have hraw : ∀ i ∈ f.function.body, i.isRaw = false := by
    intro i hi
    cases i with
    | raw => exact absurd (h.code _ hi).1 hV.raw
    | _ => rfl
  refine ⟨f.prologue ++ (f.body {} f.function.body).1 ++ f.epilogue, ?_,
    (f.keepTo_prologue.append hbody).append f.keepTo_epilogue, ?_⟩
  · rw [code]
    simp [hfaults]
  · rw [defined, List.filterMap_append, List.filterMap_append]
    rw [allLabels, ← f.defined_prologue, ← f.defined_body hraw hfaults, ← f.defined_epilogue]
    rfl

/-! ### Labels -/

theorem mem_bodyLabels_of_mem (h : name ∈ Ir.labelNames body) :
  labelFor name ∈ bodyLabels counts body
  := by
  induction body generalizing counts with
  | nil => cases h
  | cons i rest ih =>
    rw [bodyLabels, List.mem_append]
    obtain ⟨j, hj, hname⟩ := List.mem_filterMap.mp h
    rcases List.mem_cons.mp hj with rfl | hj
    · left
      cases j with
      | label =>
        cases hname
        exact List.mem_singleton_self _
      | _ => cases hname
    · exact .inr (ih (List.mem_filterMap.mpr ⟨j, hj, hname⟩))

theorem counts_le_after {i : Instr} :
  counts.labels ≤ (counts.after i).labels
  := by
  cases i with
  | binary =>
    rw [Counts.after]
    split
    · exact Nat.le_succ _
    · exact le_rfl
  | _ => exact le_rfl

/-- A machine label of a body comes from a label of it, or from an operation that has a number of
its own. -/
theorem of_mem_bodyLabels (h : name ∈ bodyLabels counts body) :
  (∃ x ∈ Ir.labelNames body, name = labelFor x) ∨
    ∃ number, counts.labels ≤ number ∧ name = codeLabel number
  := by
  induction body generalizing counts with
  | nil => cases h
  | cons i rest ih =>
    rw [bodyLabels, List.mem_append] at h
    rcases h with h | h
    · cases i with
      | label x =>
        left
        refine ⟨x, ?_, List.mem_singleton.mp h⟩
        simp [Ir.labelNames]
      | binary dst op ty lhs rhs =>
        right
        rw [labels] at h
        split at h
        · exact ⟨_, le_rfl, List.mem_singleton.mp h⟩
        · cases h
      | _ => cases h
    · rcases ih h with ⟨x, hx, hname⟩ | ⟨number, hle, hname⟩
      · left
        obtain ⟨j, hj, hlabel⟩ := List.mem_filterMap.mp hx
        exact ⟨x, List.mem_filterMap.mpr ⟨j, List.mem_cons_of_mem _ hj, hlabel⟩, hname⟩
      · exact .inr ⟨number, counts_le_after.trans hle, hname⟩

/-- The first character behind the point of a machine label. -/
def mark? (name : String) : Option Char :=
  name.toList[1]?

theorem mark?_labelFor (name : String) :
  mark? (labelFor name) = name.toList.head?
  := by
  simp [mark?, labelFor, List.head?_eq_getElem?]

theorem mark?_codeLabel :
  mark? (codeLabel number) = some 'c'
  := by
  simp [mark?, codeLabel, toString]

theorem codeLabel_inj (h : codeLabel k = codeLabel n) :
  k = n
  := by
  simp only [codeLabel, String.append_right_inj] at h
  exact Nat.repr_inj.mp (by exact h)

/-- No label of a body is repeated, if none looks like one of the code. -/
theorem nodup_bodyLabels (h : (Ir.labelNames body).Nodup)
    (hmarks : ∀ name ∈ Ir.labelNames body, name.toList.head? ≠ some 'c') :
  (bodyLabels counts body).Nodup
  := by
  induction body generalizing counts with
  | nil => exact List.nodup_nil
  | cons i rest ih =>
    have hrest : (Ir.labelNames rest).Nodup ∧
        ∀ name ∈ Ir.labelNames rest, name.toList.head? ≠ some 'c' := by
      have hsub : (Ir.labelNames rest).Sublist (Ir.labelNames (i :: rest)) :=
        (List.sublist_cons_self i rest).filterMap _
      exact ⟨h.sublist hsub, fun name hname => hmarks name (hsub.subset hname)⟩
    rw [bodyLabels]
    cases i with
    | label x =>
      refine List.nodup_cons.mpr ⟨fun hmem => ?_, ih hrest.1 hrest.2⟩
      rcases of_mem_bodyLabels hmem with ⟨y, hy, hname⟩ | ⟨number, -, hname⟩
      · rw [labelFor_injective hname] at h
        exact (List.nodup_cons.mp h).1 hy
      · have hmark := mark?_labelFor x
        rw [hname, mark?_codeLabel] at hmark
        exact hmarks x (by simp [Ir.labelNames]) hmark.symm
    | binary dst op ty lhs rhs =>
      rw [labels]
      split
      case isTrue hneeds =>
        refine List.nodup_cons.mpr ⟨fun hmem => ?_, ih hrest.1 hrest.2⟩
        rcases of_mem_bodyLabels hmem with ⟨y, hy, hname⟩ | ⟨number, hle, hname⟩
        · have hmark := mark?_labelFor y
          rw [← hname, mark?_codeLabel] at hmark
          exact hrest.2 y hy hmark.symm
        · rw [← codeLabel_inj hname, Counts.after, if_pos hneeds] at hle
          exact absurd hle (Nat.not_succ_le_self _)
      case isFalse => exact ih hrest.1 hrest.2
    | _ => exact ih hrest.1 hrest.2

theorem isUnitLabel_codeLabel {number : Nat} :
  isUnitLabel (codeLabel number)
  := by
  simp [isUnitLabel, codeLabel, toString]

theorem isUnitLabel_of_mem_bodyLabels (h : name ∈ bodyLabels counts body) :
  isUnitLabel name
  := by
  rcases of_mem_bodyLabels h with ⟨x, -, rfl⟩ | ⟨number, -, rfl⟩
  · exact isUnitLabel_labelFor x
  · exact isUnitLabel_codeLabel

/-- The labels of a function differ from each other when its own labels start with a capital
`L`. -/
theorem nodup_allLabels (hname : isUnitLabel f.function.name = false)
    (h : (Ir.labelNames f.function.body).Nodup)
    (hmarks : ∀ name ∈ Ir.labelNames f.function.body, name.toList.head? = some 'L') :
  f.allLabels.Nodup
  := by
  have hbody : (bodyLabels {} f.function.body).Nodup := by
    apply nodup_bodyLabels h
    intro name hmem
    rw [hmarks name hmem]
    decide
  rw [allLabels, List.append_assoc, List.singleton_append, List.nodup_cons, List.nodup_append]
  refine ⟨?_, hbody, List.nodup_singleton _, ?_⟩
  · intro hmem
    have hunit : isUnitLabel f.function.name := by
      rcases List.mem_append.mp hmem with hmem | hmem
      · exact isUnitLabel_of_mem_bodyLabels hmem
      · rw [List.mem_singleton.mp hmem]
        decide
    cases hname.symm.trans hunit
  · rintro name hmem _ hend rfl
    obtain rfl := List.mem_singleton.mp hend
    have hmark : mark? epilogueLabel = some 'e' := by decide
    rcases of_mem_bodyLabels hmem with ⟨x, hx, heq⟩ | ⟨number, -, heq⟩
    · rw [heq, mark?_labelFor, hmarks x hx] at hmark
      cases hmark
    · rw [heq, mark?_codeLabel] at hmark
      cases hmark

end Frame

/-! ### Functions and modules -/

/-- What is demanded of a function that can be compiled. -/
structure Sound (V : Ir.Vocabulary) (strings : Nat) (g : Ir.Function) : Prop where
  uses : g.Uses V strings
  labelled : Ir.Labelled g.body
  marks : ∀ name ∈ Ir.labelNames g.body, name.toList.head? = some 'L'
  name : isUnitLabel g.name = false

/-- A function can be compiled, and what is left to be linked are the symbols for what it
names. -/
theorem exists_compileFunction (hV : Compiles V m.strings.length P)
    (hP : ∀ name, P name → isUnitLabel name = false)
    (h : Sound V m.strings.length g) :
  ∃ c, compileFunction m g = .ok c ∧ c.name = g.name ∧ ∀ r ∈ c.relocations, P r.symbol
  := by
  let f : Frame :=
    ⟨g, .ofFunction Allocation.registers g, m.globals.map (·.name), m.strings.length⟩
  have htargets : ∀ name ∈ g.body.flatMap Instr.targets, labelFor name ∈ f.allLabels := by
    intro name hname
    obtain ⟨i, hi, htarget⟩ := List.mem_flatMap.mp hname
    have hbody : labelFor name ∈ Frame.bodyLabels {} g.body :=
      Frame.mem_bodyLabels_of_mem (h.labelled.targets i hi htarget)
    simp [Frame.allLabels, f, hbody]
  obtain ⟨insts, hcode, hkeep, hdefined⟩ := f.exists_code
    (P := fun name => P name ∨ name ∈ f.allLabels)
    (hV.mono fun _ => .inl) h.uses (fun name hname => .inr (htargets name hname)) (fun _ => .inr)
  have hnodup : (defined insts).Nodup := by
    rw [hdefined]
    exact f.nodup_allLabels h.name h.labelled.nodup h.marks
  have hunit : ∀ name, P name ∨ name ∈ f.allLabels → isUnitLabel name →
      name ∈ defined insts := by
    rintro name (hname | hname) hlabel
    · cases (hP name hname).symm.trans hlabel
    · rwa [hdefined]
  obtain ⟨a, ha, hrelocations⟩ := Machine.exists_assemble hnodup hkeep hunit
  refine ⟨⟨g.name, insts, a.code, a.relocations⟩, ?_, rfl, ?_⟩
  · change f.code.bind _ = _
    rw [hcode]
    simp only [Except.bind, ha]
    rfl
  · intro r hr
    obtain ⟨hsymbol, hmissing⟩ := hrelocations r hr
    rw [hdefined] at hmissing
    exact hsymbol.resolve_right hmissing

/-- If each part compiles, so do all. -/
theorem exists_gather {α : Type} {Q : α → β → Prop} {compile : α → Except (List Diagnostic) β}
    {l : List α} (h : ∀ a ∈ l, ∃ b, compile a = .ok b ∧ Q a b) :
  ∃ values, gather (l.map compile) = .ok values ∧ List.Forall₂ Q l values
  := by
  induction l with
  | nil => exact ⟨[], rfl, .nil⟩
  | cons a rest ih =>
    rw [List.forall_mem_cons] at h
    obtain ⟨b, hb, hQ⟩ := h.1
    obtain ⟨values, hvalues, hrest⟩ := ih h.2
    refine ⟨b :: values, ?_, .cons hQ hrest⟩
    rw [List.map_cons, hb, gather, hvalues]
    rfl

/-- A module can be compiled if its functions can and its entry is one of them. -/
theorem exists_compile (hV : Compiles V m.strings.length P)
    (hP : ∀ name, P name → isUnitLabel name = false)
    (h : ∀ g ∈ m.functions, Sound V m.strings.length g)
    (hentry : m.entry ∈ m.functions.map (·.name)) :
  ∃ functions, functions.map (·.name) = m.functions.map (·.name) ∧
    (∀ f ∈ functions, ∀ r ∈ f.relocations, P r.symbol) ∧
    compile m = .ok ⟨functions, (dataParts m).flatMap (·.2), symbolsFrom 0 [] (dataParts m),
      m.entry, m.init⟩
  := by
  obtain ⟨functions, hgather, hall⟩ := exists_gather fun g hg =>
    exists_compileFunction hV hP (h g hg)
  refine ⟨functions, ?_, ?_, ?_⟩
  · generalize m.functions = sources at hall
    clear hgather
    induction hall with
    | nil => rfl
    | cons hfirst _ ih => rw [List.map_cons, List.map_cons, hfirst.1, ih]
  · generalize m.functions = sources at hall
    clear hgather
    induction hall with
    | nil => exact List.forall_mem_nil _
    | cons hfirst _ ih => exact List.forall_mem_cons.mpr ⟨hfirst.2, ih⟩
  · have hany : m.functions.any (·.name == m.entry) := by
      obtain ⟨g, hg, hname⟩ := List.mem_map.mp hentry
      exact List.any_eq_true.mpr ⟨g, hg, by simpa using hname⟩
    rw [compile, if_pos hany, hgather]
    rfl

end Endmark.Code

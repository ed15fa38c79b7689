import Endmark.Proofs.Code.Convention
import Endmark.Proofs.Code.Layout

/-!
# Code preserves meaning

The code of a plain function returns what the function returns.  At the code of an instruction,
each variable that is live before the instruction and has been written is in its place.  That
other variables may have lost their places does not matter, since they are written before they
are read.
-/

namespace Endmark.Code.Frame

open Ir
open List Option Bool
open Machine (Reg Inst State Memory Cond Goes Stands straight? straight?_append_of
  holds_tested)
open Machine.Memory (Lawful load?)
open Ir.Liveness (LiveAt Leads liveAt_of_read leads_succ leads_target)

variable [Memory μ] {f : Frame} {s₀ s : State μ}

/-- Before the instruction with the given number, the variables that matter are in their
places. -/
structure Matches (f : Frame) (s₀ : State μ) (k : Nat) (w : Words) (s : State μ) : Prop where
  inside : f.Inside s₀ s
  holds : ∀ x v, LiveAt f.function.body x k → w x = some v →
    ∃ loc, f.allocation.location? x = some loc ∧ f.Holds (s₀.get .rsp) s v.toUInt64 loc

variable {v : Int64}

/-- Control goes on and nothing is written. -/
theorem Matches.goes (h : f.Matches s₀ k w s)
    (hi : f.function.body[k]? = some i) (hwrites : i.writes = [])
    (hj : j < f.function.body.length → Leads f.function.body k j) :
  f.Matches s₀ j w s
  := by
  refine ⟨h.inside, ?_⟩
  intro x v hlive hv
  apply h.holds x v _ hv
  apply hlive.before (hj hlive.lt_length) hi
  rw [hwrites]
  exact not_mem_nil

section

variable (hserves : f.Served)

include hserves

theorem Matches.scratch (h : f.Matches s₀ k w s) (hs' : Scratch s s') :
  f.Matches s₀ k w s'
  := by
  refine ⟨h.inside.scratch hs', ?_⟩
  intro x v hlive hv
  obtain ⟨loc, hloc, hholds⟩ := h.holds x v hlive hv
  exact ⟨loc, hloc, hholds.scratch hserves hloc hs'⟩

/-- Two variables that an instruction needs are in different places. -/
theorem location?_ne (hne : x ≠ y) (hx : Liveness.Needs f.function.body x k)
    (hy : Liveness.Needs f.function.body y k) :
  f.allocation.location? x ≠ f.allocation.location? y
  := by
  obtain ⟨i, hi, rfl, hcovers⟩ := exists_interval (mem_positions.mpr (.inr ⟨k, rfl, hx⟩))
  obtain ⟨j, hj, rfl, hcovers'⟩ := exists_interval (mem_positions.mpr (.inr ⟨k, rfl, hy⟩))
  exact hserves.apart i hi j hj hne _ hcovers hcovers'

theorem exists_location (hx : Liveness.Needs f.function.body x k) :
  ∃ loc, f.allocation.location? x = some loc
  := by
  obtain ⟨i, hi, hvar, -⟩ := exists_interval (mem_positions.mpr (.inr ⟨k, rfl, hx⟩))
  exact (hserves.located x).mpr ⟨i, hi, hvar⟩

/-- Control goes on after a variable has been written. -/
theorem Matches.put (h : f.Matches s₀ k w s) (hi : f.function.body[k]? = some i)
    (hwrites : i.writes = [x]) (hterminator : i.isTerminator = false)
    (hs' : f.Kept s₀ s x v.toUInt64 s') :
  f.Matches s₀ (k + 1) (Function.update w x (some v)) s'
  := by
  have hneeds : Liveness.Needs f.function.body x k :=
    ⟨i, hi, .inr (.inl (by rw [hwrites]; exact mem_singleton_self x))⟩
  refine ⟨hs'.inside, ?_⟩
  intro y u hlive hu
  by_cases hy : y = x
  · subst hy
    rw [Function.update_self] at hu
    cases hu
    obtain ⟨loc, hloc⟩ := exists_location hserves hneeds
    exact ⟨loc, hloc, hs'.holds loc hloc⟩
  · rw [Function.update_of_ne hy] at hu
    have hbefore : LiveAt f.function.body y k := by
      apply hlive.before (leads_succ hi hterminator hlive.lt_length) hi
      rw [hwrites, mem_singleton]
      exact hy
    obtain ⟨loc, hloc, hholds⟩ := h.holds y u hbefore hu
    refine ⟨loc, hloc, hs'.others y loc _ hloc ?_ hholds⟩
    rw [← hloc]
    exact location?_ne hserves (symm hy) hneeds ⟨i, hi, .inr (.inr (.inl hbefore))⟩

/-! ### Single instructions -/

variable (hroom : f.Room s₀) (place : String → UInt64)

include hroom

/-- Operands with a value are in their places. -/
theorem Matches.reads (h : f.Matches s₀ k w s) (hi : f.function.body[k]? = some i)
    (ho : o ∈ i.operands) (hv : o.value? w = some v) :
  f.Reads place s v.toUInt64 o
  := by
  cases o with
  | var x =>
    obtain ⟨loc, hloc, hholds⟩ := h.holds x v (by
      apply liveAt_of_read hi
      rw [Instr.reads, mem_append, mem_filterMap]
      exact .inl ⟨_, ho, rfl⟩) hv
    rw [Reads, hloc]
    cases loc with
    | reg r => exact hholds
    | slot j =>
      simp only [address_slot h.inside hroom ((hserves.slots j).mp ⟨x, hloc⟩)]
      exact hholds
  | int value =>
    cases hv
    rfl
  | bool value =>
    cases hv
    cases value <;> rfl
  | _ => cases hv

/-- An operand is loaded into a register for intermediate results. -/
theorem Matches.exists_loaded (h : f.Matches s₀ k w s) (hi : f.function.body[k]? = some i)
    (ho : o ∈ i.operands) (hv : o.value? w = some v)
    (hr : r ∈ [.rax, .rcx]) :
  ∃ s', straight? place (f.load r o) s = some s' ∧ s'.get r = v.toUInt64 ∧ Leaves [r] s s' ∧
    f.Matches s₀ k w s'
  := by
  obtain ⟨s', hs', hvalue, hleaves⟩ := exists_load (h.reads hserves hroom place hi ho hv) r
  refine ⟨s', hs', hvalue, hleaves, h.scratch hserves (hleaves.mono ?_)⟩
  simpa using hr

variable [Lawful μ]

/-- A value in `rax` is written to a variable. -/
theorem Matches.exists_written (h : f.Matches s₀ k w s) (hi : f.function.body[k]? = some i)
    (hwrites : i.writes = [x]) (hterminator : i.isTerminator = false)
    (hv : s.get .rax = v.toUInt64) :
  ∃ s', straight? place (f.store (.var x) .rax) s = some s' ∧
    f.Matches s₀ (k + 1) (Function.update w x (some v)) s'
  := by
  obtain ⟨s', hs', hkept⟩ := exists_kept hserves h.inside hroom
  rw [hv] at hkept
  exact ⟨s', hs', h.put hserves hi hwrites hterminator hkept⟩

/-- The code of a move keeps words and registers matched. -/
theorem Matches.move (h : f.Matches s₀ k w s)
    (hi : f.function.body[k]? = some (.move (.var x) ty src)) (hv : src.value? w = some v) :
  ∃ s', straight? place (f.instrCode (.move (.var x) ty src) rest) s = some s' ∧
    f.Matches s₀ (k + 1) (Function.update w x (some v)) s'
  := by
  cases hreg : f.reg? (.var x) with
  | some d =>
    -- the value is loaded right into the register of the variable
    have hloc : f.allocation.location? x = some (.reg d) := by
      rw [reg?] at hreg
      split at hreg <;> cases hreg
      assumption
    have hcode : f.instrCode (.move (.var x) ty src) rest = f.load d src := by
      simp only [instrCode, instr, hreg, store, hloc]
      simp
    obtain ⟨s', hs', hvalue, hleaves⟩ :=
      exists_load (h.reads hserves hroom place hi (.head _) hv) d
    rw [hcode]
    exact ⟨s', hs', h.put hserves hi rfl rfl (.leaves hserves h.inside hloc hvalue hleaves)⟩
  | none =>
    have hcode : f.instrCode (.move (.var x) ty src) rest =
        f.load .rax src ++ f.store (.var x) .rax := by
      simp only [instrCode, instr, hreg]
      rfl
    obtain ⟨s₁, hs₁, hvalue, -, h₁⟩ := h.exists_loaded hserves hroom place hi (.head _) hv (.head _)
    obtain ⟨s', hs', h'⟩ := h₁.exists_written hserves hroom place hi rfl rfl hvalue
    rw [hcode]
    exact ⟨s', straight?_append_of hs₁ hs', h'⟩

/-- So does that of an operation on two words. -/
theorem Matches.binary (h : f.Matches s₀ k w s)
    (hi : f.function.body[k]? = some (.binary (.var x) op ty lhs rhs))
    (hplain : (Instr.binary (.var x) op ty lhs rhs).isPlain) (ha : lhs.value? w = some a)
    (hb : rhs.value? w = some b) (hv : op.value? a b = some v) :
  ∃ s', straight? place (f.instrCode (.binary (.var x) op ty lhs rhs) rest) s = some s' ∧
    f.Matches s₀ (k + 1) (Function.update w x (some v)) s'
  := by
  simp only [Instr.isPlain, and_eq_true, bne_iff_ne] at hplain
  obtain ⟨⟨⟨hop, hty⟩, -⟩, -⟩ := hplain
  have hcode : f.instrCode (.binary (.var x) op ty lhs rhs) rest =
      f.load .rax lhs ++ f.load .rcx rhs ++ intBinary (codeLabel 0) op ++
        f.store (.var x) .rax := by
    simp only [instrCode, instr, Frame.binary, hty]
    rfl
  obtain ⟨s₁, hs₁, hrax, -, h₁⟩ := h.exists_loaded hserves hroom place hi (.head _) ha (.head _)
  obtain ⟨s₂, hs₂, hrcx, hleaves, h₂⟩ :=
    h₁.exists_loaded hserves hroom place hi (.tail _ (.head _)) hb (.tail _ (.head _))
  obtain ⟨s₃, hs₃, hvalue, hscratch⟩ := exists_intBinary place hop hv
    ((hleaves.get .rax (by decide)).trans hrax) hrcx
  obtain ⟨s', hs', h'⟩ := (h₂.scratch hserves hscratch).exists_written hserves hroom place hi rfl rfl
    hvalue
  rw [hcode]
  exact ⟨s', straight?_append_of (straight?_append_of (straight?_append_of hs₁ hs₂) hs₃) hs', h'⟩

/-- So does that of an operation on one word. -/
theorem Matches.unary (h : f.Matches s₀ k w s)
    (hi : f.function.body[k]? = some (.unary (.var x) op ty src))
    (hplain : (Instr.unary (.var x) op ty src).isPlain) (ha : src.value? w = some a)
    (hv : op.value? a = some v) :
  ∃ s', straight? place (f.instrCode (.unary (.var x) op ty src) rest) s = some s' ∧
    f.Matches s₀ (k + 1) (Function.update w x (some v)) s'
  := by
  simp only [Instr.isPlain, and_eq_true] at hplain
  obtain ⟨s₁, hs₁, hrax, -, h₁⟩ := h.exists_loaded hserves hroom place hi (.head _) ha (.head _)
  obtain ⟨s₂, hs₂, hvalue, hscratch⟩ := exists_unary place hplain.1 hv hrax
  obtain ⟨s', hs', h'⟩ := (h₁.scratch hserves hscratch).exists_written hserves hroom place hi rfl rfl
    hvalue
  exact ⟨s', straight?_append_of (straight?_append_of hs₁ hs₂) hs', h'⟩

omit [Lawful μ] in
/-- A word is loaded and tested. -/
theorem Matches.exists_tested (h : f.Matches s₀ k w s) {cond : Operand}
    (hi : f.function.body[k]? = some (.branch cond ifTrue ifFalse)) (hv : cond.value? w = some v) :
  ∃ s', straight? place (f.load .rax cond ++ [.test .rax .rax]) s = some s' ∧
    f.Matches s₀ k w s' ∧ Cond.holds s'.flags .e = decide (v = 0)
  := by
  obtain ⟨s₁, hs₁, hrax, -, h₁⟩ := h.exists_loaded hserves hroom place hi (.head _) hv (.head _)
  let s₂ := s₁.setFlags (.ofBits (v.toUInt64 &&& v.toUInt64))
  have htest : straight? place [.test .rax .rax] s₁ = some s₂ := by
    simp only [straight?, Inst.exec, hrax]
    rfl
  refine ⟨s₂, straight?_append_of hs₁ htest, ?_, holds_tested v⟩
  exact h₁.scratch hserves ⟨fun _ _ => rfl, rfl, rfl⟩

end

/-! ### Jumps -/

theorem getElem?_of_nextLabel? {body : List Instr} (h : nextLabel? (body.drop k) = some name) :
  body[k]? = some (.label name)
  := by
  rw [← head?_drop]
  cases hdrop : body.drop k with
  | nil =>
    rw [hdrop] at h
    cases h
  | cons i rest =>
    rw [hdrop] at h
    cases i <;> cases h
    rfl

/-- A jump that is left out because its target comes next goes there. -/
theorem Plain.entry_of_nextLabel? (hplain : f.Plain) {name : String}
    (hnext : nextLabel? (f.function.body.drop k) = some name)
    (hj : labelAt f.function.body name = some j) :
  j = k
  := by
  have hk := labelAt_of_getElem? hplain.labels (getElem?_of_nextLabel? hnext)
  rw [hj] at hk
  exact some.inj hk

variable (place : String → UInt64)

theorem goes_straight (hi : f.function.body[k]? = some i)
    (h : straight? place (f.instrCode i (f.function.body.drop (k + 1))) s = some s') :
  Goes place f.allCode ⟨f.entry k, s⟩ ⟨f.entry (k + 1), s'⟩
  := by
  rw [f.entry_succ hi]
  exact .straight (f.stands_instr hi) h

section

variable (hplain : f.Plain)

include hplain

theorem Plain.goes_jump (hi : f.function.body[k]? = some (.jump target))
    (hj : labelAt f.function.body target = some j) :
  Goes place f.allCode ⟨f.entry k, s⟩ ⟨f.entry j, s⟩
  := by
  have hstands := f.stands_instr hi
  by_cases hnext : nextLabel? (f.function.body.drop (k + 1)) = some target
  · rw [hplain.entry_of_nextLabel? hnext hj]
    apply goes_straight place hi
    simp only [instrCode, instr, hnext]
    rfl
  · simp only [instrCode, instr, hnext] at hstands
    exact .jump hstands (hplain.labelAt_entry (getElem?_of_labelAt hj))

/-- After a test, control goes to the target that the word selects. -/
theorem Plain.goes_branch {cond : Operand}
    (hi : f.function.body[k]? = some (.branch cond ifTrue ifFalse))
    (hs' : straight? place (f.load .rax cond ++ [.test .rax .rax]) s = some s')
    (hcond : Cond.holds s'.flags .e = decide (v = 0))
    (hj : labelAt f.function.body (if v = 0 then ifFalse else ifTrue) = some j) :
  Goes place f.allCode ⟨f.entry k, s⟩ ⟨f.entry j, s'⟩
  := by
  have hne : Cond.holds s'.flags .ne = !decide (v = 0) := by
    rw [← hcond]
    exact Cond.holds_negate s'.flags .e
  have hlabel := hplain.labelAt_entry (getElem?_of_labelAt hj)
  have hstands := f.stands_instr hi
  have hsucc := f.entry_succ hi
  simp only [instrCode, instr, branch] at hstands hsucc
  rw [length_append] at hsucc
  refine .trans (Goes.straight hstands.left hs') ?_
  have htail := hstands.right
  by_cases hnext : nextLabel? (f.function.body.drop (k + 1)) = some ifTrue
  · rw [if_pos hnext] at htail hsucc
    by_cases hv : v = 0
    · rw [if_pos hv] at hlabel
      exact Goes.branch htail (by rw [hcond, decide_eq_true hv]) hlabel
    · rw [if_neg hv] at hj
      rw [hplain.entry_of_nextLabel? hnext hj, hsucc]
      exact Goes.pass htail (by rw [hcond, decide_eq_false hv])
  · rw [if_neg hnext] at htail hsucc
    by_cases hv : v = 0
    · rw [if_pos hv] at hj hlabel
      refine .trans (Goes.pass htail (by rw [hne, decide_eq_true hv]; rfl)) ?_
      by_cases hnext' : nextLabel? (f.function.body.drop (k + 1)) = some ifFalse
      · rw [if_pos hnext'] at hsucc
        rw [hplain.entry_of_nextLabel? hnext' hj, hsucc]
        exact .refl
      · rw [if_neg hnext'] at htail
        exact Goes.jump htail.tail hlabel
    · rw [if_neg hv] at hlabel
      exact Goes.branch htail (by rw [hne, decide_eq_false hv]; rfl) hlabel

/-- After the value is loaded, control goes to the epilogue. -/
theorem Plain.goes_ret (hi : f.function.body[k]? = some (.ret (some value)))
    (hs' : straight? place (f.load .rax value) s = some s') :
  Goes place f.allCode ⟨f.entry k, s⟩ ⟨f.entry f.function.body.length, s'⟩
  := by
  have hstands := f.stands_instr hi
  have hsucc := f.entry_succ hi
  simp only [instrCode, instr] at hstands hsucc
  rw [length_append] at hsucc
  refine .trans (Goes.straight hstands.left hs') ?_
  by_cases hrest : (f.function.body.drop (k + 1)).isEmpty
  · rw [if_pos hrest] at hsucc
    have hlast : f.function.body.length = k + 1 := by
      have hlt := (List.getElem?_eq_some_iff.mp hi).1
      rw [List.isEmpty_iff, drop_eq_nil_iff] at hrest
      omega
    rw [hlast, hsucc]
    exact .refl
  · have htail := hstands.right
    rw [if_neg hrest] at htail
    exact Goes.jump htail hplain.labelAt_epilogue

end

/-! ### Runs -/

section

variable (hplain : f.Plain) (hroom : f.Room s₀) (hserves : f.Served)

include hplain hroom hserves

/-- Each step of the function is made by its code. -/
theorem Matches.exists_step [Lawful μ] (h : f.Matches s₀ t.pc t.words s)
    (hstep : step? f.function.body t = some (.goes t')) :
  ∃ s', Goes place f.allCode ⟨f.entry t.pc, s⟩ ⟨f.entry t'.pc, s'⟩ ∧
    f.Matches s₀ t'.pc t'.words s'
  := by
  obtain ⟨i, hi, heffect⟩ := bind_eq_some_iff.mp hstep
  have hiplain := hplain.instrs i (mem_of_getElem? hi)
  unfold Instr.effect? at heffect
  split at heffect
  case h_1 name =>
    cases heffect
    refine ⟨s, goes_straight place hi rfl, h.goes hi rfl ?_⟩
    exact leads_succ hi rfl
  case h_2 x ty src =>
    obtain ⟨v, hv, heffect⟩ := bind_eq_some_iff.mp heffect
    cases heffect
    obtain ⟨s', hs', h'⟩ := h.move hserves hroom place hi hv
    exact ⟨s', goes_straight place hi hs', h'⟩
  case h_3 x op ty lhs rhs =>
    obtain ⟨a, ha, heffect⟩ := bind_eq_some_iff.mp heffect
    obtain ⟨b, hb, heffect⟩ := bind_eq_some_iff.mp heffect
    obtain ⟨v, hv, heffect⟩ := bind_eq_some_iff.mp heffect
    cases heffect
    obtain ⟨s', hs', h'⟩ := h.binary hserves hroom place hi hiplain ha hb hv
    exact ⟨s', goes_straight place hi hs', h'⟩
  case h_4 x op ty src =>
    obtain ⟨a, ha, heffect⟩ := bind_eq_some_iff.mp heffect
    obtain ⟨v, hv, heffect⟩ := bind_eq_some_iff.mp heffect
    cases heffect
    obtain ⟨s', hs', h'⟩ := h.unary hserves hroom place hi hiplain ha hv
    exact ⟨s', goes_straight place hi hs', h'⟩
  case h_5 cond ifTrue ifFalse =>
    obtain ⟨v, hv, heffect⟩ := bind_eq_some_iff.mp heffect
    obtain ⟨t₁, ht₁, heffect⟩ := bind_eq_some_iff.mp heffect
    cases heffect
    obtain ⟨j, hj, rfl⟩ := map_eq_some_iff.mp ht₁
    obtain ⟨s', hs', h', hcond⟩ := h.exists_tested hserves hroom place hi hv
    refine ⟨s', hplain.goes_branch place hi hs' hcond hj, h'.goes hi rfl fun _ => ?_⟩
    apply leads_target hplain.labels hi rfl _ hj
    rw [Instr.targets]
    split <;> simp
  case h_6 target =>
    obtain ⟨t₁, ht₁, heffect⟩ := bind_eq_some_iff.mp heffect
    cases heffect
    obtain ⟨j, hj, rfl⟩ := map_eq_some_iff.mp ht₁
    refine ⟨s, hplain.goes_jump place hi hj, h.goes hi rfl fun _ => ?_⟩
    exact leads_target hplain.labels hi rfl (mem_singleton_self target) hj
  case h_7 value =>
    obtain ⟨v, hv, heffect⟩ := bind_eq_some_iff.mp heffect
    cases heffect
  case h_8 => cases heffect

/-- A value that is returned is in `rax` before the epilogue. -/
theorem Matches.exists_returned (h : f.Matches s₀ t.pc t.words s)
    (hstep : step? f.function.body t = some (.returns v)) :
  ∃ s', Goes place f.allCode ⟨f.entry t.pc, s⟩ ⟨f.entry f.function.body.length, s'⟩ ∧
    f.Inside s₀ s' ∧ s'.get .rax = v.toUInt64
  := by
  obtain ⟨value, hi, hv⟩ := exists_ret_of_returns hstep
  obtain ⟨s', hs', hrax, -, h'⟩ := h.exists_loaded hserves hroom place hi (.head _) hv (.head _)
  exact ⟨s', hplain.goes_ret place hi hs', h'.inside, hrax⟩

/-- A run of the function is made by its code. -/
theorem Matches.exists_run [Lawful μ] (h : f.Matches s₀ t.pc t.words s)
    (hrun : run? f.function.body n t = some v) :
  ∃ s', Goes place f.allCode ⟨f.entry t.pc, s⟩ ⟨f.entry f.function.body.length, s'⟩ ∧
    f.Inside s₀ s' ∧ s'.get .rax = v.toUInt64
  := by
  induction n generalizing t s with
  | zero => cases hrun
  | succ n ih =>
    rw [run?] at hrun
    cases hstep : step? f.function.body t with
    | none =>
      rw [hstep] at hrun
      cases hrun
    | some effect =>
      rw [hstep] at hrun
      cases effect with
      | goes t' =>
        obtain ⟨s₁, hgoes, h₁⟩ := h.exists_step place hplain hroom hserves hstep
        obtain ⟨s', hgoes', hinside, hvalue⟩ := ih h₁ hrun
        exact ⟨s', hgoes.trans hgoes', hinside, hvalue⟩
      | returns u =>
        cases hrun
        exact h.exists_returned place hplain hroom hserves hstep

end

/-! ### Functions -/

/-- The frame that a function of a module is compiled with. -/
def ofFunction (m : Ir.Module) (function : Ir.Function) : Frame :=
  ⟨function, Allocation.ofFunction Allocation.registers function, m.globals.map (·.name),
    m.strings.length⟩

theorem served_ofFunction (m : Ir.Module) (function : Ir.Function) :
  (ofFunction m function).Served
  := Allocation.ofIntervals_serves (by decide) (pairwise_liveIntervals function) nodup_liveIntervals

/-- Called with arguments for which the function returns a value, the code of a plain function gets
to its return instruction with that value.  The registers that belong to the caller are then as
before, and nothing outside of the frame has changed. -/
theorem code_returns [Lawful μ] (place : String → UInt64) (m : Ir.Module) (function : Ir.Function)
    (hplain : (ofFunction m function).Plain) {args : List Int64}
    (hargs : args.length = function.params.length) {v : Int64} (hv : function.Returns args v)
    {s : State μ} (hcalled : (ofFunction m function).Called args s) :
  ∃ insts pc s', (ofFunction m function).code = .ok insts ∧
    Goes place insts ⟨0, s⟩ ⟨pc, s'⟩ ∧ insts[pc]? = some .ret ∧ s'.get .rax = v.toUInt64 ∧
    (∀ r ∈ [Reg.rbx, .rbp, .r12, .r13, .r14, .r15, .rsp], s'.get r = s.get r) ∧
    ∀ a : UInt64, a.toNat + 8 * (ofFunction m function).size < (s.get .rsp).toNat ∨
      (s.get .rsp).toNat ≤ a.toNat → load? s'.memory a = load? s.memory a
  := by
  generalize hf : ofFunction m function = f at *
  have hfunction : function = f.function := by
    rw [← hf]
    rfl
  have hserves : f.Served := by
    rw [← hf]
    exact served_ofFunction m function
  subst hfunction
  obtain ⟨n, hn⟩ := hv
  obtain ⟨s₁, hprologue, hinside₁, hholds⟩ := exists_prologue place hcalled hserves hargs
  have hmatches : f.Matches s (f.function.start args).pc (f.function.start args).words s₁ :=
    ⟨hinside₁, fun x v _ hv => hholds x v hv⟩
  obtain ⟨s₂, hrun, hinside₂, hvalue⟩ :=
    hmatches.exists_run place hplain hcalled.room hserves hn
  obtain ⟨block, s', hblock, hepilogue, hrax, hrsp, hrbp, hsaved, hmemory⟩ :=
    straight?_epilogue hinside₂ hcalled.room hserves
  have hstands := f.stands_epilogue
  rw [hblock] at hstands
  have hstart : Goes place f.allCode ⟨0, s⟩ ⟨f.entry 0, s₁⟩ := by
    have := Goes.straight f.stands_prologue hprologue
    rw [Nat.zero_add] at this
    exact this
  refine ⟨f.allCode, _, s', f.code_of_isPlain hplain.instrs,
    (hstart.trans hrun).trans (Goes.straight hstands.left hepilogue), hstands.right.getElem?,
    hrax.trans hvalue, ?_, ?_⟩
  · intro r hr
    by_cases hr' : r ∈ Allocation.registers
    · exact hsaved r hr'
    · obtain rfl | rfl : r = .rbp ∨ r = .rsp := by
        revert r
        decide
      · exact hrbp
      · exact hrsp
  · intro a ha
    rw [hmemory]
    exact hinside₂.outside a ha

/-- Adds the last of seven numbers as often as the first says. -/
def adding : Ir.Function where
  name := "adding"
  params := ["n", "b", "c", "d", "e", "f", "g"].map (⟨·, .i64⟩)
  result := .i64
  vars := [⟨"sum", .i64⟩, ⟨"more", .bool⟩]
  body := [.move (.var "sum") .i64 (.int 0), .label "loop",
    .binary (.var "more") .gt .i64 (.var "n") (.int 0), .branch (.var "more") "add" "done",
    .label "add", .binary (.var "sum") .add .i64 (.var "sum") (.var "g"),
    .binary (.var "n") .sub .i64 (.var "n") (.int 1), .jump "loop",
    .label "done", .ret (some (.var "sum"))]
  span := .nowhere

@[inherit_doc adding]
def addingModule : Ir.Module where
  functions := [adding]
  globals := []
  strings := []
  entry := "adding"
  init := none

/-- Two is the first argument, and five is the last one, which is on the stack. -/
def addingCall : State Machine.Ram where
  regs := { rdi := 2, rsp := 0x8000 }
  xmms := .replicate 16 0
  flags := {}
  memory := ⟨fun a => if a = 0x8008 then 5 else 0⟩

/-- The seven parameters and `sum` do not all fit in registers. -/
theorem allocation_adding :
  (ofFunction addingModule adding).allocation =
    ⟨[("b", .reg .rbx), ("c", .reg .r12), ("d", .reg .r13), ("e", .reg .r14), ("f", .reg .r15),
        ("g", .slot 0), ("n", .slot 1), ("sum", .reg .rbx), ("more", .reg .r12)],
      [.rbx, .r12, .r13, .r14, .r15], 2⟩
  := by
  have hintervals : ((mentioned adding).filterMap fun x =>
      Liveness.hull? x (positions adding x)) =
      [⟨"n", 0, 8⟩, ⟨"b", 0, 0⟩, ⟨"c", 0, 0⟩, ⟨"d", 0, 0⟩, ⟨"e", 0, 0⟩, ⟨"f", 0, 0⟩, ⟨"g", 0, 8⟩,
        ⟨"sum", 1, 10⟩, ⟨"more", 3, 4⟩] := by
    decide +kernel
  rw [ofFunction, Allocation.ofFunction, liveIntervals_eq, hintervals]
  cbv

theorem called_adding :
  (ofFunction addingModule adding).Called [2, 0, 0, 0, 0, 0, 5] addingCall
  := by
  have hsize : (ofFunction addingModule adding).size = 9 := by
    rw [size, slotBytes, allocation_adding]
    rfl
  exact {
    room := {
      below := by
        rw [hsize]
        decide
      small := by
        rw [hsize]
        decide
      writable := fun _ _ _ _ => ⟨_, rfl⟩
    }
    registers := by
      intro k r v hr hv
      have hk : k < 6 := (List.getElem?_eq_some_iff.mp hr).1
      interval_cases k <;> cases hr <;> cases hv <;> rfl
    stack := by
      intro k v hv
      have hk : 6 + k < 7 := (List.getElem?_eq_some_iff.mp hv).1
      obtain rfl : k = 0 := by omega
      cases hv
      rfl
    above := by decide
    small := by decide
  }

theorem adding_code_returns :
  (ofFunction addingModule adding).Plain ∧ adding.Returns [2, 0, 0, 0, 0, 0, 5] 10 ∧
    (ofFunction addingModule adding).Called [2, 0, 0, 0, 0, 0, 5] addingCall ∧
    ∃ insts pc s', (ofFunction addingModule adding).code = .ok insts ∧
      Goes (fun _ => 0) insts ⟨0, addingCall⟩ ⟨pc, s'⟩ ∧ insts[pc]? = some .ret ∧ s'.get .rax = 10 ∧
      s'.get .rsp = 0x8000
  := by
  have hplain : (ofFunction addingModule adding).Plain :=
    ⟨by decide, by decide, by decide, by decide⟩
  have hreturns : adding.Returns [2, 0, 0, 0, 0, 0, 5] 10 := ⟨20, by decide +kernel⟩
  obtain ⟨insts, pc, s', hcode, hgoes, hret, hrax, hregs, -⟩ :=
    code_returns (fun _ => 0) addingModule adding hplain rfl hreturns called_adding
  exact ⟨hplain, hreturns, called_adding, insts, pc, s', hcode, hgoes, hret, hrax,
    hregs .rsp (by decide)⟩

end Endmark.Code.Frame

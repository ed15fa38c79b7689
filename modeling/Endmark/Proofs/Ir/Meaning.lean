import Mathlib
import Endmark.Ir.Basic

/-!
# The meaning of the intermediate language

What instructions on integers and truth values do.  A function is run from its first
instruction on; each variable holds a word from when it is written, and to read it before
that has no meaning, like division by zero.
-/

namespace Endmark.Ir

open List Option

/-- The words that variables hold, as far as they have been written. -/
abbrev Words := String → Option Int64

/-- A truth value as a word. -/
def truthWord (b : Bool) : Int64 :=
  if b then 1 else 0

/-- The word that an operand stands for. -/
def Operand.value? (w : Words) : Operand → Option Int64
  | .var name => w name
  | .int value => some value
  | .bool value => some (truthWord value)
  | _ => none

/-- Is what truncating division leaves over on the other side of zero than the divisor? -/
def overshoots (a b : Int64) : Bool :=
  a % b ≠ 0 ∧ (a % b < 0 ↔ 0 < b)

/-- The result of an operation on two words. -/
def BinOp.value? : BinOp → Int64 → Int64 → Option Int64
  | add, a, b => some (a + b)
  | sub, a, b => some (a - b)
  | mul, a, b => some (a * b)
  | floorDiv, a, b => if b = 0 then none else some (if overshoots a b then a / b - 1 else a / b)
  | mod, a, b => if b = 0 then none else some (if overshoots a b then a % b + b else a % b)
  | and, a, b => some (a &&& b)
  | or, a, b => some (a ||| b)
  | xor, a, b => some (a ^^^ b)
  | eq, a, b => some (truthWord (a = b))
  | ne, a, b => some (truthWord (a ≠ b))
  | lt, a, b => some (truthWord (a < b))
  | le, a, b => some (truthWord (a ≤ b))
  | gt, a, b => some (truthWord (b < a))
  | ge, a, b => some (truthWord (b ≤ a))
  | _, _, _ => none

/-- The result of an operation on one word. -/
def UnOp.value? : UnOp → Int64 → Option Int64
  | neg, a => some (-a)
  | not, a => some (truthWord (a = 0))
  | _, _ => none

/-- Where control is, and what variables hold. -/
structure State where
  pc : Nat
  words : Words

/-- What an instruction does. -/
inductive Effect where
  | goes (s : State)
  | returns (value : Int64)

/-- Where the label stands. -/
def labelAt (body : List Instr) (name : String) : Option Nat :=
  body.findIdx? (· = .label name)

namespace State

/-- The state after an instruction that writes nothing. -/
def next (s : State) : State :=
  { s with pc := s.pc + 1 }

/-- The state after an instruction that writes a variable. -/
def put (s : State) (name : String) (value : Int64) : State where
  pc := s.pc + 1
  words := Function.update s.words name (some value)

/-- The state after a jump. -/
def jump? (s : State) (body : List Instr) (target : String) : Option State :=
  (labelAt body target).map fun pc => { s with pc }

end State

/-- What an instruction does in a state. -/
def Instr.effect? (body : List Instr) (s : State) : Instr → Option Effect
  | label _ => some (.goes s.next)
  | move (.var x) _ src => do
    let v ← src.value? s.words
    return .goes (s.put x v)
  | binary (.var x) op _ lhs rhs => do
    let a ← lhs.value? s.words
    let b ← rhs.value? s.words
    let v ← op.value? a b
    return .goes (s.put x v)
  | unary (.var x) op _ src => do
    let a ← src.value? s.words
    let v ← op.value? a
    return .goes (s.put x v)
  | branch cond ifTrue ifFalse => do
    let v ← cond.value? s.words
    let s' ← s.jump? body (if v = 0 then ifFalse else ifTrue)
    return .goes s'
  | jump target => do
    let s' ← s.jump? body target
    return .goes s'
  | ret (some value) => do
    let v ← value.value? s.words
    return .returns v
  | _ => none

/-- One step of a run. -/
def step? (body : List Instr) (s : State) : Option Effect :=
  body[s.pc]?.bind (·.effect? body s)

/-- The value that is returned after so many steps at most. -/
def run? (body : List Instr) : Nat → State → Option Int64
  | 0, _ => none
  | n + 1, s =>
    match step? body s with
    | some (.goes s') => run? body n s'
    | some (.returns v) => some v
    | none => none

/-- The state in which a function starts. -/
def Function.start (f : Function) (args : List Int64) : State where
  pc := 0
  words := (f.params.zip args).foldl (fun w (p, v) => Function.update w p.name (some v))
    fun _ => none

/-- Called with the arguments, the function returns the value. -/
def Function.Returns (f : Function) (args : List Int64) (v : Int64) : Prop :=
  ∃ n, run? f.body n (f.start args) = some v

/-! ### Runs -/

/-- Control goes from one state to the other, in any number of steps. -/
abbrev Goes (body : List Instr) : State → State → Prop :=
  Relation.ReflTransGen fun s s' => step? body s = some (.goes s')

/-- An instruction that goes on makes one step. -/
theorem Goes.of_effect (hi : body[s.pc]? = some i) (h : i.effect? body s = some (.goes s')) :
  Goes body s s'
  := by
  apply Relation.ReflTransGen.single
  rw [step?, hi]
  apply h

/-- What is returned in the end is returned by the whole run. -/
theorem Goes.run? (h : Goes body s s') (hv : run? body n s' = some v) :
  ∃ n, run? body n s = some v
  := by
  induction h using Relation.ReflTransGen.head_induction_on with
  | refl => use n
  | head hstep _ ih =>
    obtain ⟨n, hn⟩ := ih
    use n + 1
    rw [Ir.run?, hstep]
    apply hn

/-- No two runs from a state return different values. -/
theorem run?_unique (h : run? body n s = some v) (h' : run? body n' s = some v') :
  v = v'
  := by
  induction n generalizing s n' with
  | zero => cases h
  | succ n ih =>
    cases n' with
    | zero => cases h'
    | succ n' =>
      rw [run?] at h h'
      cases hstep : step? body s with
      | none =>
        rw [hstep] at h
        cases h
      | some effect =>
        rw [hstep] at h h'
        cases effect with
        | goes s' => apply ih h h'
        | returns u => apply some.inj (h.symm.trans h')

/-! ### The end of the code -/

/-- An instruction that goes on is a label, or writes its variable, or jumps to a label. -/
theorem Instr.effect?_goes {i : Instr} (h : i.effect? body s = some (.goes s')) :
  (∃ name, i = .label name ∧ s' = s.next) ∨ (∃ x v, i.dst? = some (.var x) ∧ s' = s.put x v) ∨
    ∃ name pc, labelAt body name = some pc ∧ s' = { s with pc }
  := by
  unfold effect? at h
  split at h <;>
    simp only [bind_eq_bind, bind_eq_some_iff, Option.pure_def, some.injEq,
      Effect.goes.injEq, reduceCtorEq, and_false, exists_false] at h
  · exact .inl ⟨_, rfl, h.symm⟩
  · obtain ⟨v, _, rfl⟩ := h
    exact .inr (.inl ⟨_, v, rfl, rfl⟩)
  · obtain ⟨_, _, _, _, v, _, rfl⟩ := h
    exact .inr (.inl ⟨_, v, rfl, rfl⟩)
  · obtain ⟨_, _, v, _, rfl⟩ := h
    exact .inr (.inl ⟨_, v, rfl, rfl⟩)
  · obtain ⟨_, _, _, hs, rfl⟩ := h
    obtain ⟨pc, hpc, rfl⟩ := map_eq_some_iff.mp hs
    exact .inr (.inr ⟨_, pc, hpc, rfl⟩)
  · obtain ⟨_, hs, rfl⟩ := h
    obtain ⟨pc, hpc, rfl⟩ := map_eq_some_iff.mp hs
    exact .inr (.inr ⟨_, pc, hpc, rfl⟩)

/-- Control does not run off the end of code that ends with a return. -/
theorem Goes.pc_lt (h : Goes body s s')
    (hlast : body.getLast? = some (.ret value)) (hs : s.pc < body.length) :
  s'.pc < body.length
  := by
  induction h with
  | refl => apply hs
  | @tail s₁ _ _ hstep ih =>
    obtain ⟨i, hi, heffect⟩ := bind_eq_some_iff.mp hstep
    have hnext (hret : i ≠ .ret value) : s₁.pc + 1 < body.length := by
      by_contra hge
      have hend : body.length - 1 = s₁.pc := by omega
      rw [getLast?_eq_getElem?, hend, hi] at hlast
      exact hret (some.inj hlast)
    obtain ⟨_, rfl, rfl⟩ | ⟨_, _, hdst, rfl⟩ | ⟨name, pc, hname, rfl⟩ := Instr.effect?_goes heffect
    · exact hnext nofun
    · apply hnext
      rintro rfl
      cases hdst
    · apply (findIdx?_eq_some_iff_getElem.mp hname).1

/-- Only a return returns. -/
theorem exists_ret_of_returns (h : step? body s = some (.returns v)) :
  ∃ value, body[s.pc]? = some (.ret (some value)) ∧ value.value? s.words = some v
  := by
  obtain ⟨i, hi, heffect⟩ := bind_eq_some_iff.mp h
  unfold Instr.effect? at heffect
  split at heffect
  case h_7 value =>
    obtain ⟨u, hu, heffect⟩ := bind_eq_some_iff.mp heffect
    cases heffect
    exact ⟨value, hi, hu⟩
  all_goals simp [bind_eq_some_iff] at heffect

/-! ### Labels -/

/-- The labels that stand in the code. -/
def labelNames (code : List Instr) : List String :=
  code.filterMap fun
    | .label name => some name
    | _ => none

@[simp]
theorem labelNames_append {code code' : List Instr} :
  labelNames (code ++ code') = labelNames code ++ labelNames code'
  := filterMap_append

theorem mem_labelNames :
  name ∈ labelNames code ↔ .label name ∈ code
  := by
  rw [labelNames, mem_filterMap]
  constructor
  · rintro ⟨i, hi, heq⟩
    cases i <;> cases heq
    apply hi
  · intro h
    use .label name, h

/-- A label that is not repeated is found where it stands. -/
theorem labelAt_eq (h : (labelNames (code ++ .label name :: rest)).Nodup) :
  labelAt (code ++ .label name :: rest) name = some code.length
  := by
  have hnot : .label name ∉ code := by
    intro hmem
    rw [labelNames_append, nodup_append] at h
    apply h.2.2 name (mem_labelNames.mpr hmem) name _ rfl
    apply mem_labelNames.mpr mem_cons_self
  rw [labelAt, findIdx?_eq_some_iff_getElem]
  refine ⟨by simp, by simp, ?_⟩
  intro j hj
  rw [getElem_append_left hj, decide_eq_true_iff]
  intro heq
  apply hnot
  rw [← heq]
  apply getElem_mem

theorem getElem?_of_labelAt (h : labelAt body name = some k) :
  body[k]? = some (.label name)
  := by
  obtain ⟨hlt, hlabel, -⟩ := findIdx?_eq_some_iff_getElem.mp h
  rw [getElem?_eq_getElem hlt, of_decide_eq_true hlabel]

/-- A label that is not repeated is found where it stands. -/
theorem labelAt_of_getElem? (hnodup : (labelNames body).Nodup) (h : body[k]? = some (.label name)) :
  labelAt body name = some k
  := by
  have hlt := (List.getElem?_eq_some_iff.mp h).1
  have hsplit : body.take k ++ .label name :: body.drop (k + 1) = body := by
    rw [← (List.getElem?_eq_some_iff.mp h).2, ← drop_eq_getElem_cons hlt,
      take_append_drop]
  have hat : labelAt (body.take k ++ .label name :: body.drop (k + 1)) name =
      some (body.take k).length := by
    apply labelAt_eq
    rw [hsplit]
    exact hnodup
  rw [hsplit, length_take, min_eq_left hlt.le] at hat
  exact hat

end Endmark.Ir

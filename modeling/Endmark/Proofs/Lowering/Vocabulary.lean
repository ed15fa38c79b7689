import Endmark.Proofs.Lowering.Emission
import Endmark.Proofs.Typed.Resolution

/-!
# What single operations name

What is demanded of the names in a typed program, of temporaries and labels, which are
numbered, and of routines, is demanded of the instructions that are emitted.  A lowering that
keeps to it does so also when it stops on the way.
-/

namespace Endmark.Ir

/-- What is demanded of what instructions name, of the distances they use, and whether there
may be raw text. -/
structure Vocabulary where
  var : String → Prop
  global : String → Prop
  callee : String → Prop
  label : String → Prop
  offset : Int64 → Prop
  raw : Prop

/-- The operand is as demanded, where there are so many string constants. -/
def Operand.Uses (V : Vocabulary) (strings : Nat) : Operand → Prop
  | .var x => V.var x
  | .global x => V.global x
  | .str index => index < strings
  | _ => True

/-- The place is as demanded. -/
def Place.Uses (V : Vocabulary) : Place → Prop
  | .var x => V.var x
  | .global x => V.global x

/-- All that the instruction names is as demanded, and there is such an operation. -/
def Instr.Uses (V : Vocabulary) (strings : Nat) : Instr → Prop
  | .label name => V.label name
  | .move dst _ src | .unary dst _ _ src => dst.Uses V ∧ src.Uses V strings
  | .binary dst op ty lhs rhs =>
    dst.Uses V ∧ op.supports ty = true ∧ lhs.Uses V strings ∧ rhs.Uses V strings
  | .call dst callee args =>
    (∀ p ∈ dst, p.Uses V) ∧ V.callee callee ∧ ∀ o ∈ args, o.Uses V strings
  | .branch cond ifTrue ifFalse => cond.Uses V strings ∧ V.label ifTrue ∧ V.label ifFalse
  | .jump target => V.label target
  | .load dst _ base offset => dst.Uses V ∧ base.Uses V strings ∧ V.offset offset
  | .store _ base offset value => base.Uses V strings ∧ V.offset offset ∧ value.Uses V strings
  | .alloc dst size => dst.Uses V ∧ size.Uses V strings
  | .free block => block.Uses V strings
  | .ret value => ∀ o ∈ value, o.Uses V strings
  | .raw dst _ _ => V.raw ∧ ∀ p ∈ dst, p.Uses V

/-- All that the code of a function names is as demanded, and so are its variables. -/
structure Function.Uses (V : Vocabulary) (strings : Nat) (f : Function) : Prop where
  code : ∀ i ∈ f.body, i.Uses V strings
  params : ∀ v ∈ f.params, V.var v.name
  vars : ∀ v ∈ f.vars, V.var v.name

theorem Operand.Uses.mono {o : Operand} (h : o.Uses V n) (hm : n ≤ m) :
  o.Uses V m
  := by
  cases o with
  | str index => apply lt_of_lt_of_le h hm
  | _ => apply h

/-- More string constants do no harm. -/
theorem Instr.Uses.mono {i : Instr} (h : i.Uses V n) (hm : n ≤ m) :
  i.Uses V m
  := by
  cases i with
  | label | jump | raw => apply h
  | move | unary | alloc => exact ⟨h.1, h.2.mono hm⟩
  | binary => exact ⟨h.1, h.2.1, h.2.2.1.mono hm, h.2.2.2.mono hm⟩
  | call => exact ⟨h.1, h.2.1, fun o ho => (h.2.2 o ho).mono hm⟩
  | branch => exact ⟨h.1.mono hm, h.2⟩
  | load => exact ⟨h.1, h.2.1.mono hm, h.2.2⟩
  | store => exact ⟨h.1.mono hm, h.2.1, h.2.2.mono hm⟩
  | free => exact Operand.Uses.mono h hm
  | ret => exact fun o ho => (h o ho).mono hm

/-- What an instruction writes is as demanded. -/
theorem Instr.Uses.dst {i : Instr} (h : i.Uses V n) (hp : i.dst? = some p) :
  p.Uses V
  := by
  cases i with
  | call => exact h.1 p hp
  | raw => exact h.2 p hp
  | move | binary | unary | load | alloc =>
    cases hp
    exact h.1
  | _ => cases hp

theorem Function.Uses.mono {f : Function} (h : f.Uses V n) (hm : n ≤ m) :
  f.Uses V m
  := ⟨fun i hi => (h.code i hi).mono hm, h.params, h.vars⟩

theorem Place.Uses.operand {p : Place} (h : p.Uses V) :
  p.operand.Uses V n
  := by
  cases p <;> apply h

end Endmark.Ir

/-- Nothing has been lowered yet. -/
def Endmark.untouched : Endmark.Lowering.State :=
  ⟨[], #[], #[], #[], 0, 0, 0⟩

namespace Endmark.Lowering

open Ir (WordType Operand Instr)
open Typed (Expr Stmt Arm FStringPart Variable Raw)
open Endmark.Tree (BinaryOp UnaryOp Literal)

/-! ### States and runs -/

/-- From the first of the states on, all that code names is as demanded, and so are variables.
Reports and the numbers of temporaries are kept. -/
structure State.Uses (V : Ir.Vocabulary) (start s : State) : Prop where
  temps : start.temps ≤ s.temps
  reports : start.reports.size ≤ s.reports.size
  code : ∃ new, s.code.toList = start.code.toList ++ new ∧ ∀ i ∈ new, i.Uses V s.strings.length
  vars : ∃ new, s.vars.toList = start.vars.toList ++ new ∧ ∀ v ∈ new, V.var v.name

theorem State.uses_refl :
  Uses V s s
  := ⟨le_rfl, le_rfl, ⟨[], by simp⟩, [], by simp⟩

/-- One more instruction. -/
theorem State.Uses.emit (h : Uses V start s) (hi : i.Uses V s.strings.length) :
  Uses V start (s.emit i)
  := by
  obtain ⟨htemps, hreports, ⟨new, hcode, hnew⟩, hvars⟩ := h
  refine ⟨htemps, hreports, ⟨new ++ [i], ?_, ?_⟩, hvars⟩
  · rw [toList_emit, hcode, List.append_assoc]
  · rw [List.forall_mem_append, List.forall_mem_singleton]
    exact ⟨hnew, hi⟩

/-- One more variable. -/
theorem State.Uses.declare (h : Uses V start s) (hv : V.var v.name) :
  Uses V start { s with vars := s.vars.push v }
  := by
  obtain ⟨htemps, hreports, hcode, new, hvars, hnew⟩ := h
  refine ⟨htemps, hreports, hcode, new ++ [v], ?_, ?_⟩
  · rw [Array.toList_push, hvars, List.append_assoc]
  · rw [List.forall_mem_append, List.forall_mem_singleton]
    exact ⟨hnew, hv⟩

/-- More string constants do no harm. -/
theorem State.Uses.strings (h : Uses V start s) {strings : List String}
    (hlength : s.strings.length ≤ strings.length) :
  Uses V start { s with strings }
  := by
  obtain ⟨htemps, hreports, ⟨new, hcode, hnew⟩, hvars⟩ := h
  exact ⟨htemps, hreports, ⟨new, hcode, fun i hi => (hnew i hi).mono hlength⟩, hvars⟩

namespace Lower

variable {α : Type} {T : Nat → β → Prop}

/-- Where there are at least `n` string constants, only code as demanded is emitted, no string
constant is lost, and the result satisfies `R` if there is one. -/
def Emits (x : Lower α) (env : Env) (V : Ir.Vocabulary) (n : Nat) (R : Nat → α → Prop) : Prop :=
  ∀ start s, n ≤ s.strings.length → State.Uses V start s → ∀ r s', (x.run env).run s = (r, s') →
    s.strings.length ≤ s'.strings.length ∧ State.Uses V start s' ∧
      ∀ a, r = .ok a → R s'.strings.length a

theorem emits_pure (h : ∀ m, n ≤ m → R m a) :
  (pure a : Lower α).Emits env V n R
  := by
  rintro _ s hn hs _ _ ⟨⟩
  refine ⟨le_refl _, hs, ?_⟩
  rintro _ ⟨⟩
  apply h _ hn

theorem emits_throw :
  (throw stop : Lower α).Emits env V n R
  := by
  rintro _ s _ hs _ _ ⟨⟩
  exact ⟨le_refl _, hs, fun _ h => nomatch h⟩

theorem run_bind {x : Lower α} {f : α → Lower β} :
  ((x >>= f).run env).run s =
    match (x.run env).run s with
    | (.ok a, t) => ((f a).run env).run t
    | (.error stop, t) => (.error stop, t)
  := by
  have hbind : ((x >>= f).run env).run s =
      ExceptT.bindCont (fun a => (f a).run env) ((x.run env).run s).1 ((x.run env).run s).2 := rfl
  rw [hbind]
  rcases (x.run env).run s with ⟨stop | a, t⟩ <;> rfl

/-- One part after the other. -/
theorem emits_bind {x : Lower α} (hx : x.Emits env V n R)
    (hf : ∀ m a, n ≤ m → R m a → (f a).Emits env V m T) :
  (x >>= f).Emits env V n T
  := by
  intro start s hn hs r s' hrun
  rw [run_bind] at hrun
  rcases hfirst : (x.run env).run s with ⟨a | a, t⟩
  · obtain ⟨hlength, ht, _⟩ := hx start s hn hs _ _ hfirst
    rw [hfirst] at hrun
    cases hrun
    exact ⟨hlength, ht, fun _ h => nomatch h⟩
  · obtain ⟨hlength, ht, ha⟩ := hx start s hn hs _ _ hfirst
    rw [hfirst] at hrun
    obtain ⟨hlength', hs', hb⟩ := hf _ a (hn.trans hlength) (ha a rfl) start t (le_refl _) ht
      r s' hrun
    exact ⟨hlength.trans hlength', hs', hb⟩

theorem Emits.weaken {x : Lower α} (hx : x.Emits env V n R) (hm : n ≤ m) :
  x.Emits env V m R
  := fun start s hs => hx start s (hm.trans hs)

theorem emits_modify
    (h : ∀ start s, n ≤ s.strings.length → State.Uses V start s →
      s.strings.length ≤ (g s).strings.length ∧ State.Uses V start (g s)) :
  (modify g : Lower PUnit).Emits env V n fun _ _ => True
  := by
  rintro start s hn hs _ _ ⟨⟩
  obtain ⟨hlength, hs'⟩ := h start s hn hs
  exact ⟨hlength, hs', fun _ _ => trivial⟩

theorem emits_modifyGet (h : ∀ start s, n ≤ s.strings.length → State.Uses V start s →
      s.strings.length ≤ (g s).2.strings.length ∧ State.Uses V start (g s).2 ∧
        R (g s).2.strings.length (g s).1) :
  (modifyGet g : Lower α).Emits env V n R
  := by
  rintro start s hn hs _ _ ⟨⟩
  obtain ⟨hlength, hs', hresult⟩ := h start s hn hs
  refine ⟨hlength, hs', ?_⟩
  rintro _ ⟨⟩
  apply hresult

theorem emits_get (h : ∀ s, n ≤ s.strings.length → (f s).Emits env V s.strings.length T) :
  ((get : Lower State) >>= f).Emits env V n T
  := fun start s hn hs => h s hn start s (le_refl _) hs

theorem emits_read (h : (f env).Emits env V n T) :
  ((read : Lower Env) >>= f).Emits env V n T
  := h

/-- How an attempt ends. -/
def attempted : Except Stop α × State → Except Stop (Option α) × State
  | (.ok a, s) => (.ok (some a), s)
  | (.error .reported, s) => (.ok none, s)
  | (.error .abandoned, s) => (.error .abandoned, s)

theorem run_attempt? {x : Lower α} :
  (x.attempt?.run env).run s = attempted ((x.run env).run s)
  := by
  simp only [attempt?, tryCatch, tryCatchThe, MonadExceptOf.tryCatch, ReaderT.run, ExceptT.run,
    ExceptT.tryCatch, ExceptT.mk, StateT.bind, bind, Functor.map, ExceptT.map]
  rcases x env s with ⟨stop | a, t⟩
  · cases stop <;> rfl
  · rfl

/-! ### Single instructions -/

theorem emits_report {fault : Fault} :
  (report span fault).Emits env V n fun _ _ => True
  := by
  apply emits_modify
  rintro start s _ ⟨htemps, hreports, hcode, hvars⟩
  refine ⟨le_refl _, htemps, ?_, hcode, hvars⟩
  simp only [Array.size_push]
  omega

theorem emits_fail {span : Span} {fault : Fault} :
  (fail span fault : Lower α).Emits env V n R
  := emits_bind emits_report fun _ _ _ _ => emits_throw

theorem emits_emit (hi : i.Uses V n) :
  (emit i).Emits env V n fun _ _ => True
  := emits_modify fun _ _ hn hs => ⟨le_refl _, hs.emit (hi.mono hn)⟩

theorem emits_emit_then (hi : i.Uses V n) (hf : (f ⟨⟩).Emits env V n T) :
  (emit i >>= f).Emits env V n T
  := emits_bind (emits_emit hi) fun _ _ hm _ => hf.weaken hm

theorem emits_declare (hname : V.var name) :
  (declare name ty).Emits env V n fun _ _ => True
  := emits_modify fun _ _ _ hs => ⟨le_refl _, hs.declare hname⟩

/-- A new variable has a number for its name. -/
theorem emits_temp (htemp : ∀ i : Nat, V.var (toString i)) (ty : WordType) :
  (temp ty).Emits env V n fun _ x => V.var x
  := by
  apply emits_bind (R := fun _ x => V.var x)
  · apply emits_modifyGet
    exact fun _ s _ hs => ⟨le_refl _,
      ⟨hs.temps.trans (Nat.le_succ _), hs.reports, hs.code, hs.vars⟩, htemp s.temps⟩
  · intro m x _ hx
    apply emits_bind (emits_declare hx)
    intro _ _ _ _
    apply emits_pure
    intro _ _
    apply hx

end Lower

/-- The routines that lowering leaves work to. -/
def routinesUsed : List String :=
  [printRoutine, intTextRoutine, floatTextRoutine, stringConcatRoutine, listConcatRoutine,
    stringEqRoutine, stringIndexRoutine, checkIndexRoutine, rangeRoutine, powerRoutine,
    exitRoutine]

/-- What is demanded of code follows from what is demanded of the typed program, in a function
with the given kinds of slots and globals, for temporaries from a number on.  Raw blocks are left
out if it is strict. -/
structure Serves (N : Typed.Vocabulary) (V : Ir.Vocabulary) (strict : Prop) (first : Nat)
    (env : Env) : Prop where
  slot : ∀ x, N.slot x → V.var x
  global : ∀ x, N.global x → V.global x
  function : ∀ f n, N.function f n → V.callee f
  temp : ∀ i : Nat, first ≤ i → V.var (toString i)
  label : ∀ i, V.label (labelName i)
  routine : ∀ f ∈ routinesUsed, V.callee f
  start : V.offset 0
  item : ∀ count, N.length count → ∀ k < count, V.offset (wordSize + wordSize * Int64.ofNat k)
  word : V.offset wordSize
  rawStmt : ¬ strict → ∀ n block, N.block block →
    (Lower.rawStmt block).Emits env V n fun _ _ => True
  rawValue : ¬ strict → ∀ n block, N.block block →
    (Lower.rawValue block).Emits env V n (Operand.Uses V)

theorem Serves.place (h : Serves N V strict first env) (hv : N.variable v) :
  (placeOf v).Uses V
  := by
  cases v with
  | slot x => apply h.slot x hv
  | global x => apply h.global x hv

end Endmark.Lowering

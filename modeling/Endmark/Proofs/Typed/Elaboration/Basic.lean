import Endmark.Proofs.Typed.Blocks
import Endmark.Typed.Basic
import Endmark.Typed.Plan

/-!
# Elaboration

A typed tree elaborates a tree of the source in the blocks that are open where it stands: it
has the same parts in the same places, and each name in it stands for what the innermost block
binds it to, or else for what the rest of the program has under that name.  What is checked
without an error reported is elaborated so.
-/

namespace Endmark.Typed

open Endmark.Tree (Ident BinaryOp UnaryOp)

/-- What a function finds outside of it: globals, and functions with the numbers of their
parameters. -/
structure Outside where
  global : String → Prop
  function : String → Nat → Prop

/-- What the functions of a plan find outside of them. -/
def Plan.outside (p : Plan) : Outside where
  global x := x ∈ p.globals.map (·.1)
  function x n := ∃ f ∈ p.functions, f.topLevel = false ∧ f.name = x ∧ f.params.length = n

/-- The name means the variable: the slot that it is bound to, or else a global. -/
inductive Refers (O : Outside) (Γ : Blocks) (name : String) : Variable → Prop
  | slot {x : String} (h : Γ.slot? name = some x) : Refers O Γ name (.slot x)
  | global (h : Γ.slot? name = none) (hglobal : O.global name) : Refers O Γ name (.global name)

/-! ### Expressions -/

mutual

/-- The typed expression elaborates the other one. -/
inductive Expr.Elaborates (O : Outside) (Γ : Blocks) : Tree.Expr → Expr → Prop
  | literal : Expr.Elaborates O Γ (.literal s value) (.literal ⟨t, s⟩ value)
  | var (h : Refers O Γ name v) : Expr.Elaborates O Γ (.name s name) (.var ⟨t, s⟩ v)
  | function (hfree : Γ.slot? name = none) (h : O.function name n) :
      Expr.Elaborates O Γ (.name s name) (.function ⟨t, s⟩ name)
  | binary (hlhs : Expr.Elaborates O Γ lhs lhs') (hrhs : Expr.Elaborates O Γ rhs rhs') :
      Expr.Elaborates O Γ (.binary s op lhs rhs) (.binary ⟨t, s⟩ op lhs' rhs')
  | unary (h : Expr.Elaborates O Γ operand operand') :
      Expr.Elaborates O Γ (.unary s op operand) (.unary ⟨t, s⟩ op operand')
  | call (hargs : Expr.ElaboratesAll O Γ args args') (hfree : Γ.slot? callee.name = none)
      (h : O.function callee.name args.length) :
      Expr.Elaborates O Γ (.call s callee args) (.call ⟨t, s⟩ callee.name args')
  | builtin (hargs : Expr.ElaboratesAll O Γ args args') (h : Builtin.find? callee.name = some b)
      (haccepts : b.accepts args.length = true) :
      Expr.Elaborates O Γ (.call s callee args) (.builtin ⟨t, s⟩ b.kind args')
  | list (h : Expr.ElaboratesAll O Γ items items') :
      Expr.Elaborates O Γ (.list s items) (.list ⟨t, s⟩ items')
  | index (hbase : Expr.Elaborates O Γ base base') (hindex : Expr.Elaborates O Γ i i') :
      Expr.Elaborates O Γ (.index s base i) (.index ⟨t, s⟩ base' i')
  | fstring (h : Expr.ElaboratesParts O Γ parts parts') :
      Expr.Elaborates O Γ (.fstring s parts) (.fstring ⟨t, s⟩ parts')
  | raw (h : ∀ entry ∈ scope, Refers O Γ entry.1 entry.2.1) :
      Expr.Elaborates O Γ (.raw s block)
        (.raw ⟨t, s⟩ ⟨block.lang, block.payload, s, scope⟩)
  | error : Expr.Elaborates O Γ (.error s) (.faulty s)

/-- The typed expressions elaborate the others, one by one. -/
inductive Expr.ElaboratesAll (O : Outside) (Γ : Blocks) : List Tree.Expr → List Expr → Prop
  | nil : Expr.ElaboratesAll O Γ [] []
  | cons (h : Expr.Elaborates O Γ e e') (hrest : Expr.ElaboratesAll O Γ rest rest') :
      Expr.ElaboratesAll O Γ (e :: rest) (e' :: rest')

/-- The parts of an f-string elaborate the others, one by one. -/
inductive Expr.ElaboratesParts (O : Outside) (Γ : Blocks) :
    List Tree.FStringPart → List FStringPart → Prop
  | nil : Expr.ElaboratesParts O Γ [] []
  | text (hrest : Expr.ElaboratesParts O Γ rest rest') :
      Expr.ElaboratesParts O Γ (.text t :: rest) (.text t :: rest')
  | field (h : Expr.Elaborates O Γ e e') (hrest : Expr.ElaboratesParts O Γ rest rest') :
      Expr.ElaboratesParts O Γ (.field e :: rest) (.field e' :: rest')

end

theorem Expr.ElaboratesAll.length_eq (h : ElaboratesAll O Γ es es') :
  es'.length = es.length
  := by
  cases h with
  | nil => rfl
  | cons _ hrest => exact congrArg (· + 1) hrest.length_eq

/-! ### Statements -/

/-- The blocks that are open at a place in a function, and the slots declared before it, with
the names that they are declared for. -/
structure Context where
  blocks : Blocks
  slots : List (String × String)

namespace Context

/-- Where a function starts: its parameters are bound. -/
def start (params : List String) : Context :=
  ⟨[params.reverse.map fun x => (x, x)], params.map fun x => (x, x)⟩

/-- Inside of a new block. -/
def enter (Γ : Context) : Context :=
  { Γ with blocks := [] :: Γ.blocks }

/-- Behind the innermost block. -/
def leave (Γ : Context) : Context :=
  { Γ with blocks := Γ.blocks.tail }

/-- The name is given a value.  Outside of functions it is a global; elsewhere it is the slot
that the name is bound to, or a new one. -/
inductive Assigns (O : Outside) (top : Bool) (name : String) :
    Context → Variable → Context → Prop
  | global (htop : top = true) (h : O.global name) : Assigns O top name Γ (.global name) Γ
  | bound (htop : top = false) (h : Γ.blocks.slot? name = some x) : Assigns O top name Γ (.slot x) Γ
  | new (htop : top = false) (h : Γ.blocks.slot? name = none) :
      Assigns O top name Γ (.slot x) ⟨Γ.blocks.bind name x, Γ.slots ++ [(x, name)]⟩

end Context

mutual

/-- Between the two places the typed statement, if there is one, elaborates the other. -/
inductive Stmt.Elaborates (O : Outside) (top : Bool) :
    Context → Tree.Stmt → Option Stmt → Context → Prop
  | branch (harms : Stmt.ElaboratesArms O top Γ arms arms' Γ₁)
      (hlast : Stmt.ElaboratesLast O top Γ₁ last last' Γ₂) :
      Stmt.Elaborates O top Γ (.branch span arms last) (some (.branch span arms' last')) Γ₂
  | whileLoop {cond} (hcond : Expr.Elaborates O Γ.blocks cond cond')
      (hbody : Stmt.ElaboratesAll O top Γ.enter body body' Γ₁) :
      Stmt.Elaborates O top Γ (.whileLoop span cond body) (some (.whileLoop span cond' body'))
        Γ₁.leave
  | forLoop (hiter : Expr.Elaborates O Γ.blocks iter iter')
      (hvar : Γ.Assigns O top target.name v Γ₁)
      (hbody : Stmt.ElaboratesAll O top Γ₁.enter body body' Γ₂) :
      Stmt.Elaborates O top Γ (.forLoop span target iter body) (some (.forLoop span v iter' body'))
        Γ₂.leave
  | ret : Stmt.Elaborates O top Γ (.ret span none) (some (.ret span none)) Γ
  | retValue (h : Expr.Elaborates O Γ.blocks value value') :
      Stmt.Elaborates O top Γ (.ret span (some value)) (some (.ret span (some value'))) Γ
  | assign (hvalue : Expr.Elaborates O Γ.blocks value value')
      (hvar : Γ.Assigns O top ident.name v Γ₁) :
      Stmt.Elaborates O top Γ (.assign span (.name ident) none value)
        (some (.assign span (.var v) value')) Γ₁
  | update (hvalue : Expr.Elaborates O Γ.blocks value value')
      (hheld : Expr.Elaborates O Γ.blocks (.name ident.span ident.name) held)
      (hvar : Γ.Assigns O top ident.name v Γ₁) :
      Stmt.Elaborates O top Γ (.assign span (.name ident) (some op) value)
        (some (.assign span (.var v) (.binary ⟨ty, span⟩ op held value'))) Γ₁
  | store (hvalue : Expr.Elaborates O Γ.blocks value value')
      (hbase : Expr.Elaborates O Γ.blocks base base')
      (hindex : Expr.Elaborates O Γ.blocks index index') :
      Stmt.Elaborates O top Γ (.assign span (.index base index) none value)
        (some (.assign span (.index base' index') value')) Γ
  | storeUpdate (hvalue : Expr.Elaborates O Γ.blocks value value')
      (hbase : Expr.Elaborates O Γ.blocks base base')
      (hindex : Expr.Elaborates O Γ.blocks index index') :
      Stmt.Elaborates O top Γ (.assign span (.index base index) (some op) value)
        (some (.assign span (.index base' index') (.binary ⟨ty, span⟩ op
          (.index ⟨item, span⟩ base' index') value')))
        Γ
  | expr (h : Expr.Elaborates O Γ.blocks e e') :
      Stmt.Elaborates O top Γ (.expr span e) (some (.expr span e')) Γ
  | leave : Stmt.Elaborates O top Γ (.leave span) (some (.leave span)) Γ
  | next : Stmt.Elaborates O top Γ (.next span) (some (.next span)) Γ
  | pass : Stmt.Elaborates O top Γ (.pass span) none Γ
  | raw (h : ∀ entry ∈ scope, Refers O Γ.blocks entry.1 entry.2.1) :
      Stmt.Elaborates O top Γ (.raw span block)
        (some (.raw span ⟨block.lang, block.payload, span, scope⟩)) Γ

/-- Between the two places the typed statements elaborate the others, in order. -/
inductive Stmt.ElaboratesAll (O : Outside) (top : Bool) :
    Context → List Tree.Stmt → List Stmt → Context → Prop
  | nil : Stmt.ElaboratesAll O top Γ [] [] Γ
  | cons (h : Stmt.Elaborates O top Γ st st' Γ₁)
      (hrest : Stmt.ElaboratesAll O top Γ₁ rest rest' Γ₂) :
      Stmt.ElaboratesAll O top Γ (st :: rest) (st'.toList ++ rest') Γ₂

/-- Between the two places the arms of a branch elaborate the others, in order. -/
inductive Stmt.ElaboratesArms (O : Outside) (top : Bool) :
    Context → List Tree.Arm → List Arm → Context → Prop
  | nil : Stmt.ElaboratesArms O top Γ [] [] Γ
  | cons {cond} (hcond : Expr.Elaborates O Γ.blocks cond cond')
      (hbody : Stmt.ElaboratesAll O top Γ.enter body body' Γ₁)
      (hrest : Stmt.ElaboratesArms O top Γ₁.leave rest rest' Γ₂) :
      Stmt.ElaboratesArms O top Γ (.mk cond body :: rest) (.mk cond' body' :: rest') Γ₂

/-- Between the two places the last part of a branch elaborates the other, if there is one. -/
inductive Stmt.ElaboratesLast (O : Outside) (top : Bool) :
    Context → Option (List Tree.Stmt) → List Stmt → Context → Prop
  | none : Stmt.ElaboratesLast O top Γ none [] Γ
  | some (h : Stmt.ElaboratesAll O top Γ.enter body body' Γ₁) :
      Stmt.ElaboratesLast O top Γ (some body) body' Γ₁.leave

end

end Endmark.Typed

import Endmark.Lowering.Fault
import Endmark.Typed.Basic

/-!
# Emitting instructions

Lowering walks through a typed function and appends instructions.  Temporaries are numbered,
and a number is no name of a source, so that they are new; so are labels.  String constants
are shared by all functions of a module.
-/

namespace Endmark.Lowering

open Ir (WordType Operand Place Instr Var)
open Typed (Variable)

/-- What stays the same while a function is lowered: the kinds of its parameters and slots,
and those of the globals. -/
structure Env where
  slots : List (String × WordType)
  globals : List (String × WordType)

/-- What changes while a function is lowered. -/
structure State where
  /-- The string constants of the module, each of them once. -/
  strings : List String
  reports : Array Diagnostic
  /-- The variables of the function other than its parameters. -/
  vars : Array Var
  code : Array Instr
  /-- The number of temporaries so far. -/
  temps : Nat
  /-- The number of labels so far. -/
  labels : Nat
  /-- The number of blocks in the intermediate language so far. -/
  blocks : Nat

/-- Why the lowering of an expression stops. -/
inductive Stop where
  | reported
  /-- For a block whose text makes all work be given up. -/
  | abandoned
deriving DecidableEq, Repr

/-- Emits instructions and reports faults. -/
abbrev Lower := ReaderT Env (ExceptT Stop (StateM State))

/-- Where the jumps out of the body of a loop go. -/
structure Loop where
  next : String
  leave : String

/-- Where a variable is kept. -/
def placeOf : Variable → Place
  | .slot name => .var name
  | .global name => .global name

namespace Lower

/-- Reports a fault and goes on. -/
def report (span : Span) (fault : Fault) : Lower PUnit :=
  modify fun s => { s with reports := s.reports.push (fault.at span) }

/-- Reports a fault and stops. -/
def fail {α : Type} (span : Span) (fault : Fault) : Lower α := do
  report span fault
  throw .reported

/-- Goes on after a fault that has been reported, without a result. -/
def attempt? {α : Type} (x : Lower α) : Lower (Option α) :=
  tryCatch (some <$> x) fun
    | .reported => return none
    | .abandoned => throw .abandoned

/-- Adds an instruction. -/
def emit (i : Instr) : Lower PUnit :=
  modify fun s => { s with code := s.code.push i }

/-- Adds a variable of the function. -/
def declare (name : String) (ty : WordType) : Lower PUnit :=
  modify fun s => { s with vars := s.vars.push ⟨name, ty⟩ }

/-- A new variable for a value of the given kind. -/
def temp (ty : WordType) : Lower String := do
  let name ← modifyGet fun s => (toString s.temps, { s with temps := s.temps + 1 })
  declare name ty
  return name

/-- A label that is not used yet. -/
def label : Lower String :=
  modifyGet fun s => (s!"L{s.labels}", { s with labels := s.labels + 1 })

/-- A text of the module, which is kept once. -/
def string (text : String) : Lower Operand :=
  modifyGet fun s =>
    match s.strings.idxOf? text with
    | some index => (.str index, s)
    | none => (.str s.strings.length, { s with strings := s.strings ++ [text] })

/-- The type of what is kept in a place. -/
def wordType (place : Place) : Lower WordType := do
  let env ← read
  return match place with
    | .var name => (env.slots.lookup name).getD .i64
    | .global name => (env.globals.lookup name).getD .i64

/-- Moves a value to a variable. -/
def assign (var : Variable) (value : Operand) : Lower PUnit := do
  let place := placeOf var
  emit (.move place (← wordType place) value)

/-- The result of an operation on two words. -/
def binary (op : Ir.BinOp) (ty : WordType) (lhs rhs : Operand) : Lower Operand := do
  let dst ← temp (op.resultType ty)
  emit (.binary (.var dst) op ty lhs rhs)
  return .var dst

/-- The result of an operation on one word. -/
def unary (op : Ir.UnOp) (ty : WordType) (operand : Operand) : Lower Operand := do
  let dst ← temp ty
  emit (.unary (.var dst) op ty operand)
  return .var dst

/-- Calls a function for its result. -/
def call (callee : String) (args : List Operand) (ty : WordType) : Lower Operand := do
  let dst ← temp ty
  emit (.call (some (.var dst)) callee args)
  return .var dst

/-- What memory holds at a distance from an address. -/
def load (ty : WordType) (base : Operand) (offset : Int64) : Lower Operand := do
  let dst ← temp ty
  emit (.load (.var dst) ty base offset)
  return .var dst

end Lower

end Endmark.Lowering

import Endmark.Ir.Reach
import Endmark.Lowering.Statements

/-!
# Lowering modules

All functions are lowered in order, so that their string constants and faults come in that
order; then those that are never reached from the start of the program are left out.
-/

namespace Endmark.Lowering

open Ir (WordType Instr)

/-- Why a typed program has no code. -/
inductive Failure where
  | faults (reports : List Diagnostic)
  /-- All work was given up. -/
  | abandoned
deriving DecidableEq, Repr

def varOf (l : Typed.Local) : Ir.Var :=
  ⟨l.name, .ofTy l.ty⟩

/-- Is a return the last instruction? -/
def endsWithReturn (code : Array Instr) : Bool :=
  match code.back? with
  | some (.ret _) => true
  | _ => false

/-- The body of a function.  Without an end of its own it returns zero. -/
def Lower.body (f : Typed.Function) : Lower PUnit := do
  stmts none f.body
  if !endsWithReturn (← get).code then
    emit (.ret (some (.int 0)))

/-- Lowers a function, with the string constants and reports so far. -/
def function (globals : List (String × WordType)) (strings : List String)
    (reports : Array Diagnostic) (f : Typed.Function) :
    Except Stop (Ir.Function × List String × Array Diagnostic) :=
  let vars := f.locals.map varOf
  let params := f.params.map varOf
  let env : Env := ⟨(params ++ vars).map fun v => (v.name, v.ty), globals⟩
  let start : State := ⟨strings, reports, vars.toArray, #[], 0, 0, 0⟩
  match ((Lower.body f).run env).run start with
  | (.error stop, _) => .error stop
  | (.ok _, s) =>
    .ok (⟨f.name, params, .ofTy f.result, s.vars.toList, s.code.toList, f.span⟩,
      s.strings, s.reports)

/-- Lowers functions in order, with the string constants and reports so far. -/
def functions (globals : List (String × WordType)) :
    List String → Array Diagnostic → List Typed.Function →
      Except Stop (List Ir.Function × List String × Array Diagnostic)
  | strings, reports, [] => .ok ([], strings, reports)
  | strings, reports, f :: rest => do
    let (first, strings, reports) ← function globals strings reports f
    let (others, strings, reports) ← functions globals strings reports rest
    return (first :: others, strings, reports)

/-- Lowers a module, unless there is a fault. -/
def lower (m : Typed.Module) : Except Failure Ir.Module :=
  let globals : List Ir.Var := m.globals.map fun g => ⟨g.name, .ofTy g.ty⟩
  match functions (globals.map fun g => (g.name, g.ty)) [] #[] m.functions with
  | .error _ => .error .abandoned
  | .ok (all, strings, reports) =>
    if reports.isEmpty then
      let reached := Ir.keepReached all (m.entry :: m.init.toList)
      .ok ⟨reached, globals, strings, m.entry, m.init⟩
    else
      .error (.faults reports.toList)

end Endmark.Lowering

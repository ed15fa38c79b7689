import Endmark.Typed.Statements

/-!
# Type inference

Passes over the whole program are made until one leaves the tables as it found them, but at
most sixteen; the reports and the typed trees are those of the last pass.
-/

namespace Endmark.Typed

open Endmark.Tree (Program)

/-- The scopes with the functions that can be called. -/
def functionScopes (plan : Plan) (prev : Tables) : Scopes :=
  (plan.functions.zipIdx.filter (!·.1.topLevel)).foldl
    (fun (t : Scopes) (g, k) =>
      let types := prev.function k
      t.declare 0 g.name (.function types.params types.result) .function g.span g.name)
    .new

/-- The scopes at the start of a function: that of the module, with all functions and, for a
function proper, all globals, and its own with its parameters. -/
def startScopes (plan : Plan) (prev : Tables) (index : Nat) (f : FunctionPlan) : Scopes :=
  let globals := if f.topLevel then [] else plan.globals
  let module := globals.foldl
    (fun (t : Scopes) (name, span) =>
      t.declare 0 name ((prev.global? name).getD .unknown) .global span name)
    (functionScopes plan prev)
  f.params.zipIdx.foldl
    (fun (t : Scopes) (p, k) =>
      t.declare 1 p.name ((prev.param? index k).getD .unknown) .parameter p.span p.name)
    (module.push 0 .function)

/-- Checks the function with the given number; the tables and reports go on from those
given. -/
def checkFunction (plan : Plan) (prev : Tables) (found : Tables) (reports : Array Diagnostic)
    (index : Nat) (f : FunctionPlan) : Function × Tables × Array Diagnostic :=
  let env : Env :=
    { plan, prev, index
      function := f
      assigned := if f.topLevel then [] else (boundByAll f.body).map (·.name) }
  let start : State :=
    { found, reports
      scopes := startScopes plan prev index f
      scope := 1
      again := f.params.map fun p => (p.name, 0)
      locals := [] }
  let (body, s) := (Check.stmts f.body).run env |>.run start
  let params := f.params.zipIdx.map fun (p, k) =>
    ⟨p.name, p.name, .refined (prev.param? index k) ((s.found.param? index k).getD .unknown),
      p.span⟩
  let locals := s.locals.map fun l =>
    { l with
      ty := .refined (prev.slot? index l.name) ((s.found.slot? index l.name).getD .unknown) }
  (⟨f.name, params, (s.found.function index).result, locals, body, f.span, f.topLevel⟩,
    s.found, s.reports)

/-- Checks the functions in turn, and records what each finds. -/
def checkFunctions (plan : Plan) (prev : Tables) :
    Tables → Array Diagnostic → Nat → List FunctionPlan → List Function × Tables × Array Diagnostic
  | found, reports, _, [] => ([], found, reports)
  | found, reports, index, f :: rest =>
    let (first, found, reports) := checkFunction plan prev found reports index f
    let (others, found, reports) := checkFunctions plan prev found reports (index + 1) rest
    (first :: others, found, reports)

/-- What one pass over the program gives. -/
structure Pass where
  module : Module
  found : Tables
  reports : Array Diagnostic

/-- One pass over a program, which reads what the pass before has found. -/
def pass (plan : Plan) (prev : Tables) : Pass :=
  let (functions, found, reports) :=
    checkFunctions plan prev (.initial plan) #[] 0 plan.functions
  let globals := plan.globals.map fun (name, span) =>
    ⟨name, (found.global? name).getD .unknown, span⟩
  ⟨⟨functions, globals, plan.entry, plan.init⟩, found, reports⟩

/-- The number of passes after which inference stops. -/
def maxPasses : Nat := 16

/-- Passes until one leaves the tables as they are, one more than `further` at most, and
whether one does. -/
def settle (plan : Plan) : Nat → Tables → Pass × Bool
  | 0, tables =>
    let last := pass plan tables
    (last, last.found = tables)
  | further + 1, tables =>
    let this := pass plan tables
    if this.found = tables then (this, true) else settle plan further this.found

/-- What is inferred of a program: the typed program, if no error is reported. -/
structure Inferred where
  module : Option Module
  diagnostics : List Diagnostic
  /-- Whether the last pass left the tables as it found them. -/
  settled : Bool

/-- Resolves the names and infers the types of a program. -/
def infer (program : Program) : Inferred :=
  let (plan, planReports) := (collect program).run #[]
  if Diagnostic.anyError planReports.toList then
    ⟨none, planReports.toList, true⟩
  else
    let (last, settled) := settle plan (maxPasses - 1) (.initial plan)
    let reports := planReports.toList ++ last.reports.toList
    ⟨if Diagnostic.anyError reports then none else some last.module, reports, settled⟩

end Endmark.Typed

import Endmark.Types.Operators
import Endmark.Typed.Fault

/-!
# The plan of a program

What is known before types are inferred: the functions with their annotations, the globals,
and where the program starts.  The statements outside of functions form a function of their
own.
-/

namespace Endmark.Typed

open Endmark.Tree (Ident Item Program)

/-- The name of the function that holds the statements outside of functions, when the
program has a `main` of its own. -/
def initName : String := "__aim_init"

/-- How names kept for the compiler start. -/
def reservedStart : String := "__aim_"

/-- Is the name kept for the runtime? -/
def isReserved (name : String) : Bool :=
  name == "_start" || reservedStart.isPrefixOf name

/-- A parameter with its declared type. -/
structure ParamPlan where
  name : String
  span : Span
  declared : Option Ty
deriving DecidableEq, Repr, Inhabited

/-- A function and the types written for it.  At the top level assignments bind globals. -/
structure FunctionPlan where
  name : String
  params : List ParamPlan
  ret : Option Ty
  body : List Tree.Stmt
  span : Span
  topLevel : Bool
deriving Inhabited

/-- What is known of a program before its types are. -/
structure Plan where
  functions : List FunctionPlan
  /-- The globals in the order of their names, with the place where each is first bound. -/
  globals : List (String × Span)
  entry : String
  init : Option String

namespace Plan

/-- The number of the function that a call names; code outside of functions has no name to
call it by. -/
def callable? (p : Plan) (name : String) : Option Nat :=
  p.functions.findIdx? fun f => f.name == name && !f.topLevel

end Plan

/-! ### Names bound by statements -/

mutual

/-- The names that a statement binds, in order. -/
def boundBy : Tree.Stmt → List Ident
  | .assign _ (.name ident) _ _ => [ident]
  | .forLoop _ target _ body => target :: boundByAll body
  | .whileLoop _ _ body => boundByAll body
  | .branch _ arms otherwise => boundByArms arms ++ boundByOption otherwise
  | _ => []

/-- The names that statements bind, in order. -/
def boundByAll : List Tree.Stmt → List Ident
  | [] => []
  | s :: rest => boundBy s ++ boundByAll rest

/-- The names that the bodies of a branch bind, in order. -/
def boundByArms : List Tree.Arm → List Ident
  | [] => []
  | .mk _ body :: rest => boundByAll body ++ boundByArms rest

/-- The names that the last part of a branch binds, in order. -/
def boundByOption : Option (List Tree.Stmt) → List Ident
  | none => []
  | some body => boundByAll body

end

/-- The first occurrence of each name. -/
def firstBindings : List Ident → List (String × Span)
  | [] => []
  | ident :: rest => (ident.name, ident.span) :: (firstBindings rest).filter (·.1 != ident.name)

/-- The globals that statements bind, in the order of their names. -/
def globalsOf (stmts : List Tree.Stmt) : List (String × Span) :=
  (firstBindings (boundByAll stmts)).mergeSort fun a b => a.1 ≤ b.1

/-! ### Functions -/

/-- Collecting a plan gathers reports on the way. -/
abbrev Collect := StateM (Array Diagnostic)

def Collect.report (span : Span) (fault : Fault) : Collect PUnit :=
  modify (·.push (fault.at span))

/-- The functions with the first one of each name only; the others are reported. -/
def distinct (fault : String → Fault) :
    List Tree.Function → List Tree.Function → Collect (List Tree.Function)
  | kept, [] => return kept
  | kept, f :: rest => do
    if kept.any (·.name.name == f.name.name) then
      Collect.report f.name.span (fault f.name.name)
      distinct fault kept rest
    else
      distinct fault (kept ++ [f]) rest

/-- Reports a name that may not be defined. -/
def reportName (name : Ident) : Collect PUnit := do
  if (Builtin.find? name.name).isSome then
    Collect.report name.span (.builtinRedefined name.name)
  else if isReserved name.name then
    Collect.report name.span (.reservedName name.name)

/-- The type of an annotation, if there is one and it means something. -/
def declaredType : Option Tree.TypeExpr → Collect (Option Ty)
  | none => return none
  | some expr =>
    match Ty.ofTypeExpr expr with
    | .ok ty => return some ty
    | .error name => do
      Collect.report expr.span (.unknownType name)
      return none

/-- Adds parameters to those planned, and reports those named twice. -/
def planParams : List ParamPlan → List Tree.Param → Collect (List ParamPlan)
  | planned, [] => return planned
  | planned, p :: rest => do
    if planned.any (·.name == p.name.name) then
      Collect.report p.name.span (.duplicateParam p.name.name)
    let ty ← declaredType p.declared
    planParams (planned ++ [⟨p.name.name, p.name.span, ty⟩]) rest

/-- Plans a function, and reports what is wrong with its head. -/
def planFunction (f : Tree.Function) : Collect FunctionPlan := do
  reportName f.name
  let params ← planParams [] f.params
  if f.name.name == "main" && !params.isEmpty then
    Collect.report f.name.span .mainTakesParams
  let ret ← declaredType f.ret
  return ⟨f.name.name, params, ret, f.body, f.span, false⟩

def functionsIn (items : List Item) : List Tree.Function :=
  items.filterMap fun
    | .function f => some f
    | .statement _ => none

def statementsIn (items : List Item) : List Tree.Stmt :=
  items.filterMap fun
    | .function _ => none
    | .statement s => some s

/-- The span of the statements outside of functions. -/
def topSpan (file : Option Nat) (top : List Tree.Stmt) : Span :=
  match top.head?, top.getLast? with
  | some first, some last => first.span.join last.span
  | _, _ => ⟨file, 0, 0⟩

/-- The plan of a program.  A function of the main unit takes the place of a library
function of the same name. -/
def collect (program : Program) : Collect Plan := do
  let libraryItems := program.libraries.flatMap (·.items)
  let library ← distinct .libraryRedefined [] (functionsIn libraryItems)
  let own ← distinct .redefined [] (functionsIn program.main.items)
  let library := library.filter fun f => !own.any (·.name.name == f.name.name)
  let functions ← (library ++ own).mapM planFunction
  let top := statementsIn program.main.items
  let hasMain := functions.any (·.name == "main")
  let init := if hasMain && !top.isEmpty then some initName else none
  let synthetic : List FunctionPlan :=
    if !hasMain || !top.isEmpty then
      [⟨init.getD "main", [], none, top, topSpan program.main.file top, true⟩]
    else
      []
  return ⟨functions ++ synthetic, globalsOf top, "main", init⟩

end Endmark.Typed

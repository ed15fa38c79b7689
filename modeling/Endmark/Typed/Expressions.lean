import Endmark.Typed.Binding

/-!
# Types of expressions

Operands are checked from the left to the right, each of them once.  What has been reported
has the type of a fault, which goes on without further reports.
-/

namespace Endmark.Typed.Check

open Endmark.Tree (Ident BinaryOp UnaryOp Literal)

/-- The type of a literal.  Nothing is known of what stands for the lack of a value. -/
def literalType : Literal → Ty
  | .int _ => .int
  | .float _ => .float
  | .str _ => .str
  | .bool _ => .bool
  | .none => .unknown

/-- A name that is used as a value. -/
def name (name : String) (span : Span) : Check Expr := do
  match ← symbol? name with
  | none =>
    report span (if (Builtin.find? name).isSome then .builtinAsValue name else .unboundName name)
    return .faulty span
  | some symbol =>
    match symbol.kind with
    | .global =>
      if (← read).assigned.contains name then
        report span (.readBeforeAssigned name)
        return .faulty span
      else
        return .var ⟨symbol.ty, span⟩ (.global symbol.slot)
    | .variable | .parameter => return .var ⟨symbol.ty, span⟩ (.slot symbol.slot)
    | .function => return .function ⟨symbol.ty, span⟩ symbol.name

/-- An operation on two checked operands. -/
def binary (op : BinaryOp) (lhs rhs : Expr) (span : Span) : Check Expr := do
  match Ty.binary? op lhs.ty rhs.ty with
  | some ty => return .binary ⟨ty, span⟩ op lhs rhs
  | none =>
    report span (.binaryOperands op lhs.ty rhs.ty)
    return .binary ⟨.error, span⟩ op lhs rhs

/-- A unary operation on a checked operand. -/
def unary (op : UnaryOp) (operand : Expr) (span : Span) : Check Expr := do
  match Ty.unary? op operand.ty with
  | some ty => return .unary ⟨ty, span⟩ op operand
  | none =>
    report span (.unaryOperand op operand.ty)
    return .unary ⟨.error, span⟩ op operand

/-- Reports an index that is no number. -/
def indexType (index : Expr) : Check PUnit := do
  match index.ty with
  | .int | .bool | .unknown | .error => return ⟨⟩
  | ty => report index.span (.indexType ty)

/-- The type of the items of a value, if it has items; a string consists of strings. -/
def itemType? : Ty → Option Ty
  | .list item => some item
  | .str => some .str
  | .unknown => some .unknown
  | .error => some .error
  | _ => none

/-- An item of a list or a string. -/
def item (base index : Expr) (span : Span) : Check Expr := do
  match itemType? base.ty with
  | some ty => return .index ⟨ty, span⟩ base index
  | none =>
    report base.span (.notIndexed base.ty)
    return .index ⟨.error, span⟩ base index

/-- A list of checked items.  Items that do not agree are allowed, with a warning. -/
def list (items : List Expr) (span : Span) : Check Expr := do
  match (items.map (·.ty)).foldlM Ty.join .unknown with
  | some ty => return .list ⟨.list ty, span⟩ items
  | none =>
    modify fun s =>
      { s with
        reports := s.reports.push (.warning .typeConflict span
          "list elements have different types; the list is typed `list[unknown]`") }
    return .list ⟨.list .unknown, span⟩ items

/-- Checks an argument and records its type for the parameter. -/
def argument (callee : String) (target k : Nat) (param : ParamPlan) (arg : Expr) :
    Check PUnit := do
  if arg.ty.isError then
    return ⟨⟩
  match param.declared with
  | some declared =>
    if !declared.fits arg.ty then
      report arg.span (.declaredParam param.name callee declared arg.ty)
  | none =>
    let s ← get
    match ((s.found.param? target k).getD .unknown).absorb arg.ty with
    | .ok joined => set { s with found := s.found.setParam target k joined }
    | .error held => report arg.span (.otherArgument param.name callee held arg.ty)

def arguments (callee : String) (target : Nat) : Nat → List ParamPlan → List Expr → Check PUnit
  | k, param :: params, arg :: args => do
    argument callee target k param arg
    arguments callee target (k + 1) params args
  | _, _, _ => return ⟨⟩

/-- A call of a function of the program. -/
def callFunction (callee : Ident) (args : List Expr) (span : Span) : Check Expr := do
  let env ← read
  match env.plan.callable? callee.name with
  | none =>
    report callee.span (.unboundFunction callee.name)
    return .faulty span
  | some target =>
    let params := (env.plan.functions.getD target default).params
    if args.length ≠ params.length then
      report span (.argumentCount callee.name (toString params.length) args.length)
      return .faulty span
    else
      arguments callee.name target 0 params args
      return .call ⟨(env.prev.function target).result, span⟩ callee.name args

/-- A call of a function that every program has. -/
def callBuiltin (callee : Ident) (args : List Expr) (span : Span) : Check Expr := do
  match Builtin.find? callee.name with
  | none =>
    report callee.span (.unboundFunction callee.name)
    return .faulty span
  | some builtin =>
    if !builtin.accepts args.length then
      report span (.argumentCount callee.name builtin.arity args.length)
      return .faulty span
    else
      match builtin.kind.result (args.map (·.ty)) with
      | .ok ty => return .builtin ⟨ty, span⟩ builtin.kind args
      | .error fault =>
        report span (.builtin fault)
        return .builtin ⟨.error, span⟩ builtin.kind args

/-- A call with checked arguments.  What is declared in the program comes first. -/
def call (callee : Ident) (args : List Expr) (span : Span) : Check Expr := do
  match ← symbol? callee.name with
  | some symbol =>
    if symbol.kind = .function then
      callFunction callee args span
    else
      report callee.span (.notFunction callee.name)
      return .faulty span
  | none => callBuiltin callee args span

mutual

/-- The expression with its types.  A fault is reported where it is. -/
def expr : Tree.Expr → Check Expr
  | .literal span value => return .literal ⟨literalType value, span⟩ value
  | .name span n => name n span
  | .binary span op lhs rhs => do
    let lhs ← expr lhs
    let rhs ← expr rhs
    binary op lhs rhs span
  | .unary span op operand => do
    let operand ← expr operand
    unary op operand span
  | .call span callee args => do
    let args ← exprs args
    call callee args span
  | .list span items => do
    let items ← exprs items
    list items span
  | .index span base index => do
    let base ← expr base
    let index ← expr index
    indexType index
    item base index span
  | .fstring span ps => do
    let ps ← parts ps
    return .fstring ⟨.str, span⟩ ps
  | .raw span raw => do
    let block ← rawBlock raw span
    return .raw ⟨.unknown, span⟩ block
  | .error span => return .faulty span

def exprs : List Tree.Expr → Check (List Expr)
  | [] => return []
  | e :: rest => do
    let first ← expr e
    let others ← exprs rest
    return first :: others

def parts : List Tree.FStringPart → Check (List FStringPart)
  | [] => return []
  | .text t :: rest => do
    let others ← parts rest
    return .text t :: others
  | .field e :: rest => do
    let e ← expr e
    if e.ty.isFunction then
      report e.span .formattedFunction
    let others ← parts rest
    return .field e :: others

end

end Endmark.Typed.Check

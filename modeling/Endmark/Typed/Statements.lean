import Endmark.Typed.Expressions

/-!
# Types of statements

A statement that cannot be kept, because it assigns to a function, is left out.  Blocks open
scopes of their own, the body of a function does not.
-/

namespace Endmark.Typed.Check

open Endmark.Tree (BinaryOp)

/-- A condition, which may be of any type with a truth value. -/
def condition (e : Tree.Expr) : Check Expr := do
  let cond ← expr e
  if cond.ty.isTruthy then
    return cond
  else
    report cond.span (.condition cond.ty)
    return .faulty cond.span

/-- Checks a returned value and records its type. -/
def returned (value : Expr) : Check PUnit := do
  let env ← read
  match env.function.ret with
  | some declared =>
    if !declared.fits value.ty then
      report value.span (.declaredReturn env.function.name declared value.ty)
  | none =>
    let s ← get
    match (s.found.function env.index).result.absorb value.ty with
    | .ok joined => set { s with found := s.found.setResult env.index joined }
    | .error held => report value.span (.otherReturn env.function.name held value.ty)

/-- Reports a value that cannot be stored in an item of the base. -/
def storable (base value : Expr) : Check PUnit := do
  match base.ty with
  | .list item =>
    if (item.join value.ty).isNone then
      report value.span (.storedItem value.ty base.ty)
  | .str => report base.span .storedInString
  | .unknown | .error => return ⟨⟩
  | ty => report base.span (.noItemAssignment ty)

/-- What is stored by an assignment with an operator or without one, where `current` reads
what the target holds. -/
def stored (op : Option BinaryOp) (current : Check Expr) (value : Expr) (span : Span) :
    Check Expr := do
  match op with
  | some op => binary op (← current) value span
  | none => return value

/-- An assignment, which binds a name that is not bound. -/
def assignment (target : Tree.Target) (op : Option BinaryOp) (value : Tree.Expr) (span : Span) :
    Check (Option Stmt) := do
  let value ← expr value
  match target with
  | .name ident =>
    let value ← stored op (name ident.name ident.span) value span
    let var? ← assign ident value.ty
    return var?.map fun var => .assign span (.var var) value
  | .index base index =>
    let base ← expr base
    let index ← expr index
    let value ← stored op (item base index span) value span
    storable base value
    indexType index
    return some (.assign span (.index base index) value)

/-- The type of the variable of a loop over a checked value. -/
def loopItem (iter : Expr) : Check Ty := do
  match itemType? iter.ty with
  | some ty => return ty
  | none =>
    report iter.span (.iterated iter.ty)
    return .error

mutual

/-- The statement with its types, or nothing where it has a fault. -/
def stmt : Tree.Stmt → Check (Option Stmt)
  | .branch span arms otherwise => do
    let checked ← armsOf arms
    let other ← lastOf otherwise
    return some (.branch span checked other)
  | .whileLoop span cond body => do
    let cond ← condition cond
    let body ← block (stmts body)
    return some (.whileLoop span cond body)
  | .forLoop span target iter body => do
    let iter ← expr iter
    let item ← loopItem iter
    let var? ← assign target item
    let body ← block (stmts body)
    return var?.map fun var => .forLoop span var iter body
  | .ret span none => return some (.ret span none)
  | .ret span (some value) => do
    let value ← expr value
    returned value
    return some (.ret span (some value))
  | .assign span target op value => assignment target op value span
  | .expr span e => do
    let e ← expr e
    return some (.expr span e)
  | .leave span => return some (.leave span)
  | .next span => return some (.next span)
  | .pass _ => return none
  | .raw span raw => do
    let block ← rawBlock raw span
    return some (.raw span block)

def stmts : List Tree.Stmt → Check (List Stmt)
  | [] => return []
  | s :: rest => do
    let first ← stmt s
    let others ← stmts rest
    return first.toList ++ others

/-- Checks the conditions and bodies of a branch in order. -/
def armsOf : List Tree.Arm → Check (List Arm)
  | [] => return []
  | .mk cond body :: rest => do
    let cond ← condition cond
    let body ← block (stmts body)
    let others ← armsOf rest
    return .mk cond body :: others

def lastOf : Option (List Tree.Stmt) → Check (List Stmt)
  | none => return []
  | some body => block (stmts body)

end

end Endmark.Typed.Check

import Endmark.Lowering.Expressions

/-!
# Lowering statements

A statement with a fault that has been reported is left where it is, and the next one
follows.
-/

namespace Endmark.Lowering

open Ir (WordType Operand)
open Typed (Expr Stmt Arm Variable)

/-- The integer that an expression spells, if it is written out; signs are allowed. -/
def constant? : Expr → Option Int64
  | .literal _ (.int value) => some value
  | .unary _ .neg operand => (constant? operand).map (- ·)
  | .unary _ .plus operand => constant? operand
  | _ => none

namespace Lower

/-! ### Loops -/

/-- A loop that counts from `start` on, by a step other than zero, as long as `stop` is not
reached.  The variable gets a copy of the counter. -/
def countingLoop (var : Variable) (start stop : Operand) (step : Int64)
    (body : Loop → Lower PUnit) : Lower PUnit := do
  let counter ← temp .i64
  let limit ← temp .i64
  emit (.move (.var counter) .i64 start)
  emit (.move (.var limit) .i64 stop)
  let head ← label
  let inside ← label
  let next ← label
  let leave ← label
  emit (.label head)
  let more ← binary (if 0 < step then .lt else .gt) .i64 (.var counter) (.var limit)
  emit (.branch more inside leave)
  emit (.label inside)
  assign var (.var counter)
  body ⟨next, leave⟩
  emit (.label next)
  emit (.binary (.var counter) .add .i64 (.var counter) (.int step))
  emit (.jump head)
  emit (.label leave)

/-- The item of a string or list at a position that is in bounds. -/
def itemAt (sequence position : Operand) (ty : Ty) : Lower Operand := do
  match ty with
  | .str => call stringIndexRoutine [sequence, position] .ptr
  | .list elem => load (.ofTy elem) (← itemBefore sequence position) wordSize
  | _ => load .i64 (← itemBefore sequence position) wordSize

/-- A loop over the items of a string or list of the given type.  The length is read once. -/
def sequenceLoop (var : Variable) (value : Operand) (ty : Ty) (body : Loop → Lower PUnit) :
    Lower PUnit := do
  let sequence ← temp .ptr
  emit (.move (.var sequence) .ptr value)
  let position ← temp .i64
  let length ← temp .i64
  emit (.move (.var position) .i64 (.int 0))
  emit (.load (.var length) .i64 (.var sequence) 0)
  let head ← label
  let inside ← label
  let next ← label
  let leave ← label
  emit (.label head)
  let more ← binary .lt .i64 (.var position) (.var length)
  emit (.branch more inside leave)
  emit (.label inside)
  assign var (← itemAt (.var sequence) (.var position) ty)
  body ⟨next, leave⟩
  emit (.label next)
  emit (.binary (.var position) .add .i64 (.var position) (.int 1))
  emit (.jump head)
  emit (.label leave)

/-- The step of a counting loop, from the third of its arguments. -/
def stepOf : Option Expr → Lower Int64
  | none => return 1
  | some arg =>
    match constant? arg with
    | some step => if step = 0 then fail arg.span .rangeStepZero else return step
    | none => fail arg.span .rangeStepVaries

/-- The bounds of a counting loop.  Both are lowered even if the first one has a fault. -/
def boundsOf (span : Span) : List Expr → Lower (Operand × Operand)
  | [] => fail span .rangeWithoutArguments
  | [stop] => do
    let stop ← expr stop
    return (.int 0, stop)
  | start :: stop :: _ => do
    let start? ← attempt? (expr start)
    let stop ← expr stop
    match start? with
    | some start => return (start, stop)
    | none => throw .reported

/-- A `for` loop.  One over a range that is written there counts, and makes no list. -/
def forLoop (var : Variable) (iter : Expr) (body : Loop → Lower PUnit) : Lower PUnit := do
  match iter with
  | .builtin note .range args =>
    let step ← stepOf args[2]?
    let (start, stop) ← boundsOf note.span args
    countingLoop var start stop step body
  | iter =>
    let value ← expr iter
    sequenceLoop var value iter.ty body

/-- A loop as long as a condition holds. -/
def whileLoop (cond : Expr) (body : Loop → Lower PUnit) : Lower PUnit := do
  let head ← label
  let inside ← label
  let leave ← label
  emit (.label head)
  let value ← expr cond
  let holds ← truth value cond.ty
  emit (.branch holds inside leave)
  emit (.label inside)
  body ⟨head, leave⟩
  emit (.jump head)
  emit (.label leave)

/-! ### Statements -/

/-- An assignment.  The value comes before the parts of the target. -/
def assignment (target : Typed.Place) (value : Expr) : Lower PUnit := do
  let v ← expr value
  match target with
  | .var var => assign var v
  | .index base index =>
    let b ← expr base
    let i ← expr index
    let address ← checkedItemBefore b i
    emit (.store (.ofTy value.ty) address wordSize v)

def returned : Option Expr → Lower Operand
  | some value => expr value
  | none => return .int 0

/-- Jumps out of the body of a loop, if there is one. -/
def jumpOut (loop : Option Loop) (target : Loop → String) : Lower PUnit :=
  match loop with
  | some loop => emit (.jump (target loop))
  | none => return ⟨⟩

mutual

/-- Lowers a statement in the body of a loop, or of none. -/
def stmt (loop : Option Loop) : Stmt → Lower PUnit
  | .assign _ target value => assignment target value
  | .expr _ e => do
    let _ ← expr e
    return ⟨⟩
  | .branch _ arms otherwise => do
    let done ← label
    armsOf loop done arms
    stmts loop otherwise
    emit (.label done)
  | .whileLoop _ cond body => whileLoop cond fun inner => stmts (some inner) body
  | .forLoop _ var iter body => forLoop var iter fun inner => stmts (some inner) body
  | .ret _ value => do
    let value ← returned value
    emit (.ret (some value))
  | .leave _ => jumpOut loop (·.leave)
  | .next _ => jumpOut loop (·.next)
  | .raw _ block => rawStmt block

/-- Lowers the conditions and bodies of a branch in order; `done` follows the branch. -/
def armsOf (loop : Option Loop) (done : String) : List Arm → Lower PUnit
  | [] => return ⟨⟩
  | .mk cond body :: rest => do
    let value ← expr cond
    let holds ← truth value cond.ty
    let inside ← label
    let next ← label
    emit (.branch holds inside next)
    emit (.label inside)
    stmts loop body
    emit (.jump done)
    emit (.label next)
    armsOf loop done rest

/-- Lowers each statement, also after one with a fault. -/
def stmts (loop : Option Loop) : List Stmt → Lower PUnit
  | [] => return ⟨⟩
  | s :: rest => do
    let _ ← attempt? (stmt loop s)
    stmts loop rest

end

end Lower

end Endmark.Lowering

import Endmark.Lowering.Raw
import Endmark.Lowering.Values

/-!
# Lowering expressions

Operands are lowered from the left to the right; the value of an expression is an operand.
-/

namespace Endmark.Lowering

open Ir (WordType Operand)
open Typed (Expr FStringPart)
open Endmark.Tree (UnaryOp)

namespace Lower

/-- An operation on a value of the given type, with a result of the given type. -/
def unaryValue (op : UnaryOp) (result : Ty) (value : Operand) (ty : Ty) : Lower Operand := do
  match op with
  | .plus => return value
  | .neg =>
    if result = .float then
      unary .neg .f64 (← toFloat value ty)
    else
      unary .neg .i64 value
  | .not => unary .not .bool (← truth value ty)

/-- An item of a list or a string, whose index is checked. -/
def item (base index : Operand) (baseTy result : Ty) : Lower Operand := do
  if baseTy = .str then
    call stringIndexRoutine [base, index] .ptr
  else
    load (.ofTy result) (← checkedItemBefore base index) wordSize

/-- A call of a function that every program has, with the values and types of its arguments,
where the arguments are all that matters. -/
def builtin (kind : Builtin.Kind) (args : List (Operand × Ty)) (span : Span) : Lower Operand := do
  match kind, args with
  | .len, (value, _) :: _ => load .i64 value 0
  | .str, (value, ty) :: _ => text value ty span
  | .int, (value, .float) :: _ => unary .floatToInt .i64 value
  | .int, (value, _) :: _ => return value
  | .float, (value, ty) :: _ => toFloat value ty
  | .range, [(stop, _)] => call rangeRoutine [.int 0, stop] .ptr
  | .range, [(start, _), (stop, _)] => call rangeRoutine [start, stop] .ptr
  | .exit, (status, _) :: _ =>
    emit (.call none exitRoutine [status])
    return .int 0
  | _, _ => fail span .untyped

/-- The text so far followed by another one, with a space between them. -/
def joinWords (line : Option Operand) (word : Operand) : Lower Operand := do
  match line with
  | none => return word
  | some line =>
    let space ← string " "
    concat (← concat line space) word

/-- The text so far followed by another one. -/
def joinParts (line : Option Operand) (part : Operand) : Lower Operand :=
  match line with
  | none => return part
  | some line => concat line part

def orEmpty : Option Operand → Lower Operand
  | some line => return line
  | none => string ""

mutual

/-- Emits the instructions of an expression.  Its value is the operand. -/
def expr : Expr → Lower Operand
  | .literal _ value => literal value
  | .var _ var => return (placeOf var).operand
  | .function note name => fail note.span (.functionAsValue name)
  | .binary note op lhs rhs =>
    if op = .and ∨ op = .or then
      shortCircuit op
        (do let value ← expr lhs; truth value lhs.ty)
        (do let value ← expr rhs; truth value rhs.ty)
    else do
      let l ← expr lhs
      let r ← expr rhs
      match comparison? op with
      | some comparison => compare comparison l r lhs.ty rhs.ty
      | none => arithmetic op note.ty l r lhs.ty rhs.ty (lhs.span.join rhs.span)
  | .unary note op operand => do
    let value ← expr operand
    unaryValue op note.ty value operand.ty
  | .call note callee args => do
    let values ← exprs args
    call callee (values.map (·.1)) (.ofTy note.ty)
  | .builtin note kind args =>
    match kind with
    | .print => do
      let line ← words none args
      emit (.call none printRoutine [← orEmpty line])
      return .int 0
    | .range =>
      if 2 < args.length then
        fail note.span .rangeStepOutsideLoop
      else do
        let values ← exprs args
        builtin kind values note.span
    | kind => do
      let values ← exprs args
      builtin kind values (args.head?.elim note.span (·.span))
  | .list _ items => do
    let values ← exprs items
    newList (values.map fun (value, ty) => (value, .ofTy ty))
  | .index note base index => do
    let b ← expr base
    let i ← expr index
    item b i base.ty note.ty
  | .fstring _ ps => do
    let line ← parts none ps
    orEmpty line
  | .raw _ block => rawValue block
  | .error note => fail note.span .untyped

/-- Lowers expressions in order; gives their values with their types. -/
def exprs : List Expr → Lower (List (Operand × Ty))
  | [] => return []
  | e :: rest => do
    let value ← expr e
    let others ← exprs rest
    return (value, e.ty) :: others

/-- The texts of expressions in order, with spaces between them, after the text so far. -/
def words (line : Option Operand) : List Expr → Lower (Option Operand)
  | [] => return line
  | e :: rest => do
    let value ← expr e
    let word ← text value e.ty e.span
    let line ← joinWords line word
    words (some line) rest

/-- The parts of an f-string in order, after the text so far. -/
def parts (line : Option Operand) : List FStringPart → Lower (Option Operand)
  | [] => return line
  | .text t :: rest => do
    let part ← string t
    let line ← joinParts line part
    parts (some line) rest
  | .field e :: rest => do
    let value ← expr e
    let part ← text value e.ty e.span
    let line ← joinParts line part
    parts (some line) rest

end

end Lower

end Endmark.Lowering

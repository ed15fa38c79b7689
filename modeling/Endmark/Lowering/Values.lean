import Endmark.Lowering.Basic

/-!
# Operations on values

A list is the address of its length, after which its items follow, a word each; a string is
the address of its length, after which its bytes follow.  What takes more than a few
instructions is left to routines that are linked to every program that needs them.
-/

namespace Endmark.Lowering

open Ir (WordType Operand Instr)
open Number (Binary64)
open Endmark.Tree (BinaryOp Literal)

/-- Writes a string and a line feed. -/
def printRoutine : String := "__aim_print_str"

def intTextRoutine : String := "__aim_int_to_str"

def floatTextRoutine : String := "__aim_float_to_str"

def stringConcatRoutine : String := "__aim_str_concat"

def listConcatRoutine : String := "__aim_list_concat"

/-- Do two strings agree? -/
def stringEqRoutine : String := "__aim_str_eq"

def stringIndexRoutine : String := "__aim_str_index"

/-- The position that an index of a list means; the program ends if there is none. -/
def checkIndexRoutine : String := "__aim_check_index"

/-- The list of the integers from one to before another. -/
def rangeRoutine : String := "__aim_range"

def powerRoutine : String := "__aim_pow_int"

def exitRoutine : String := "__aim_exit"

/-- The size of a word, and of the length before the items of a list. -/
def wordSize : Int64 := 8

namespace Lower

/-- The value of a literal.  The lack of a value is zero. -/
def literal : Literal → Lower Operand
  | .int value => return .int value
  | .float value => return .float value
  | .bool value => return .bool value
  | .str text => string text
  | .none => return .int 0

/-- A value of the given type as a floating-point number. -/
def toFloat (value : Operand) (ty : Ty) : Lower Operand :=
  match ty, value with
  | .float, _ => return value
  | _, .int v => return .float (.ofInt v.toInt)
  | _, _ => unary .intToFloat .f64 value

/-- Does a value of the given type count as true?  Numbers do if they are not zero, strings
and lists if they are not empty. -/
def truth (value : Operand) (ty : Ty) : Lower Operand := do
  match ty with
  | .bool => return value
  | .float => binary .ne .f64 value (.float (.zero false))
  | .str | .list _ => binary .ne .i64 (← load .i64 value 0) (.int 0)
  | _ => binary .ne .i64 value (.int 0)

/-- The text of a truth value. -/
def truthText (value : Operand) : Lower Operand := do
  let out ← temp .ptr
  let yes ← label
  let no ← label
  let done ← label
  let yesText ← string "True"
  let noText ← string "False"
  emit (.branch value yes no)
  emit (.label yes)
  emit (.move (.var out) .ptr yesText)
  emit (.jump done)
  emit (.label no)
  emit (.move (.var out) .ptr noText)
  emit (.label done)
  return .var out

/-- The text of a value, as `str` has it. -/
def text (value : Operand) (ty : Ty) (span : Span) : Lower Operand :=
  match ty with
  | .str => return value
  | .float => call floatTextRoutine [value] .ptr
  | .bool => truthText value
  | .list _ => fail span .listAsText
  | .function _ _ => fail span .functionAsText
  | _ => call intTextRoutine [value] .ptr

/-- One text after the other. -/
def concat (lhs rhs : Operand) : Lower Operand :=
  call stringConcatRoutine [lhs, rhs] .ptr

/-- The address a word before an item of a list at a position that is in bounds. -/
def itemBefore (list position : Operand) : Lower Operand := do
  let scaled ← binary .mul .i64 position (.int wordSize)
  binary .add .ptr list scaled

/-- The address a word before an item of a list at any index. -/
def checkedItemBefore (list index : Operand) : Lower Operand := do
  let position ← call checkIndexRoutine [list, index] .i64
  itemBefore list position

/-- Stores items from an offset on. -/
def storeItems (list : Operand) (offset : Int64) : List (Operand × WordType) → Lower PUnit
  | [] => return ⟨⟩
  | (value, ty) :: rest => do
    emit (.store ty list offset value)
    storeItems list (offset + wordSize) rest

/-- A new list: its length, then its items. -/
def newList (items : List (Operand × WordType)) : Lower Operand := do
  let list ← temp .ptr
  let count := Int64.ofNat items.length
  emit (.alloc (.var list) (.int (wordSize + wordSize * count)))
  emit (.store .i64 (.var list) 0 (.int count))
  storeItems (.var list) wordSize items
  return .var list

def comparison? : BinaryOp → Option Ir.BinOp
  | .eq => some .eq
  | .notEq => some .ne
  | .less => some .lt
  | .lessEq => some .le
  | .greater => some .gt
  | .greaterEq => some .ge
  | _ => none

/-- The integer operation that an operator stands for. -/
def intOperation? : BinaryOp → Option Ir.BinOp
  | .add => some .add
  | .sub => some .sub
  | .mul => some .mul
  | .floorDiv => some .floorDiv
  | .mod => some .mod
  | _ => none

/-- The floating-point operation that an operator stands for when the result has the given
type.  Division always gives a floating-point number. -/
def floatOperation? (op : BinaryOp) (result : Ty) : Option Ir.BinOp :=
  match op, result with
  | .div, _ => some .div
  | .add, .float => some .add
  | .sub, .float => some .sub
  | .mul, .float => some .mul
  | _, _ => none

/-- A comparison of two values of the given types.  Of strings only equality is known. -/
def compare (op : Ir.BinOp) (lhs rhs : Operand) (lhsTy rhsTy : Ty) : Lower Operand := do
  if lhsTy = .str && rhsTy = .str then
    let same ← call stringEqRoutine [lhs, rhs] .bool
    if op = .ne then unary .not .bool same else return same
  else if lhsTy = .float || rhsTy = .float then
    let lhs ← toFloat lhs lhsTy
    let rhs ← toFloat rhs rhsTy
    binary op .f64 lhs rhs
  else
    binary op .i64 lhs rhs

/-- An arithmetic operation on two values of the given types. -/
def arithmetic (op : BinaryOp) (result : Ty) (lhs rhs : Operand) (lhsTy rhsTy : Ty) (span : Span) :
    Lower Operand := do
  match op, result with
  | .add, .str => concat lhs rhs
  | .add, .list _ => call listConcatRoutine [lhs, rhs] .ptr
  | .pow, _ => call powerRoutine [lhs, rhs] .i64
  | op, result =>
    match floatOperation? op result, intOperation? op with
    | some operation, _ =>
      let lhs ← toFloat lhs lhsTy
      let rhs ← toFloat rhs rhsTy
      binary operation .f64 lhs rhs
    | none, some operation => binary operation .i64 lhs rhs
    | none, none => fail span (.operator op)

/-- The truth of one operand, or of a second one if the first does not decide.  The result is
kept in a variable that both write. -/
def shortCircuit (op : BinaryOp) (lhs rhs : Lower Operand) : Lower Operand := do
  let out ← temp .bool
  emit (.move (.var out) .bool (← lhs))
  let second ← label
  let done ← label
  if op = .and then
    emit (.branch (.var out) second done)
  else
    emit (.branch (.var out) done second)
  emit (.label second)
  emit (.move (.var out) .bool (← rhs))
  emit (.label done)
  return .var out

end Lower

end Endmark.Lowering

import Endmark.Number.Binary64
import Endmark.Source.Span
import Endmark.Types.Basic

/-!
# The intermediate language

A function is a flat list of three-address instructions over its named variables and the
globals of the module.  Every value is a 64-bit word; the kind of a word only says which
machine instructions work on it.
-/

namespace Endmark.Ir

open Number (Binary64)

/-- The types of words. -/
inductive WordType where
  | i64
  | f64
  | bool
  | ptr
deriving DecidableEq, Repr, Inhabited

namespace WordType

def name : WordType → String
  | i64 => "i64"
  | f64 => "f64"
  | bool => "bool"
  | ptr => "ptr"

def all : List WordType :=
  [i64, f64, bool, ptr]

def ofName? (s : String) : Option WordType :=
  all.find? (·.name == s)

/-- How values of a type are kept.  What is not known is a word like an integer. -/
def ofTy : Ty → WordType
  | .float => f64
  | .bool => bool
  | .str | .list _ => ptr
  | _ => i64

end WordType

/-- What an instruction reads. -/
inductive Operand where
  | var (name : String)
  | global (name : String)
  | int (value : Int64)
  | float (value : Binary64)
  | bool (value : Bool)
  | str (index : Nat)
deriving DecidableEq, Repr, Inhabited

def Operand.var? : Operand → Option String
  | .var name => some name
  | _ => none

/-- What an instruction writes. -/
inductive Place where
  | var (name : String)
  | global (name : String)
deriving DecidableEq, Repr, Inhabited

namespace Place

def var? : Place → Option String
  | var name => some name
  | global _ => none

def operand : Place → Operand
  | var name => .var name
  | global name => .global name

end Place

/-- The operations on two words. -/
inductive BinOp where
  | add
  | sub
  | mul
  /-- Truncating division of integers, division of floating-point numbers. -/
  | div
  /-- The remainder of truncating division. -/
  | rem
  /-- Division that rounds down. -/
  | floorDiv
  /-- The remainder with the sign of the divisor. -/
  | mod
  | and
  | or
  | xor
  | shl
  | shr
  | sar
  | eq
  | ne
  | lt
  | le
  | gt
  | ge
deriving DecidableEq, Repr, Inhabited

namespace BinOp

def name : BinOp → String
  | add => "add"
  | sub => "sub"
  | mul => "mul"
  | div => "div"
  | rem => "rem"
  | floorDiv => "floordiv"
  | mod => "mod"
  | and => "and"
  | or => "or"
  | xor => "xor"
  | shl => "shl"
  | shr => "shr"
  | sar => "sar"
  | eq => "eq"
  | ne => "ne"
  | lt => "lt"
  | le => "le"
  | gt => "gt"
  | ge => "ge"

/-- All operations on two words. -/
def all : List BinOp :=
  [add, sub, mul, div, rem, floorDiv, mod, and, or, xor, shl, shr, sar, eq, ne, lt, le, gt, ge]

def ofName? (s : String) : Option BinOp :=
  all.find? (·.name == s)

/-- Does the operation compare its operands?  The result is then a truth value. -/
def isComparison : BinOp → Bool
  | eq | ne | lt | le | gt | ge => true
  | _ => false

/-- The type of a result on words of type `ty`. -/
def resultType (op : BinOp) (ty : WordType) : WordType :=
  if op.isComparison then .bool else ty

/-- Is there such an operation on words of a kind? -/
def supports (op : BinOp) : WordType → Bool
  | .f64 =>
    match op with
    | add | sub | mul | div => true
    | _ => op.isComparison
  | _ => true

end BinOp

/-- The operations on one word. -/
inductive UnOp where
  | neg
  /-- One for zero, zero for all else. -/
  | not
  /-- From a signed integer to a floating-point number. -/
  | intToFloat
  /-- From a floating-point number to a signed integer, towards zero. -/
  | floatToInt
deriving DecidableEq, Repr, Inhabited

namespace UnOp

def name : UnOp → String
  | neg => "neg"
  | not => "not"
  | intToFloat => "itof"
  | floatToInt => "ftoi"

def all : List UnOp :=
  [neg, not, intToFloat, floatToInt]

def ofName? (s : String) : Option UnOp :=
  all.find? (·.name == s)

end UnOp

/-- The instructions of the intermediate representation. -/
inductive Instr where
  | label (name : String)
  | move (dst : Place) (ty : WordType) (src : Operand)
  | binary (dst : Place) (op : BinOp) (ty : WordType) (lhs rhs : Operand)
  | unary (dst : Place) (op : UnOp) (ty : WordType) (src : Operand)
  | call (dst : Option Place) (callee : String) (args : List Operand)
  | branch (cond : Operand) (ifTrue ifFalse : String)
  | jump (target : String)
  | load (dst : Place) (ty : WordType) (base : Operand) (offset : Int64)
  | store (ty : WordType) (base : Operand) (offset : Int64) (value : Operand)
  | alloc (dst : Place) (size : Operand)
  | free (block : Operand)
  | ret (value : Option Operand)
  /-- Machine instructions as text, in which placeholders stand for variables and globals.
  The result is what they leave in the first result register. -/
  | raw (dst : Option Place) (text : String) (span : Span)
deriving DecidableEq, Repr, Inhabited

namespace Instr

/-- Where an instruction puts its result. -/
def dst? : Instr → Option Place
  | move dst _ _ | binary dst _ _ _ _ | unary dst _ _ _ | load dst _ _ _ | alloc dst _ => some dst
  | call dst _ _ | raw dst _ _ => dst
  | _ => none

/-- The operands that the instruction reads; those of raw text are its placeholders. -/
def operands : Instr → List Operand
  | move _ _ src | unary _ _ _ src => [src]
  | binary _ _ _ lhs rhs => [lhs, rhs]
  | call _ _ args => args
  | branch cond _ _ => [cond]
  | load _ _ base _ => [base]
  | store _ base _ value => [base, value]
  | alloc _ size => [size]
  | free block => [block]
  | ret (some value) => [value]
  | _ => []

/-- Does control never go on to the next instruction? -/
def isTerminator : Instr → Bool
  | branch .. | jump _ | ret _ => true
  | _ => false

/-- The labels that control may go to. -/
def targets : Instr → List String
  | branch _ ifTrue ifFalse => [ifTrue, ifFalse]
  | jump target => [target]
  | _ => []

end Instr

/-- A variable with its type. -/
structure Var where
  name : String
  ty : WordType
deriving DecidableEq, Repr, Inhabited

/-- A function, with the variables of its body. -/
structure Function where
  name : String
  params : List Var
  result : WordType
  /-- The variables other than the parameters. -/
  vars : List Var
  body : List Instr
  span : Span
deriving DecidableEq, Repr, Inhabited

/-- The kind of a parameter or variable. -/
def Function.type? (f : Function) (name : String) : Option WordType :=
  ((f.params ++ f.vars).find? (·.name == name)).map (·.ty)

/-- A module: it starts in `entry`, after `init` if there is one. -/
structure Module where
  functions : List Function
  globals : List Var
  strings : List String
  entry : String
  init : Option String
deriving DecidableEq, Repr, Inhabited

end Endmark.Ir

import Endmark.Number.Binary64
import Endmark.Source.Span

/-!
# Surface trees

What a source says, before names are resolved.  Every node carries the span it was read
from.  Functions are defined at the top level only, so a unit is a list of items, and a
statement never holds a definition.
-/

namespace Endmark.Tree

open Number (Binary64)

/-- A name where it stands. -/
structure Ident where
  name : String
  span : Span
deriving DecidableEq, Repr, Inhabited

/-- The operators between two operands. -/
inductive BinaryOp where
  | add
  | sub
  | mul
  | div
  | floorDiv
  | mod
  | pow
  | eq
  | notEq
  | less
  | lessEq
  | greater
  | greaterEq
  | and
  | or
deriving DecidableEq, Repr, Inhabited

/-- How an operator is written. -/
def BinaryOp.symbol : BinaryOp → String
  | .add => "+"
  | .sub => "-"
  | .mul => "*"
  | .div => "/"
  | .floorDiv => "//"
  | .mod => "%"
  | .pow => "**"
  | .eq => "=="
  | .notEq => "!="
  | .less => "<"
  | .lessEq => "<="
  | .greater => ">"
  | .greaterEq => ">="
  | .and => "and"
  | .or => "or"

def BinaryOp.all : List BinaryOp :=
  [.add, .sub, .mul, .div, .floorDiv, .mod, .pow, .eq, .notEq, .less, .lessEq, .greater,
    .greaterEq, .and, .or]

/-- Does the operator compare its operands? -/
def BinaryOp.isComparison : BinaryOp → Bool
  | .eq | .notEq | .less | .lessEq | .greater | .greaterEq => true
  | _ => false

/-- The operators before one operand. -/
inductive UnaryOp where
  | neg
  | plus
  | not
deriving DecidableEq, Repr, Inhabited

/-- How an operator is written. -/
def UnaryOp.symbol : UnaryOp → String
  | .neg => "-"
  | .plus => "+"
  | .not => "not"

def UnaryOp.all : List UnaryOp :=
  [.neg, .plus, .not]

/-- The languages of raw blocks. -/
inductive Dialect where
  | ailang
  | asm
deriving DecidableEq, Repr, Inhabited

/-- The word that opens a raw block of the language. -/
def Dialect.keyword : Dialect → String
  | .ailang => "ailang"
  | .asm => "asm"

/-- A block that only the stage that owns its language reads. -/
structure RawBlock where
  lang : Dialect
  payload : String
  payloadSpan : Span
deriving DecidableEq, Repr, Inhabited

/-- Values that are written out. -/
inductive Literal where
  | int (value : Int64)
  | float (value : Binary64)
  | str (value : String)
  | bool (value : Bool)
  | none
deriving DecidableEq, Repr, Inhabited

mutual

/-- The expressions. -/
inductive Expr where
  | literal (span : Span) (value : Literal)
  | name (span : Span) (name : String)
  | binary (span : Span) (op : BinaryOp) (lhs rhs : Expr)
  | unary (span : Span) (op : UnaryOp) (operand : Expr)
  | call (span : Span) (callee : Ident) (args : List Expr)
  | list (span : Span) (items : List Expr)
  | index (span : Span) (base index : Expr)
  | fstring (span : Span) (parts : List FStringPart)
  | raw (span : Span) (block : RawBlock)
  /-- What stands where no expression could be read. -/
  | error (span : Span)

/-- The parts of an f-string: text as it is meant, and fields to be filled in. -/
inductive FStringPart where
  | text (text : String)
  | field (expr : Expr)

end

instance : Inhabited Expr := ⟨.error .nowhere⟩

namespace Expr

def span : Expr → Span
  | literal s _ | name s _ | binary s _ _ _ | unary s _ _ | call s _ _ | list s _
  | index s _ _ | fstring s _ | raw s _ | error s => s

def withSpan (s : Span) : Expr → Expr
  | literal _ v => literal s v
  | name _ n => name s n
  | binary _ op l r => binary s op l r
  | unary _ op x => unary s op x
  | call _ c args => call s c args
  | list _ items => list s items
  | index _ b i => index s b i
  | fstring _ parts => fstring s parts
  | raw _ block => raw s block
  | error _ => error s

end Expr

/-- What is assigned to. -/
inductive Target where
  | name (name : Ident)
  | index (base index : Expr)

mutual

/-- The statements. -/
inductive Stmt where
  | branch (span : Span) (arms : List Arm) (otherwise : Option (List Stmt))
  | whileLoop (span : Span) (cond : Expr) (body : List Stmt)
  | forLoop (span : Span) (target : Ident) (iter : Expr) (body : List Stmt)
  | ret (span : Span) (value : Option Expr)
  | assign (span : Span) (target : Target) (op : Option BinaryOp) (value : Expr)
  | expr (span : Span) (expr : Expr)
  | leave (span : Span)
  | next (span : Span)
  | pass (span : Span)
  | raw (span : Span) (block : RawBlock)

/-- A condition and what is done when it holds. -/
inductive Arm where
  | mk (cond : Expr) (body : List Stmt)

end

/-- Where the statement is written. -/
def Stmt.span : Stmt → Span
  | .branch s _ _ | .whileLoop s _ _ | .forLoop s _ _ _ | .ret s _ | .assign s _ _ _
  | .expr s _ | .leave s | .next s | .pass s | .raw s _ => s

/-- A type as it is written. -/
inductive TypeExpr where
  | named (span : Span) (name : String)
  | list (span : Span) (item : TypeExpr)
deriving DecidableEq, Repr, Inhabited

def TypeExpr.span : TypeExpr → Span
  | .named s _ | .list s _ => s

/-- A parameter. -/
structure Param where
  name : Ident
  declared : Option TypeExpr
deriving DecidableEq, Repr

/-- The two words that start a definition. -/
inductive FunctionWord where
  | wordDef
  | wordFunc
deriving DecidableEq, Repr

/-- A definition of a function. -/
structure Function where
  keyword : FunctionWord
  name : Ident
  params : List Param
  ret : Option TypeExpr
  body : List Stmt
  span : Span

/-- What stands at the top of a source. -/
inductive Item where
  | function (f : Function)
  | statement (s : Stmt)

def Item.span : Item → Span
  | .function f => f.span
  | .statement s => s.span

/-- A source with its items. -/
structure Unit where
  file : Option Nat
  items : List Item

/-- The main unit and the library units it is compiled with. -/
structure Program where
  main : Unit
  libraries : List Unit

end Endmark.Tree

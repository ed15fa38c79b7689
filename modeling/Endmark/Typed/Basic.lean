import Endmark.Builtin
import Endmark.Tree.Basic

/-!
# Typed trees

What a program means once names are resolved and types inferred: every name is bound to a
slot of its function or to a global, every expression has a type, and calls of the
functions that every program has are told apart from the others.
-/

namespace Endmark.Typed

open Endmark.Tree (BinaryOp UnaryOp Dialect Literal)

/-- A variable: a slot of the function, or a global. -/
inductive Variable where
  | slot (name : String)
  | global (name : String)
deriving DecidableEq, Repr, Inhabited

/-- A raw block with the names that can be used where it stands, what they are bound to, and
their types. -/
structure Raw where
  lang : Dialect
  payload : String
  span : Span
  scope : List (String × Variable × Ty)
deriving Repr, Inhabited

def Raw.binding? (r : Raw) (name : String) : Option Variable :=
  (r.scope.lookup name).map (·.1)

/-- The type of an expression and where it is written. -/
structure Note where
  ty : Ty
  span : Span
deriving DecidableEq, Repr, Inhabited

mutual

/-- The expressions with their types. -/
inductive Expr where
  | literal (note : Note) (value : Literal)
  | var (note : Note) (var : Variable)
  | function (note : Note) (name : String)
  | binary (note : Note) (op : BinaryOp) (lhs rhs : Expr)
  | unary (note : Note) (op : UnaryOp) (operand : Expr)
  | call (note : Note) (callee : String) (args : List Expr)
  | builtin (note : Note) (kind : Builtin.Kind) (args : List Expr)
  | list (note : Note) (items : List Expr)
  | index (note : Note) (base index : Expr)
  | fstring (note : Note) (parts : List FStringPart)
  | raw (note : Note) (block : Raw)
  | error (note : Note)

inductive FStringPart where
  | text (text : String)
  | field (expr : Expr)

end

namespace Expr

/-- The type of the expression and where it is written. -/
def note : Expr → Note
  | literal n _ | var n _ | function n _ | binary n _ _ _ | unary n _ _ | call n _ _
  | builtin n _ _ | list n _ | index n _ _ | fstring n _ | raw n _ | error n => n

def ty (e : Expr) : Ty :=
  e.note.ty

def span (e : Expr) : Span :=
  e.note.span

/-- The expression in place of one that has been reported. -/
def faulty (span : Span) : Expr :=
  .error ⟨.error, span⟩

end Expr

instance : Inhabited Expr := ⟨.faulty .nowhere⟩

/-- What is assigned to. -/
inductive Place where
  | var (var : Variable)
  | index (base index : Expr)

mutual

/-- The statements, where names are variables. -/
inductive Stmt where
  | assign (span : Span) (target : Place) (value : Expr)
  | expr (span : Span) (expr : Expr)
  | branch (span : Span) (arms : List Arm) (otherwise : List Stmt)
  | whileLoop (span : Span) (cond : Expr) (body : List Stmt)
  | forLoop (span : Span) (var : Variable) (iter : Expr) (body : List Stmt)
  | ret (span : Span) (value : Option Expr)
  | leave (span : Span)
  | next (span : Span)
  | raw (span : Span) (block : Raw)

/-- A condition and what is done when it holds. -/
inductive Arm where
  | mk (cond : Expr) (body : List Stmt)

end

/-- A slot of a function: its unique name, the name in the source, and its type. -/
structure Local where
  name : String
  sourceName : String
  ty : Ty
  span : Span
deriving DecidableEq, Repr, Inhabited

structure Global where
  name : String
  ty : Ty
  span : Span
deriving DecidableEq, Repr, Inhabited

/-- A function.  It is synthetic when it holds the statements outside of functions. -/
structure Function where
  name : String
  params : List Local
  result : Ty
  /-- The slots other than the parameters, as they are declared. -/
  locals : List Local
  body : List Stmt
  span : Span
  synthetic : Bool

/-- A whole program: it starts in `entry`, after `init` if there is one. -/
structure Module where
  functions : List Function
  globals : List Global
  entry : String
  init : Option String

end Endmark.Typed

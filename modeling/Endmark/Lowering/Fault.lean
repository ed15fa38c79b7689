import Endmark.Diagnostic
import Endmark.Ir.Lexeme
import Endmark.Tree.Basic

/-!
# What cannot be lowered

The causes for which a typed program has no code, and their wording.
-/

namespace Endmark.Lowering

open Endmark.Tree (BinaryOp)

/-- The reasons for which a typed program is refused. -/
inductive Fault where
  | functionAsValue (name : String)
  | untyped
  | operator (op : BinaryOp)
  | listAsText
  | functionAsText
  | rangeStepZero
  | rangeStepVaries
  | rangeWithoutArguments
  | rangeStepOutsideLoop
  | malformedBlock (line : Nat) (fault : Ir.Fault)
  | undefinedLabel (name : String)
  | undefinedVariable (name : String)
  | unknownGlobal (name : String)
  | unknownString (index : Nat)
  | blockWithoutResult
deriving DecidableEq, Repr

def Fault.message : Fault → String
  | .functionAsValue name => s!"function `{name}` cannot be used as a value"
  | .untyped => "expression could not be typed"
  | .operator op => s!"operator `{op.symbol}` cannot be lowered here"
  | .listAsText => "cannot convert a list to str"
  | .functionAsText => "cannot convert a function to str"
  | .rangeStepZero => "`range` step must not be zero"
  | .rangeStepVaries => "`range` step must be an integer literal"
  | .rangeWithoutArguments => "`range` needs at least one argument"
  | .rangeStepOutsideLoop => "`range` with a step can only be used directly in a `for` loop"
  | .malformedBlock line fault => s!"malformed ailang block: {fault.messageAt line}"
  | .undefinedLabel name => s!"label `{name}` is not defined in this ailang block"
  | .undefinedVariable name => s!"`%{name}` is used before it is defined in this ailang block"
  | .unknownGlobal name => s!"unknown global `@{name}`"
  | .unknownString index => s!"unknown string constant `@str.{index}`"
  | .blockWithoutResult => "ailang block used as a value defines no result"

def Fault.at (fault : Fault) (span : Span) : Diagnostic :=
  .error .lowering span fault.message

end Endmark.Lowering

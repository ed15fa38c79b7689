import Endmark.Builtin
import Endmark.Diagnostic
import Endmark.Tree.Basic

/-!
# What can be wrong with a program

The causes that resolving names and inferring types report, and their wording.
-/

namespace Endmark.Typed

open Endmark.Tree (BinaryOp UnaryOp)

/-- The reasons for which a program is refused. -/
inductive Fault where
  | libraryRedefined (name : String)
  | redefined (name : String)
  | duplicateParam (name : String)
  | mainTakesParams
  | builtinRedefined (name : String)
  | reservedName (name : String)
  | unknownType (name : String)
  | assignedFunction (name : String)
  | assigned (ty : Ty) (name : String) (held : Ty)
  | condition (ty : Ty)
  | iterated (ty : Ty)
  | declaredReturn (name : String) (declared found : Ty)
  | otherReturn (name : String) (held found : Ty)
  | storedItem (item list : Ty)
  | storedInString
  | noItemAssignment (ty : Ty)
  | formattedFunction
  | builtinAsValue (name : String)
  | unboundName (name : String)
  | readBeforeAssigned (name : String)
  | binaryOperands (op : BinaryOp) (lhs rhs : Ty)
  | unaryOperand (op : UnaryOp) (operand : Ty)
  | indexType (ty : Ty)
  | notIndexed (ty : Ty)
  | notFunction (name : String)
  | unboundFunction (name : String)
  | argumentCount (name arity : String) (found : Nat)
  | builtin (fault : Builtin.Fault)
  | declaredParam (param name : String) (declared found : Ty)
  | otherArgument (param name : String) (held found : Ty)
deriving DecidableEq, Repr

/-- The kind of report: names that mean nothing are told apart from types that do not fit. -/
def Fault.kind : Fault → Diagnostic.Kind
  | .unboundName _ | .readBeforeAssigned _ | .unboundFunction _ => .unboundName
  | _ => .typeConflict

def Fault.message : Fault → String
  | .libraryRedefined name => s!"library function `{name}` is defined more than once"
  | .redefined name => s!"function `{name}` is defined more than once"
  | .duplicateParam name => s!"duplicate parameter `{name}`"
  | .mainTakesParams => "`main` must not take parameters"
  | .builtinRedefined name => s!"`{name}` is a builtin and cannot be redefined"
  | .reservedName name => s!"`{name}` is reserved for the compiler"
  | .unknownType name => s!"unknown type `{name}`"
  | .assignedFunction name => s!"cannot assign to function `{name}`"
  | .assigned ty name held =>
    s!"cannot assign `{ty.render}` to `{name}`, which holds `{held.render}`"
  | .condition ty => s!"a value of type `{ty.render}` cannot be used as a condition"
  | .iterated ty => s!"cannot iterate over a value of type `{ty.render}`"
  | .declaredReturn name declared found =>
    s!"`{name}` is declared to return `{declared.render}`, found `{found.render}`"
  | .otherReturn name held found =>
    s!"`{name}` already returns `{held.render}`, cannot also return `{found.render}`"
  | .storedItem item list => s!"cannot store `{item.render}` in a `{list.render}`"
  | .storedInString => "strings are immutable"
  | .noItemAssignment ty => s!"a value of type `{ty.render}` does not support item assignment"
  | .formattedFunction => "a function cannot be formatted"
  | .builtinAsValue name => s!"builtin `{name}` cannot be used as a value"
  | .unboundName name => s!"name `{name}` is not defined"
  | .readBeforeAssigned name => s!"local variable `{name}` is read before it is assigned"
  | .binaryOperands op lhs rhs =>
    s!"unsupported operand types for `{op.symbol}`: `{lhs.render}` and `{rhs.render}`"
  | .unaryOperand op operand =>
    s!"unsupported operand type for `{op.symbol}`: `{operand.render}`"
  | .indexType ty => s!"indices must be `int`, found `{ty.render}`"
  | .notIndexed ty => s!"a value of type `{ty.render}` cannot be indexed"
  | .notFunction name => s!"`{name}` is not a function"
  | .unboundFunction name => s!"function `{name}` is not defined"
  | .argumentCount name arity found => s!"`{name}` takes {arity} argument(s), found {found}"
  | .builtin fault => fault.message
  | .declaredParam param name declared found =>
    s!"parameter `{param}` of `{name}` is `{declared.render}`, found `{found.render}`"
  | .otherArgument param name held found =>
    s!"parameter `{param}` of `{name}` was inferred as `{held.render}` " ++
      s!"from an earlier call, found `{found.render}`"

def Fault.at (fault : Fault) (span : Span) : Diagnostic :=
  .error fault.kind span fault.message

end Endmark.Typed

import Endmark.Tree.Basic
import Endmark.Types.Basic

/-!
# Types of operations and annotations

What an operator makes of the types of its operands, and what type a written one means.
-/

namespace Endmark.Ty

open Endmark.Tree

/-- The type of a sum, difference or product of numbers. -/
def arithmetic? (lhs rhs : Ty) : Option Ty :=
  if lhs.isNumeric && rhs.isNumeric then
    some (if lhs = .float ∨ rhs = .float then .float else .int)
  else
    none

/-- The type of an operation on operands without faults, if they support it. -/
def binaryWith? (op : BinaryOp) (lhs rhs : Ty) : Option Ty :=
  match op with
  | .and | .or => if lhs.isTruthy && rhs.isTruthy then some .bool else none
  | .eq | .notEq =>
    if lhs.isNumeric && rhs.isNumeric then some .bool
    else if (lhs = .bool ∧ rhs = .bool) ∨ (lhs = .str ∧ rhs = .str) then some .bool
    else none
  | .less | .lessEq | .greater | .greaterEq =>
    if lhs.isNumeric && rhs.isNumeric then some .bool else none
  | .add =>
    match lhs, rhs with
    | .str, .str => some .str
    | .list _, .list _ => lhs.join rhs
    | _, _ => arithmetic? lhs rhs
  | .sub | .mul => arithmetic? lhs rhs
  | .div => if lhs.isNumeric && rhs.isNumeric then some .float else none
  | .floorDiv | .mod | .pow => if lhs.isInt && rhs.isInt then some .int else none

/-- The type of `lhs op rhs`, if the operands support it.  A fault goes on. -/
def binary? (op : BinaryOp) (lhs rhs : Ty) : Option Ty :=
  if lhs.isError || rhs.isError then some .error else binaryWith? op lhs rhs

/-- The type of an operation on one operand, if it supports it.  A fault goes on. -/
def unary? (op : UnaryOp) (operand : Ty) : Option Ty :=
  match op, operand with
  | _, .error => some .error
  | .not, t => if t.isTruthy then some .bool else none
  | _, .float => some .float
  | _, .int | _, .unknown => some .int
  | _, _ => none

/-- The type of a name. -/
def named? (name : String) : Option Ty :=
  match name with
  | "int" => some .int
  | "float" => some .float
  | "bool" => some .bool
  | "str" => some .str
  | "list" => some (.list .unknown)
  | "None" => some .unknown
  | _ => none

/-- The type that an annotation means, or the name in it that stands for none. -/
def ofTypeExpr : TypeExpr → Except String Ty
  | .named _ name =>
    match named? name with
    | some t => .ok t
    | none => .error name
  | .list _ item => (ofTypeExpr item).map .list

end Endmark.Ty

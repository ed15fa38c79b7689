import Endmark.Proofs.Ir.Meaning
import Endmark.Proofs.Typed.Nodes

/-!
# The meaning of typed functions on integers and truth values

A function whose variables and expressions are integers and truth values is run on 64-bit
words.  Integers wrap around, `and` and `or` leave out their second operand when the first
one decides, and a loop over a range reads its bounds once and gives its variable a copy of
the count.  There is no value when a slot is read before it is assigned, after a division by
zero, and when the given number of nested steps does not suffice.
-/

namespace Endmark.Typed

open Endmark.Ir (Words truthWord)
open Endmark.Tree (BinaryOp UnaryOp)

/-! ### Expressions -/

/-- What the first operand decides by itself. -/
def decided? : BinaryOp → Int64 → Option Int64
  | .and, a => if a = 0 then some 0 else none
  | .or, a => if a = 0 then none else some 1
  | _, _ => none

/-- The result of an operator on two words, when the first one does not decide. -/
def operated? : BinaryOp → Int64 → Int64 → Option Int64
  | .add, a, b => some (.ofInt (a.toInt + b.toInt))
  | .sub, a, b => some (.ofInt (a.toInt - b.toInt))
  | .mul, a, b => some (.ofInt (a.toInt * b.toInt))
  | .floorDiv, a, b => if b.toInt = 0 then none else some (.ofInt (a.toInt.fdiv b.toInt))
  | .mod, a, b => if b.toInt = 0 then none else some (.ofInt (a.toInt.fmod b.toInt))
  | .eq, a, b => some (truthWord (a.toInt = b.toInt))
  | .notEq, a, b => some (truthWord (a.toInt ≠ b.toInt))
  | .less, a, b => some (truthWord (a.toInt < b.toInt))
  | .lessEq, a, b => some (truthWord (a.toInt ≤ b.toInt))
  | .greater, a, b => some (truthWord (b.toInt < a.toInt))
  | .greaterEq, a, b => some (truthWord (b.toInt ≤ a.toInt))
  | .and, _, b | .or, _, b => some (truthWord (b ≠ 0))
  | .div, _, _ | .pow, _, _ => none

/-- The result of an operator on one word. -/
def signed : UnaryOp → Int64 → Int64
  | .neg, a => .ofInt (-a.toInt)
  | .plus, a => a
  | .not, a => truthWord (a = 0)

/-- The value of an expression when slots hold the given words. -/
def Expr.value? (σ : Words) : Expr → Option Int64
  | .literal _ (.int value) => some value
  | .literal _ (.bool value) => some (truthWord value)
  | .var _ (.slot x) => σ x
  | .binary _ op lhs rhs => do
    let a ← lhs.value? σ
    match decided? op a with
    | some v => return v
    | none =>
      let b ← rhs.value? σ
      operated? op a b
  | .unary _ op operand => do
    let a ← operand.value? σ
    return signed op a
  | _ => none

/-! ### Statements -/

/-- How control leaves a statement. -/
inductive Exit where
  /-- It goes on to what follows. -/
  | falls
  /-- It leaves the innermost loop. -/
  | leaves
  /-- It goes to the next round of the innermost loop. -/
  | skips
  | returns (value : Int64)

/-- What slots hold in the end, and how control leaves. -/
abbrev Ending := Option (Words × Exit)

/-- Goes on if control does. -/
def Ending.andThen (first : Ending) (rest : Words → Ending) : Ending :=
  first.bind fun
    | (σ, .falls) => rest σ
    | (σ, exit) => some (σ, exit)

/-- What follows a round of a loop. -/
def Ending.andAgain (round : Ending) (again : Words → Ending) : Ending :=
  round.bind fun
    | (σ, .falls) | (σ, .skips) => again σ
    | (σ, .leaves) => some (σ, .falls)
    | (σ, .returns v) => some (σ, .returns v)

/-- The part of a branch that is taken. -/
def choose? (σ : Words) : List Arm → List Stmt → Option (List Stmt)
  | [], otherwise => some otherwise
  | .mk cond body :: rest, otherwise => do
    let v ← cond.value? σ
    if v = 0 then choose? σ rest otherwise else return body

/-- The bounds of a loop over a range. -/
def bounds? (σ : Words) : List Expr → Option (Int64 × Int64)
  | [stop] => do
    let b ← stop.value? σ
    return (0, b)
  | [start, stop] => do
    let a ← start.value? σ
    let b ← stop.value? σ
    return (a, b)
  | _ => none

mutual

/-- Runs a statement, with so many nested steps at most. -/
def Stmt.exec? : Nat → Stmt → Words → Ending
  | 0, _, _ => none
  | n + 1, st, σ =>
    match st with
    | .assign _ (.var (.slot x)) value => do
      let v ← value.value? σ
      return (Function.update σ x (some v), .falls)
    | .expr _ e => do
      let _ ← e.value? σ
      return (σ, .falls)
    | .branch _ arms otherwise => do
      let body ← choose? σ arms otherwise
      execAll? n body σ
    | .whileLoop _ cond body => while? n cond body σ
    | .forLoop _ (.slot x) (.builtin _ .range args) body => do
      let (start, stop) ← bounds? σ args
      count? n x stop body start σ
    | .ret _ (some value) => do
      let v ← value.value? σ
      return (σ, .returns v)
    | .ret _ none => some (σ, .returns 0)
    | .leave _ => some (σ, .leaves)
    | .next _ => some (σ, .skips)
    | _ => none

/-- Runs statements in order. -/
def execAll? : Nat → List Stmt → Words → Ending
  | 0, _, _ => none
  | _ + 1, [], σ => some (σ, .falls)
  | n + 1, st :: rest, σ => (st.exec? n σ).andThen (execAll? n rest)

/-- Runs a body as long as a condition holds. -/
def while? : Nat → Expr → List Stmt → Words → Ending
  | 0, _, _, _ => none
  | n + 1, cond, body, σ => do
    let v ← cond.value? σ
    if v = 0 then return (σ, .falls)
    else (execAll? n body σ).andAgain (while? n cond body)

/-- Runs a body with a slot that counts from `i` on as long as it is below `stop`. -/
def count? : Nat → String → Int64 → List Stmt → Int64 → Words → Ending
  | 0, _, _, _, _, _ => none
  | n + 1, x, stop, body, i, σ =>
    if i < stop then
      (execAll? n body (Function.update σ x (some i))).andAgain (count? n x stop body (i + 1))
    else some (σ, .falls)

end

/-- What the slots hold when a function is called. -/
def Function.start (f : Function) (args : List Int64) : Words :=
  (f.params.zip args).foldl (fun σ (p, v) => Function.update σ p.name (some v)) fun _ => none

/-- The value that the function returns; without a `return` that is reached it is zero. -/
def Function.eval? (f : Function) (n : Nat) (args : List Int64) : Option Int64 :=
  match execAll? n f.body (f.start args) with
  | some (_, .returns v) => some v
  | some (_, .falls) => some 0
  | _ => none

/-! ### Functions on words -/

end Endmark.Typed

namespace Endmark

/-- Is it the type of integers or that of truth values? -/
def Ty.isWord : Ty → Bool
  | .int | .bool => true
  | _ => false

namespace Typed

open Endmark.Tree (BinaryOp UnaryOp)

/-- Is it an operator on words: not a division with a fraction, and no power? -/
def isWordOperator : BinaryOp → Bool
  | .div | .pow => false
  | _ => true

/-- Are there only integers and truth values in the expression? -/
def Expr.isWordly : Expr → Bool
  | .literal n (.int _) | .literal n (.bool _) | .var n (.slot _) => n.ty.isWord
  | .binary n op lhs rhs => n.ty.isWord && isWordOperator op && lhs.isWordly && rhs.isWordly
  | .unary n _ operand => n.ty.isWord && operand.isWordly
  | _ => false

mutual

/-- Does the statement work on integers and truth values in slots only? -/
def Stmt.isWordly : Stmt → Bool
  | .assign _ (.var (.slot _)) value => value.isWordly
  | .expr _ e => e.isWordly
  | .branch _ arms otherwise => isWordlyArms arms && isWordlyAll otherwise
  | .whileLoop _ cond body => cond.isWordly && isWordlyAll body
  | .forLoop _ (.slot _) (.builtin _ .range [stop]) body => stop.isWordly && isWordlyAll body
  | .forLoop _ (.slot _) (.builtin _ .range [start, stop]) body =>
    start.isWordly && stop.isWordly && isWordlyAll body
  | .ret _ (some value) => value.isWordly
  | .ret _ none | .leave _ | .next _ => true
  | _ => false

def isWordlyAll : List Stmt → Bool
  | [] => true
  | st :: rest => st.isWordly && isWordlyAll rest

def isWordlyArms : List Arm → Bool
  | [] => true
  | .mk cond body :: rest => cond.isWordly && isWordlyAll body && isWordlyArms rest

end

/-- Does the function work on integers and truth values in slots only? -/
def Function.isWordly (f : Function) : Bool :=
  (f.params ++ f.locals).all (·.ty.isWord) && isWordlyAll f.body

end Typed

end Endmark

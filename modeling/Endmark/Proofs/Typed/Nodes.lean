import Mathlib
import Endmark.Typed.Basic

/-!
# What trees consist of

The expressions and the statements that stand somewhere in a typed function, and whether a
surface tree holds a place where no expression could be read.
-/

namespace Endmark.Tree

mutual

/-- Could every expression in it be read? -/
def Expr.readable : Expr → Bool
  | .literal _ _ | .name _ _ | .raw _ _ => true
  | .binary _ _ lhs rhs => lhs.readable && rhs.readable
  | .unary _ _ operand => operand.readable
  | .call _ _ args => Expr.readableAll args
  | .list _ items => Expr.readableAll items
  | .index _ base i => base.readable && i.readable
  | .fstring _ parts => Expr.readableParts parts
  | .error _ => false

/-- Could every expression in them be read? -/
def Expr.readableAll : List Expr → Bool
  | [] => true
  | e :: rest => e.readable && Expr.readableAll rest

/-- Could every expression in the parts of an f-string be read? -/
def Expr.readableParts : List FStringPart → Bool
  | [] => true
  | .text _ :: rest => Expr.readableParts rest
  | .field e :: rest => e.readable && Expr.readableParts rest

end

/-- Could every expression in what an assignment writes to be read? -/
def Target.readable : Target → Bool
  | .name _ => true
  | .index base i => base.readable && i.readable

mutual

/-- Could every expression in the statement be read? -/
def Stmt.readable : Stmt → Bool
  | .branch _ arms otherwise => Stmt.readableArms arms && Stmt.readableOption otherwise
  | .whileLoop _ cond body => cond.readable && Stmt.readableAll body
  | .forLoop _ _ iter body => iter.readable && Stmt.readableAll body
  | .ret _ (some value) => value.readable
  | .assign _ target _ value => target.readable && value.readable
  | .expr _ e => e.readable
  | .ret _ none | .leave _ | .next _ | .pass _ | .raw _ _ => true

/-- Could every expression in the statements be read? -/
def Stmt.readableAll : List Stmt → Bool
  | [] => true
  | s :: rest => s.readable && Stmt.readableAll rest

/-- Could every expression in the conditions and bodies of a branch be read? -/
def Stmt.readableArms : List Arm → Bool
  | [] => true
  | .mk cond body :: rest => cond.readable && Stmt.readableAll body && Stmt.readableArms rest

/-- Could every expression in the last part of a branch be read? -/
def Stmt.readableOption : Option (List Stmt) → Bool
  | none => true
  | some body => Stmt.readableAll body

end

end Endmark.Tree

namespace Endmark.Typed

mutual

/-- The expression and all expressions in it. -/
def Expr.nodes : Expr → List Expr
  | .binary n op lhs rhs => .binary n op lhs rhs :: (lhs.nodes ++ rhs.nodes)
  | .unary n op operand => .unary n op operand :: operand.nodes
  | .call n callee args => .call n callee args :: Expr.nodesOf args
  | .builtin n kind args => .builtin n kind args :: Expr.nodesOf args
  | .list n items => .list n items :: Expr.nodesOf items
  | .index n base i => .index n base i :: (base.nodes ++ i.nodes)
  | .fstring n parts => .fstring n parts :: Expr.nodesOfParts parts
  | e => [e]

/-- All expressions in some. -/
def Expr.nodesOf : List Expr → List Expr
  | [] => []
  | e :: rest => e.nodes ++ Expr.nodesOf rest

/-- All expressions in the parts of an f-string. -/
def Expr.nodesOfParts : List FStringPart → List Expr
  | [] => []
  | .text _ :: rest => Expr.nodesOfParts rest
  | .field e :: rest => e.nodes ++ Expr.nodesOfParts rest

end

/-- An expression is one of those in it. -/
theorem Expr.mem_nodes_self (e : Expr) :
  e ∈ e.nodes
  := by
  cases e <;> simp [nodes]

/-- The expressions in some are those in one of them. -/
theorem Expr.mem_nodesOf :
  d ∈ nodesOf es ↔ ∃ e ∈ es, d ∈ e.nodes
  := by
  induction es with
  | nil => simp [nodesOf]
  | cons e rest ih => simp [nodesOf, ih]

theorem Expr.mem_nodesOfParts (he : .field e ∈ ps) (hd : d ∈ e.nodes) :
  d ∈ nodesOfParts ps
  := by
  induction ps with
  | nil => cases he
  | cons part rest ih => cases part <;> grind [nodesOfParts]

/-- All expressions in what an assignment writes to. -/
def Place.nodes : Place → List Expr
  | .var _ => []
  | .index base i => base.nodes ++ i.nodes

mutual

/-- All expressions in a statement. -/
def Stmt.nodes : Stmt → List Expr
  | .assign _ target value => target.nodes ++ value.nodes
  | .expr _ e => e.nodes
  | .branch _ arms otherwise => Stmt.nodesOfArms arms ++ Stmt.nodesOf otherwise
  | .whileLoop _ cond body => cond.nodes ++ Stmt.nodesOf body
  | .forLoop _ _ iter body => iter.nodes ++ Stmt.nodesOf body
  | .ret _ (some value) => value.nodes
  | .ret _ none | .leave _ | .next _ | .raw _ _ => []

/-- All expressions in statements. -/
def Stmt.nodesOf : List Stmt → List Expr
  | [] => []
  | s :: rest => s.nodes ++ Stmt.nodesOf rest

/-- All expressions in the conditions and bodies of a branch. -/
def Stmt.nodesOfArms : List Arm → List Expr
  | [] => []
  | .mk cond body :: rest => cond.nodes ++ Stmt.nodesOf body ++ Stmt.nodesOfArms rest

end

mutual

/-- The statement and all statements in it. -/
def Stmt.inside : Stmt → List Stmt
  | .branch span arms otherwise =>
    .branch span arms otherwise :: (Stmt.insideArms arms ++ Stmt.insideOf otherwise)
  | .whileLoop span cond body => .whileLoop span cond body :: Stmt.insideOf body
  | .forLoop span var iter body => .forLoop span var iter body :: Stmt.insideOf body
  | s => [s]

/-- The statements and all statements in them. -/
def Stmt.insideOf : List Stmt → List Stmt
  | [] => []
  | s :: rest => s.inside ++ Stmt.insideOf rest

/-- All statements in the bodies of a branch. -/
def Stmt.insideArms : List Arm → List Stmt
  | [] => []
  | .mk _ body :: rest => Stmt.insideOf body ++ Stmt.insideArms rest

end

/-- All expressions in a function. -/
def Function.nodes (f : Function) : List Expr :=
  Stmt.nodesOf f.body

/-- All statements in a function. -/
def Function.statements (f : Function) : List Stmt :=
  Stmt.insideOf f.body

end Endmark.Typed

import Mathlib
import Endmark.Tree.Basic

/-!
# Trees without spans

What a tree says, wherever it is written.
-/

namespace Endmark.Tree

/-- The name, wherever it is written. -/
def Ident.withoutSpan (i : Ident) : Ident :=
  ⟨i.name, .nowhere⟩

/-- The block, wherever it is written. -/
def RawBlock.withoutSpan (b : RawBlock) : RawBlock :=
  ⟨b.lang, b.payload, .nowhere⟩

mutual

/-- The expression, wherever it is written. -/
def Expr.withoutSpans : Expr → Expr
  | .literal _ value => .literal .nowhere value
  | .name _ n => .name .nowhere n
  | .binary _ op lhs rhs => .binary .nowhere op lhs.withoutSpans rhs.withoutSpans
  | .unary _ op operand => .unary .nowhere op operand.withoutSpans
  | .call _ callee args => .call .nowhere callee.withoutSpan (Expr.withoutSpansAll args)
  | .list _ items => .list .nowhere (Expr.withoutSpansAll items)
  | .index _ base i => .index .nowhere base.withoutSpans i.withoutSpans
  | .fstring _ parts => .fstring .nowhere (Expr.withoutSpansParts parts)
  | .raw _ block => .raw .nowhere block.withoutSpan
  | .error _ => .error .nowhere

/-- The expressions, wherever they are written. -/
def Expr.withoutSpansAll : List Expr → List Expr
  | [] => []
  | e :: rest => e.withoutSpans :: Expr.withoutSpansAll rest

/-- The parts of an f-string, wherever they are written. -/
def Expr.withoutSpansParts : List FStringPart → List FStringPart
  | [] => []
  | .text text :: rest => .text text :: Expr.withoutSpansParts rest
  | .field e :: rest => .field e.withoutSpans :: Expr.withoutSpansParts rest

end

@[simp]
theorem Expr.withoutSpans_withSpan {e : Expr} :
  (e.withSpan s).withoutSpans = e.withoutSpans
  := by
  cases e <;> rfl

/-- What is written to, wherever that is written. -/
def Target.withoutSpans : Target → Target
  | .name n => .name n.withoutSpan
  | .index base i => .index base.withoutSpans i.withoutSpans

mutual

/-- The statement, wherever it is written. -/
def Stmt.withoutSpans : Stmt → Stmt
  | .branch _ arms otherwise =>
    .branch .nowhere (Stmt.withoutSpansArms arms) (Stmt.withoutSpansOption otherwise)
  | .whileLoop _ cond body =>
    .whileLoop .nowhere cond.withoutSpans (Stmt.withoutSpansAll body)
  | .forLoop _ target iter body =>
    .forLoop .nowhere target.withoutSpan iter.withoutSpans (Stmt.withoutSpansAll body)
  | .ret _ value => .ret .nowhere (value.map Expr.withoutSpans)
  | .assign _ target op value =>
    .assign .nowhere target.withoutSpans op value.withoutSpans
  | .expr _ e => .expr .nowhere e.withoutSpans
  | .leave _ => .leave .nowhere
  | .next _ => .next .nowhere
  | .pass _ => .pass .nowhere
  | .raw _ block => .raw .nowhere block.withoutSpan

/-- The statements, wherever they are written. -/
def Stmt.withoutSpansAll : List Stmt → List Stmt
  | [] => []
  | s :: rest => s.withoutSpans :: Stmt.withoutSpansAll rest

/-- The arms of a branch, wherever they are written. -/
def Stmt.withoutSpansArms : List Arm → List Arm
  | [] => []
  | .mk cond body :: rest =>
    .mk cond.withoutSpans (Stmt.withoutSpansAll body) :: Stmt.withoutSpansArms rest

/-- The last part of a branch, wherever it is written. -/
def Stmt.withoutSpansOption : Option (List Stmt) → Option (List Stmt)
  | none => none
  | some body => some (Stmt.withoutSpansAll body)

end

theorem Stmt.withoutSpansAll_append :
  withoutSpansAll (ss ++ ts) = withoutSpansAll ss ++ withoutSpansAll ts
  := by
  induction ss with
  | nil => rfl
  | cons s ss ih => exact congrArg _ ih

theorem Stmt.withoutSpansArms_append :
  withoutSpansArms (arms ++ rest) = withoutSpansArms arms ++ withoutSpansArms rest
  := by
  induction arms with
  | nil => rfl
  | cons arm arms ih =>
    cases arm
    exact congrArg _ ih

/-- The type, wherever it is written. -/
def TypeExpr.withoutSpans : TypeExpr → TypeExpr
  | .named _ name => .named .nowhere name
  | .list _ item => .list .nowhere item.withoutSpans

/-- The parameter, wherever it is written. -/
def Param.withoutSpans (p : Param) : Param :=
  ⟨p.name.withoutSpan, p.declared.map TypeExpr.withoutSpans⟩

/-- The definition, wherever it is written. -/
def Function.withoutSpans (f : Function) : Function where
  keyword := f.keyword
  name := f.name.withoutSpan
  params := f.params.map Param.withoutSpans
  ret := f.ret.map TypeExpr.withoutSpans
  body := Stmt.withoutSpansAll f.body
  span := .nowhere

/-- The item, wherever it is written. -/
def Item.withoutSpans : Item → Item
  | .function f => .function f.withoutSpans
  | .statement s => .statement s.withoutSpans

/-- The unit, wherever in its file it is written. -/
def Unit.withoutSpans (u : Unit) : Unit :=
  ⟨u.file, u.items.map Item.withoutSpans⟩

end Endmark.Tree

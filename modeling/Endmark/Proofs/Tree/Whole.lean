import Endmark.Proofs.Typed.Spelling

/-!
# Whole trees

A tree is whole if all of it could be read.
-/

namespace Endmark.Tree

open Stmt
open List Bool
open Typed (isIdentifier boundBy boundByAll boundByArms boundByOption)

/-! ### Whole trees -/

mutual

/-- Could all of the expression be read, and are its names spelled as names? -/
def Expr.isWhole : Expr → Bool
  | .literal .. | .raw .. => true
  | .name _ n => isIdentifier n
  | .binary _ _ e e' | .index _ e e' => e.isWhole && e'.isWhole
  | .unary _ _ e => e.isWhole
  | .call _ callee args => isIdentifier callee.name && Expr.areWhole args
  | .list _ items => Expr.areWhole items
  | .fstring _ parts => Expr.arePartsWhole parts
  | .error _ => false

@[inherit_doc Expr.isWhole]
def Expr.areWhole : List Expr → Bool
  | [] => true
  | e :: rest => e.isWhole && Expr.areWhole rest

@[inherit_doc Expr.isWhole]
def Expr.arePartsWhole : List FStringPart → Bool
  | [] => true
  | .text _ :: rest => Expr.arePartsWhole rest
  | .field e :: rest => e.isWhole && Expr.arePartsWhole rest

end

def Target.isWhole : Target → Bool
  | .name ident => isIdentifier ident.name
  | .index base i => base.isWhole && i.isWhole

mutual

/-- Could all of the statement be read, and does it return only in a function and leave or go on
with a loop only in one? -/
def Stmt.isWhole (inFunction inLoop : Bool) : Stmt → Bool
  | .branch _ arms otherwise =>
    Stmt.areArmsWhole inFunction inLoop arms && Stmt.isLastWhole inFunction inLoop otherwise
  | .whileLoop _ cond body => cond.isWhole && Stmt.areWhole inFunction true body
  | .forLoop _ target iter body =>
    isIdentifier target.name && iter.isWhole && Stmt.areWhole inFunction true body
  | .ret _ value => inFunction && value.all Expr.isWhole
  | .assign _ target _ value => target.isWhole && value.isWhole
  | .expr _ e => e.isWhole
  | .leave _ | .next _ => inLoop
  | .pass _ | .raw .. => true

@[inherit_doc Stmt.isWhole]
def Stmt.areWhole (inFunction inLoop : Bool) : List Stmt → Bool
  | [] => true
  | s :: rest => s.isWhole inFunction inLoop && Stmt.areWhole inFunction inLoop rest

@[inherit_doc Stmt.isWhole]
def Stmt.areArmsWhole (inFunction inLoop : Bool) : List Arm → Bool
  | [] => true
  | .mk cond body :: rest => cond.isWhole && Stmt.areWhole inFunction inLoop body &&
    Stmt.areArmsWhole inFunction inLoop rest

@[inherit_doc Stmt.isWhole]
def Stmt.isLastWhole (inFunction inLoop : Bool) : Option (List Stmt) → Bool
  | none => true
  | some body => Stmt.areWhole inFunction inLoop body

end

/-- Is the item whole?  No loop around a function counts in it. -/
def Item.isWhole : Item → Bool
  | .function f => isIdentifier f.name.name && f.params.all (isIdentifier ·.name.name) &&
    Stmt.areWhole true false f.body
  | .statement s => s.isWhole false false

theorem Stmt.areWhole_append :
  areWhole inFunction inLoop (ss ++ ts) =
    (areWhole inFunction inLoop ss && areWhole inFunction inLoop ts)
  := by
  induction ss with
  | nil => rfl
  | cons s ss ih => rw [cons_append, areWhole, areWhole, ih, Bool.and_assoc]

theorem Stmt.areArmsWhole_append :
  areArmsWhole inFunction inLoop (arms ++ rest) =
    (areArmsWhole inFunction inLoop arms && areArmsWhole inFunction inLoop rest)
  := by
  induction arms with
  | nil => rfl
  | cons arm arms ih =>
    cases arm
    simp [areArmsWhole, ih, Bool.and_assoc]

mutual

/-- What a whole statement binds is named by names. -/
theorem Stmt.spelled_of_isWhole {inFunction inLoop : Bool} : ∀ {s : Stmt},
  s.isWhole inFunction inLoop → ∀ i ∈ boundBy s, isIdentifier i.name
  | .assign _ (.name ident) _ _, h, i, hi => by
    cases mem_singleton.mp hi
    exact (and_eq_true_iff.mp h).1
  | .branch _ _ _, h, i, hi => by
    rw [isWhole, and_eq_true] at h
    rw [boundBy, mem_append] at hi
    exact hi.elim (spelled_of_areArmsWhole h.1 i) (spelled_of_isLastWhole h.2 i)
  | .whileLoop _ _ _, h, i, hi => spelled_of_areWhole (and_eq_true_iff.mp h).2 i hi
  | .forLoop _ _ _ _, h, i, hi => by
    rw [isWhole, and_eq_true, and_eq_true] at h
    rcases mem_cons.mp hi with rfl | hi
    · exact h.1.1
    · exact spelled_of_areWhole h.2 i hi
  | .assign _ (.index _ _) _ _, _, _, hi | .ret _ _, _, _, hi | .expr _ _, _, _, hi
  | .leave _, _, _, hi | .next _, _, _, hi | .pass _, _, _, hi | .raw _ _, _, _, hi => nomatch hi

theorem Stmt.spelled_of_areWhole {inFunction inLoop : Bool} : ∀ {ss : List Stmt},
  areWhole inFunction inLoop ss → ∀ i ∈ boundByAll ss, isIdentifier i.name
  | [], _, _, hi => nomatch hi
  | _ :: _, h, i, hi => by
    rw [areWhole, and_eq_true] at h
    rw [boundByAll, mem_append] at hi
    exact hi.elim (spelled_of_isWhole h.1 i) (spelled_of_areWhole h.2 i)

theorem Stmt.spelled_of_areArmsWhole {inFunction inLoop : Bool} : ∀ {arms : List Arm},
  areArmsWhole inFunction inLoop arms →
    ∀ i ∈ boundByArms arms, isIdentifier i.name
  | [], _, _, hi => nomatch hi
  | .mk _ _ :: _, h, i, hi => by
    rw [areArmsWhole, and_eq_true, and_eq_true] at h
    rw [boundByArms, mem_append] at hi
    exact hi.elim (spelled_of_areWhole h.1.2 i) (spelled_of_areArmsWhole h.2 i)

theorem Stmt.spelled_of_isLastWhole {inFunction inLoop : Bool} : ∀ {last : Option (List Stmt)},
  isLastWhole inFunction inLoop last →
    ∀ i ∈ boundByOption last, isIdentifier i.name
  | none, _, _, hi => nomatch hi
  | some _, h, i, hi => spelled_of_areWhole h i hi

end

end Endmark.Tree

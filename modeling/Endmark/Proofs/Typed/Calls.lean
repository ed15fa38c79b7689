import Endmark.Proofs.Typed.Elaboration.Programs
import Endmark.Proofs.Typed.Faults

/-!
# Calls are neither lost nor made twice

The calls of a statement are those of its expressions, in the order in which they are made.
A typed statement makes the calls of the one it elaborates, in the same order, each of them
once.  There is one exception: where an item is assigned with an operator, the list and the
index are evaluated both to read the item and to store it, so that their calls are made twice.
-/

namespace Endmark

open Expr
open List

/-- A call: where it stands, and the name that is called. -/
structure Call where
  span : Span
  callee : String
deriving DecidableEq

namespace Builtin

/-- The name by which a function of the kind is called. -/
def Kind.name : Kind → String
  | .print => "print"
  | .len => "len"
  | .str => "str"
  | .int => "int"
  | .float => "float"
  | .range => "range"
  | .exit => "exit"

/-- What is found under a name is called by it. -/
theorem name_of_find? {name : String} (h : find? name = some b) :
  b.kind.name = name
  := by
  have hname : b.name = name := by simpa using find?_some h
  have hall : ∀ b ∈ all, b.kind.name = b.name := by decide
  rw [hall b (mem_of_find?_eq_some h), hname]

end Builtin

/-! ### Calls of trees of the source -/

namespace Tree

mutual

/-- The calls of an expression, arguments first. -/
def Expr.calls : Expr → List Call
  | .literal _ _ | .name _ _ | .raw _ _ | .error _ => []
  | .binary _ _ lhs rhs => lhs.calls ++ rhs.calls
  | .unary _ _ operand => operand.calls
  | .call span callee args => callsOfExprs args ++ [⟨span, callee.name⟩]
  | .list _ items => callsOfExprs items
  | .index _ base index => base.calls ++ index.calls
  | .fstring _ parts => callsOfParts parts

/-- The calls of expressions. -/
def callsOfExprs : List Expr → List Call
  | [] => []
  | e :: rest => e.calls ++ callsOfExprs rest

/-- The calls of the parts of an f-string. -/
def callsOfParts : List FStringPart → List Call
  | [] => []
  | .text _ :: rest => callsOfParts rest
  | .field e :: rest => e.calls ++ callsOfParts rest

end

/-- The calls of what is assigned to. -/
def Target.calls : Target → List Call
  | .name _ => []
  | .index base i => base.calls ++ i.calls

mutual

/-- The calls of a statement. -/
def Stmt.calls : Stmt → List Call
  | .branch _ arms otherwise => callsOfArms arms ++ callsOfLast otherwise
  | .whileLoop _ cond body => cond.calls ++ callsOf body
  | .forLoop _ _ iter body => iter.calls ++ callsOf body
  | .ret _ (some value) => value.calls
  | .assign _ target _ value => value.calls ++ target.calls
  | .expr _ e => e.calls
  | .ret _ none | .leave _ | .next _ | .pass _ | .raw _ _ => []

/-- The calls of statements. -/
def callsOf : List Stmt → List Call
  | [] => []
  | st :: rest => st.calls ++ callsOf rest

/-- The calls of the arms of a branch. -/
def callsOfArms : List Arm → List Call
  | [] => []
  | .mk cond body :: rest => cond.calls ++ callsOf body ++ callsOfArms rest

/-- The calls of the last part of a branch. -/
def callsOfLast : Option (List Stmt) → List Call
  | none => []
  | some body => callsOf body

end

mutual

/-- The calls in items that a statement assigns with an operator. -/
def Stmt.updated : Stmt → List Call
  | .branch _ arms otherwise => updatedInArms arms ++ updatedInLast otherwise
  | .whileLoop _ _ body | .forLoop _ _ _ body => updatedIn body
  | .assign _ target (some _) _ => target.calls
  | _ => []

/-- The calls in items that statements assign with an operator. -/
def updatedIn : List Stmt → List Call
  | [] => []
  | st :: rest => st.updated ++ updatedIn rest

/-- The calls in items that the arms of a branch assign with an operator. -/
def updatedInArms : List Arm → List Call
  | [] => []
  | .mk _ body :: rest => updatedIn body ++ updatedInArms rest

/-- The calls in items that the last part of a branch assigns with an operator. -/
def updatedInLast : Option (List Stmt) → List Call
  | none => []
  | some body => updatedIn body

end

end Tree

/-! ### Calls of typed trees -/

namespace Typed

mutual

/-- The calls of a typed expression, arguments first. -/
def Expr.calls : Expr → List Call
  | .literal _ _ | .var _ _ | .function _ _ | .raw _ _ | .error _ => []
  | .binary _ _ lhs rhs => lhs.calls ++ rhs.calls
  | .unary _ _ operand => operand.calls
  | .call n callee args => callsOfExprs args ++ [⟨n.span, callee⟩]
  | .builtin n kind args => callsOfExprs args ++ [⟨n.span, kind.name⟩]
  | .list _ items => callsOfExprs items
  | .index _ base index => base.calls ++ index.calls
  | .fstring _ parts => callsOfParts parts

/-- The calls of typed expressions. -/
def callsOfExprs : List Expr → List Call
  | [] => []
  | e :: rest => e.calls ++ callsOfExprs rest

/-- The calls of the typed parts of an f-string. -/
def callsOfParts : List FStringPart → List Call
  | [] => []
  | .text _ :: rest => callsOfParts rest
  | .field e :: rest => e.calls ++ callsOfParts rest

end

/-- The calls of what is assigned to. -/
def Place.calls : Place → List Call
  | .var _ => []
  | .index base i => base.calls ++ i.calls

mutual

/-- The calls of a typed statement; a value is evaluated before the place it is stored in. -/
def Stmt.calls : Stmt → List Call
  | .branch _ arms otherwise => callsOfArms arms ++ callsOf otherwise
  | .whileLoop _ cond body => cond.calls ++ callsOf body
  | .forLoop _ _ iter body => iter.calls ++ callsOf body
  | .ret _ (some value) => value.calls
  | .assign _ target value => value.calls ++ target.calls
  | .expr _ e => e.calls
  | .ret _ none | .leave _ | .next _ | .raw _ _ => []

/-- The calls of typed statements. -/
def callsOf : List Stmt → List Call
  | [] => []
  | st :: rest => st.calls ++ callsOf rest

/-- The calls of the typed arms of a branch. -/
def callsOfArms : List Arm → List Call
  | [] => []
  | .mk cond body :: rest => cond.calls ++ callsOf body ++ callsOfArms rest

end

theorem callsOf_append :
  callsOf (body ++ rest) = callsOf body ++ callsOf rest
  := by
  induction body with
  | nil => rfl
  | cons st body ih => rw [cons_append, callsOf, ih, callsOf, append_assoc]

/-! ### Expressions -/

mutual

/-- A typed expression makes the calls of the one it elaborates. -/
theorem Expr.Elaborates.calls_eq (h : Elaborates O Γ e e') :
  e'.calls = e.calls
  := by
  cases h with
  | binary hlhs hrhs | index hlhs hrhs =>
    rw [calls, Tree.Expr.calls, hlhs.calls_eq, hrhs.calls_eq]
  | unary h | call h | list h | fstring h => rw [calls, Tree.Expr.calls, h.calls_eq]
  | builtin hargs h =>
    rw [calls, Tree.Expr.calls, hargs.calls_eq, Builtin.name_of_find? h]
  | _ => rfl

theorem Expr.ElaboratesAll.calls_eq (h : ElaboratesAll O Γ es es') :
  callsOfExprs es' = Tree.callsOfExprs es
  := by
  cases h with
  | nil => rfl
  | cons h hrest => rw [callsOfExprs, Tree.callsOfExprs, h.calls_eq, hrest.calls_eq]

theorem Expr.ElaboratesParts.calls_eq (h : ElaboratesParts O Γ ps ps') :
  callsOfParts ps' = Tree.callsOfParts ps
  := by
  cases h with
  | nil => rfl
  | text hrest => rw [callsOfParts, Tree.callsOfParts, hrest.calls_eq]
  | field h hrest => rw [callsOfParts, Tree.callsOfParts, h.calls_eq, hrest.calls_eq]

end

/-! ### Statements -/

/-- The calls `made` are those that are written, each of them once, except that `again` are
made once more; without any such they are made in the order in which they are written. -/
structure Makes (made written again : List Call) : Prop where
  perm : made.Perm (written ++ again)
  eq : again = [] → made = written

theorem Makes.refl {calls : List Call} :
  Makes calls calls []
  := by
  constructor
  · rw [append_nil]
  · intro _
    rfl

/-- The calls of one part and of another. -/
theorem Makes.append (h : Makes made calls again) (h' : Makes made' calls' again') :
  Makes (made ++ made') (calls ++ calls') (again ++ again')
  := by
  constructor
  · apply (h.perm.append h'.perm).trans
    simp only [append_assoc]
    apply Perm.append_left
    simp only [← append_assoc]
    apply Perm.append_right
    apply perm_append_comm
  · intro hnil
    obtain ⟨hagain, hagain'⟩ := append_eq_nil_iff.mp hnil
    rw [h.eq hagain, h'.eq hagain']

theorem Makes.after {written : List Call} (h : Makes made written again) :
  Makes (calls ++ made) (calls ++ written) again
  := refl.append h

/-- The value of an item is read before it is stored: its calls are made twice. -/
theorem Makes.twice :
  Makes (place ++ calls ++ place) (calls ++ place) place
  := by
  constructor
  · apply Perm.append_right
    apply perm_append_comm
  · simp

theorem callsOf_some :
  callsOf (some st).toList = st.calls
  := append_nil _

mutual

/-- What calls a typed statement makes. -/
theorem Stmt.Elaborates.makes (h : Elaborates O top Γ st st' Γ') :
  Makes (callsOf st'.toList) st.calls st.updated
  := by
  cases h with
  | branch harms hlast =>
    rw [callsOf_some]
    apply harms.makes.append hlast.makes
  | whileLoop h hbody | forLoop h _ hbody =>
    rw [callsOf_some, calls, h.calls_eq]
    apply hbody.makes.after
  | retValue h | assign h | expr h =>
    rw [callsOf_some, calls, h.calls_eq]
    apply Makes.refl
  | update hvalue hheld =>
    rw [callsOf_some, calls, Expr.calls, hvalue.calls_eq, hheld.calls_eq]
    apply Makes.refl
  | store hvalue hbase hindex =>
    rw [callsOf_some, calls, Place.calls, hvalue.calls_eq, hbase.calls_eq, hindex.calls_eq]
    apply Makes.refl
  | storeUpdate hvalue hbase hindex =>
    rw [callsOf_some, calls, Place.calls, Expr.calls, Expr.calls, hvalue.calls_eq,
      hbase.calls_eq, hindex.calls_eq]
    apply Makes.twice
  | _ => exact .refl

theorem Stmt.ElaboratesAll.makes (h : ElaboratesAll O top Γ body body' Γ') :
  Makes (callsOf body') (Tree.callsOf body) (Tree.updatedIn body)
  := by
  cases h with
  | nil => exact .refl
  | cons h hrest =>
    rw [callsOf_append]
    apply h.makes.append hrest.makes

theorem Stmt.ElaboratesArms.makes (h : ElaboratesArms O top Γ arms arms' Γ') :
  Makes (callsOfArms arms') (Tree.callsOfArms arms) (Tree.updatedInArms arms)
  := by
  cases h with
  | nil => exact .refl
  | cons hcond hbody hrest =>
    rw [callsOfArms, hcond.calls_eq]
    apply hbody.makes.after.append hrest.makes

theorem Stmt.ElaboratesLast.makes (h : ElaboratesLast O top Γ last last' Γ') :
  Makes (callsOf last') (Tree.callsOfLast last) (Tree.updatedInLast last)
  := by
  cases h with
  | none => exact .refl
  | some h => exact h.makes

end

/-- Statement by statement, what is elaborated makes the calls that are written. -/
theorem Stmt.ElaboratesAll.exists_makes :
  ∀ {Γ Γ' : Context} {body : List Tree.Stmt} {body' : List Stmt},
    ElaboratesAll O top Γ body body' Γ' →
      ∃ typed : List (Option Stmt), body' = typed.flatMap Option.toList ∧
        Forall₂ (fun st st' => Makes (callsOf st'.toList) st.calls st.updated) body typed
  | _, _, _, _, .nil => ⟨[], rfl, .nil⟩
  | _, _, _, _, .cons h hrest => by
    obtain ⟨typed, rfl, htyped⟩ := hrest.exists_makes
    exact ⟨_ :: typed, rfl, .cons h.makes htyped⟩

/-! ### Programs -/

section

open Endmark.Tree (Program)

/-- Each statement of an accepted program, in its functions and outside of them, makes the calls
that are written in it, in their order and each of them once, if no call stands in an item that
it assigns with an operator; those that do are made twice. -/
theorem accepted_makes_calls {program : Program} {m : Module}
    (h : (infer program).module = some m) :
  List.Forall₂ (fun w f => f.name = w.name ∧ ∃ typed : List (Option Stmt),
      f.body = typed.flatMap Option.toList ∧
        List.Forall₂ (fun st st' =>
          (callsOf st'.toList).Perm (st.calls ++ st.updated) ∧
            (st.updated = [] → callsOf st'.toList = st.calls)) w.body typed)
    (written program) m.functions
  := by
  apply (infer_elaborates h).imp
  intro w f helaborates
  obtain ⟨_, hbody⟩ := helaborates.body
  obtain ⟨typed, hflat, hmakes⟩ := hbody.exists_makes
  refine ⟨helaborates.name, typed, hflat, ?_⟩
  apply hmakes.imp
  intro st st' hst
  exact ⟨hst.perm, hst.eq⟩

/-- An item is assigned with an operator, where its index is the result of a call:
`def f(): print("x"); return 0; end; def main(): a = [1]; a[f()] += 1; return a[0]; end;` -/
def bumping : Program where
  main := ⟨none, [
    plainFunction "f" [] [
      .expr .nowhere (.call .nowhere ⟨"print", .nowhere⟩ [.literal .nowhere (.str "x")]),
      .ret .nowhere (some (.literal .nowhere (.int 0)))],
    plainFunction "main" [] [
      .assign .nowhere (.name ⟨"a", .nowhere⟩) none
        (.list .nowhere [.literal .nowhere (.int 1)]),
      .assign .nowhere
        (.index (.name .nowhere "a") (.call .nowhere ⟨"f", .nowhere⟩ [])) (some .add)
        (.literal .nowhere (.int 1)),
      .ret .nowhere (some (.index .nowhere (.name .nowhere "a")
        (.literal .nowhere (.int 0))))]]⟩
  libraries := []

theorem bumping_makes_calls :
  ∃ m, (infer bumping).module = some m ∧
    List.Forall₂ (fun w f => f.name = w.name ∧ ∃ typed : List (Option Stmt),
        f.body = typed.flatMap Option.toList ∧
          List.Forall₂ (fun st st' =>
            (callsOf st'.toList).Perm (st.calls ++ st.updated) ∧
              (st.updated = [] → callsOf st'.toList = st.calls)) w.body typed)
      (written bumping) m.functions
  := by
  have hsome : (infer bumping).module.isSome = true := by decide +kernel
  obtain ⟨m, hm⟩ := Option.isSome_iff_exists.mp hsome
  exact ⟨m, hm, accepted_makes_calls hm⟩

/-- The program is accepted, and its `main` calls `f` twice where one call is written. -/
theorem bumping_calls_twice :
  (written bumping).map (fun w => (w.name, Tree.callsOf w.body)) =
      [("f", [⟨.nowhere, "print"⟩]), ("main", [⟨.nowhere, "f"⟩])] ∧
    ∃ m, (infer bumping).module = some m ∧
      m.functions.map (fun f => (f.name, callsOf f.body)) =
        [("f", [⟨.nowhere, "print"⟩]), ("main", [⟨.nowhere, "f"⟩, ⟨.nowhere, "f"⟩])]
  := by
  constructor
  · decide +kernel
  · have hany : (infer bumping).module.any (fun m =>
        m.functions.map (fun f => (f.name, callsOf f.body)) =
          [("f", [⟨.nowhere, "print"⟩]),
            ("main", [⟨.nowhere, "f"⟩, ⟨.nowhere, "f"⟩])]) = true := by
      decide +kernel
    simpa [Option.any_eq_true] using hany

end

end Typed

end Endmark

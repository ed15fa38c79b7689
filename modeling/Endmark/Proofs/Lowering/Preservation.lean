import Endmark.Proofs.Lowering.Functions
import Endmark.Proofs.Lowering.Scoping

/-!
# Lowering keeps values

A function on words whose variables have the types that are recorded is lowered without a
fault, and its code returns what the function returns.  A program whose inference has not
settled shows that types of variables do matter: a truth value is used as it is, and an integer
is compared with zero first.
-/

namespace Endmark.Lowering

open Lower
open List
open Ir (WordType Operand Instr Words Goes labelNames)
open Typed (Local Truthful Exit)

/-- The arguments are those of a call: one for each parameter, and zero or one for a truth
value. -/
def Accepts (f : Typed.Function) (args : List Int64) : Prop :=
  List.Forall₂ (fun p v => p.ty = .bool → v = 0 ∨ v = 1) f.params args

variable {f : Typed.Function}

theorem accepts_of_types (hf : f.params.map (·.ty) = tys)
    (h : Forall₂ (fun ty v => ty = .bool → v = 0 ∨ v = 1) tys args) :
  Accepts f args
  := by
  rw [← hf, forall₂_map_left_iff] at h
  apply h

/-- Whatever the function returns for arguments the code returns too. -/
def Realizes (g : Ir.Function) (f : Typed.Function) : Prop :=
  ∀ args v, Accepts f args → (∃ n, f.eval? n args = some v) → g.Returns args v

/-! ### The start of a function -/

/-- Parameters of truth values hold zero or one. -/
theorem truthful_start (hf : f.Regular) (hargs : Accepts f args) :
  Truthful f.slotType (f.start args)
  := by
  have hfold (σ : Words) (hσ : Truthful f.slotType σ) (ps : List Local) (vs : List Int64)
      (hps : ∀ p ∈ ps, f.slotType p.name = p.ty)
      (hvs : Forall₂ (fun p v => p.ty = .bool → v = 0 ∨ v = 1) ps vs) :
      Truthful f.slotType
        ((ps.zip vs).foldl (fun σ q => Function.update σ q.1.name (some q.2)) σ) := by
    induction hvs generalizing σ with
    | nil => apply hσ
    | cons hv _ ih =>
      rw [forall_mem_cons] at hps
      apply ih _ _ hps.2
      apply hσ.update
      rw [hps.1]
      apply hv
  apply hfold _ _ f.params args _ hargs
  · rintro x v ⟨⟩
  · intro p hp
    apply hf.recorded p (mem_append_left _ hp)

/-- Both start with the same words. -/
theorem start_eq {g : Ir.Function} (hg : g.params = f.params.map varOf) :
  g.start args = ⟨0, f.start args⟩
  := by
  rw [Ir.Function.start, hg, zip_map_left, foldl_map]
  rfl

/-! ### The end of a function -/

/-- The state with an end to the code, if there is none. -/
def finish (s : State) : State :=
  if endsWithReturn s.code then s else s.emit (.ret (some (.int 0)))

theorem gives_body (h : (stmts none f.body).Gives env s ⟨⟩ s') :
  (body f).Gives env s ⟨⟩ (finish s')
  := by
  rw [body, gives_bind]
  refine ⟨⟨⟩, s', h, ?_⟩
  rw [gives_bind]
  refine ⟨s', s', gives_get.mpr ⟨rfl, rfl⟩, ?_⟩
  rw [finish]
  cases endsWithReturn s'.code with
  | true => exact gives_pure.mpr ⟨rfl, rfl⟩
  | false => exact gives_emit.mpr rfl

theorem extends_finish :
  Extends s (finish s)
  := by
  rw [finish]
  split
  · apply Extends.refl
  · apply (Extends.refl s).emit

/-- Where there is a return already, control does not get to the end. -/
theorem returns_of_falls (hstart : start.pc = 0)
    (hgoes : Goes (finish s).code.toList start ⟨s.code.size, w⟩) :
  ∃ n, Ir.run? (finish s).code.toList n start = some 0
  := by
  rw [finish] at hgoes ⊢
  split at hgoes
  · rename_i hends
    unfold endsWithReturn at hends
    split at hends
    · rename_i value hback
      rw [← Array.getLast?_toList] at hback
      have hlt := hgoes.pc_lt hback (by
        rw [hstart]
        apply length_pos_of_ne_nil
        rintro hnil
        rw [hnil] at hback
        cases hback)
      simp at hlt
    · cases hends
  · rename_i hends
    rw [if_neg hends]
    apply hgoes.run? (n := 1)
    have hget : (s.emit (.ret (some (.int 0)))).code.toList[s.code.size]? =
        some (.ret (some (.int 0))) := State.getElem?_of_within prefix_rfl
    rw [Ir.run?, Ir.step?, hget]
    rfl

/-! ### Functions -/

/-- There are no raw blocks. -/
def blockFree : Typed.Vocabulary :=
  ⟨fun _ => True, fun _ => True, fun _ _ => True, fun _ => False, fun _ => True⟩

section

open Typed

theorem within_expr :
  ∀ {e : Expr}, e.Worded Γ → Within blockFree e.nodes []
  | .literal _ (.int _), _ | .literal _ (.bool _), _ | .var _ (.slot _), _ =>
    within_nil.consExpr trivial
  | .binary .., h => ((within_expr h.2.1).append (within_expr h.2.2)).consExpr trivial
  | .unary .., h => (within_expr h.2).consExpr trivial

mutual

/-- Statements on words hold no raw blocks. -/
theorem within_stmt :
  ∀ {st : Stmt}, st.Worded Γ → Within blockFree st.nodes st.inside
  | .assign _ (.var (.slot _)) _, h => (within_expr h.2.2).cons trivial
  | .expr _ _, h => (within_expr h).cons trivial
  | .branch .., h => ((within_arms h.1).append (within_stmts h.2)).cons trivial
  | .whileLoop .., h => ((within_expr h.1).append (within_stmts h.2)).cons trivial
  | .forLoop _ (.slot _) (.builtin n .range [stop]) _, h =>
    have hargs := (within_expr h.2.2.1).append within_nil
    ((hargs.consExpr (e := .builtin n .range [stop]) trivial).append
      (within_stmts h.2.2.2)).cons trivial
  | .forLoop _ (.slot _) (.builtin n .range [start, stop]) _, h =>
    have hargs := (within_expr h.2.2.1).append ((within_expr h.2.2.2.1).append within_nil)
    ((hargs.consExpr (e := .builtin n .range [start, stop]) trivial).append
      (within_stmts h.2.2.2.2)).cons trivial
  | .ret _ (some _), h => (within_expr h).cons trivial
  | .ret _ none, _ | .leave _, _ | .next _, _ => within_nil.cons trivial

theorem within_stmts :
  ∀ {body : List Stmt}, WordedAll Γ body →
    Within blockFree (Stmt.nodesOf body) (Stmt.insideOf body)
  | [], _ => within_nil
  | _ :: _, h => (within_stmt h.1).append (within_stmts h.2)

theorem within_arms :
  ∀ {arms : List Arm}, WordedArms Γ arms →
    Within blockFree (Stmt.nodesOfArms arms) (Stmt.insideArms arms)
  | [], _ => within_nil
  | .mk _ _ :: _, h => ((within_expr h.1).append (within_stmts h.2.1)).append (within_arms h.2.2)

end

end

/-- A function on words is lowered without a fault, and its code returns what it returns. -/
theorem function_realizes (hf : f.Regular) (hwords : f.isWordly)
    (globals : List (String × WordType)) (strings : List String) (reports : Array Diagnostic) :
  ∃ g, function globals strings reports f = .ok (g, strings, reports) ∧ Realizes g f
  := by
  let env : Env := ⟨(f.params.map varOf ++ f.locals.map varOf).map fun v => (v.name, v.ty), globals⟩
  let start : State := ⟨strings, reports, (f.locals.map varOf).toArray, #[], 0, 0, 0⟩
  have hdoes : Does f.slotType env none (stmts none f.body)
      fun n σ => Typed.execAll? n f.body σ := does_stmts f.body none (hf.worded hwords)
  obtain ⟨s, hgives, hperforms⟩ := hdoes start
  have hextends := hperforms.extended.trans extends_finish
  let g : Ir.Function := ⟨f.name, f.params.map varOf, .ofTy f.result, (finish s).vars.toList,
    (finish s).code.toList, f.span⟩
  have hfunction : function globals strings reports f = .ok (g, strings, reports) := by
    have hrun : ((body f).run env).run start = (.ok ⟨⟩, finish s) := gives_body hgives
    simp only [function]
    rw [hrun]
    simp only [hextends.strings, hextends.reports]
    rfl
  have hwithin : f.Within blockFree :=
    ⟨within_stmts (hf.worded hwords), fun _ _ => trivial, fun _ _ => trivial⟩
  have hlabels := ((function_labelled (fun _ => id) hwithin hfunction).2 le_rfl).nodup
  refine ⟨g, hfunction, ?_⟩
  rintro args v hargs ⟨n, hn⟩
  have harrives (σ : Words) (exit : Exit)
      (h : Typed.execAll? n f.body (f.start args) = some (σ, exit)) :
      Arrives (finish s).code.toList none 0 ⟨0, f.start args⟩ s σ exit :=
    hperforms.goes _ n _ _ σ exit extends_finish.code hlabels (truthful_start hf hargs)
      (fun _ _ => rfl) h
  rw [Ir.Function.Returns, start_eq rfl]
  rw [Typed.Function.eval?] at hn
  split at hn
  · rename_i σ u hexec
    cases hn
    apply harrives σ _ hexec
  · rename_i σ hexec
    cases hn
    obtain ⟨w, hgoes, _⟩ := harrives σ _ hexec
    apply returns_of_falls rfl hgoes
  · cases hn

/-- Lowering keeps values: a function of an accepted program that works on integers and truth
values only, and whose variables have the types that are recorded, is lowered without a fault,
and whatever it returns for arguments its code returns too. -/
theorem lower_realizes {program : Tree.Program} {m : Typed.Module} (hnamed : Typed.Named program)
    (h : (Typed.infer program).module = some m) {f : Typed.Function} (hf : f ∈ m.functions)
    (hwords : f.isWordly = true) (hagreed : f.Agreed) :
  (∀ globals strings reports, ∃ g,
    function globals strings reports f = .ok (g, strings, reports) ∧ Realizes g f) ∧
  ∀ ir, lower m = .ok ir → ∀ g ∈ ir.functions, g.name = f.name → Realizes g f
  := by
  have hrealizes := function_realizes (Typed.infer_regular hnamed h hf hagreed) hwords
  use hrealizes
  intro ir hir g hg hname
  obtain ⟨all, hlowered⟩ := exists_lowered hir
  rw [hlowered.reached] at hg
  obtain ⟨f', hf', _, _, _, hfunction, -⟩ :=
    (functions_each (fun _ => 0) (by simp) hlowered.functions).2.2 g (List.mem_of_mem_filter hg)
  have heq : f' = f := by
    apply List.inj_on_of_nodup_map (Typed.infer_names_nodup h) hf' hf
    rw [← name_of_function hfunction, hname]
  subst heq
  obtain ⟨g', hg', hrealizes⟩ := hrealizes _ _ _
  cases hfunction.symm.trans hg'
  exact hrealizes

section

open Endmark.Tree

/-- An integer that is written out. -/
def number (value : Int64) : Expr :=
  .literal .nowhere (.int value)

/-- A truth value that is written out. -/
def truthValue (value : Bool) : Expr :=
  .literal .nowhere (.bool value)

/-- The use of a name. -/
def use (name : String) : Expr :=
  .name .nowhere name

/-- A name is given a value. -/
def give (name : String) (value : Expr) : Stmt :=
  .assign .nowhere (.name ⟨name, .nowhere⟩) none value

/-- A function is called. -/
def callOf (name : String) (args : List Expr) : Expr :=
  .call .nowhere ⟨name, .nowhere⟩ args

/-- Primes below `n` are counted, only the odd ones if asked for:
`def primes(n, odd): t = 0; for i in range(2, n): if odd and i % 2 == 0: continue; end; d = 2;
while True: if d * d > i: t = t + 1; break; elif i % d == 0: break; end; d = d + 1; end; end;
return t; end; def main(): return primes(9, True); end;` -/
def countingPrimes : Program where
  main := ⟨none, [
    Typed.plainFunction "primes" ["n", "odd"] [
      give "t" (number 0),
      .forLoop .nowhere ⟨"i", .nowhere⟩ (callOf "range" [number 2, use "n"]) [
        .branch .nowhere [.mk (.binary .nowhere .and (use "odd")
          (.binary .nowhere .eq (.binary .nowhere .mod (use "i") (number 2)) (number 0)))
          [.next .nowhere]] none,
        give "d" (number 2),
        .whileLoop .nowhere (truthValue true) [
          .branch .nowhere [
            .mk (.binary .nowhere .greater (.binary .nowhere .mul (use "d") (use "d")) (use "i")) [
              give "t" (.binary .nowhere .add (use "t") (number 1)),
              .leave .nowhere],
            .mk (.binary .nowhere .eq (.binary .nowhere .mod (use "i") (use "d")) (number 0)) [
              .leave .nowhere]] none,
          give "d" (.binary .nowhere .add (use "d") (number 1))]],
      .ret .nowhere (some (use "t"))],
    Typed.plainFunction "main" [] [
      .ret .nowhere (some (callOf "primes" [number 9, truthValue true]))]]⟩
  libraries := []

theorem countingPrimes_realized :
  Typed.Named countingPrimes ∧ ∃ m f ir g, (Typed.infer countingPrimes).module = some m ∧
    f ∈ m.functions ∧ f.isWordly = true ∧ f.Agreed ∧ Accepts f [9, 1] ∧
    f.eval? 60 [9, 1] = some 3 ∧ lower m = .ok ir ∧ g ∈ ir.functions ∧ g.name = f.name ∧
    g.Returns [9, 1] 3
  := by
  have hnamed : Typed.Named countingPrimes := by decide +kernel
  -- one evaluation for all of what is inferred
  have hall : ((Typed.infer countingPrimes).settled &&
      (Typed.infer countingPrimes).module.any fun m => m.functions.any fun f => f.isWordly &&
        f.params.map (·.ty) == [.int, .bool] && f.eval? 60 [9, 1] == some 3 &&
        (lower m).toOption.any fun ir => ir.functions.any fun g => g.name == f.name) = true := by
    decide +kernel
  simp only [Bool.and_eq_true, Option.any_eq_true, List.any_eq_true, beq_iff_eq] at hall
  obtain ⟨hsettled, m, hm, f, hf, ⟨⟨hwords, htypes⟩, heval⟩, ir, hir, g, hg, hname⟩ := hall
  have hagreed := Typed.infer_agreed hnamed hm hsettled hf
  have hir := eq_ok_of_toOption hir
  have haccepts : Accepts f [9, 1] := accepts_of_types htypes (by simp)
  have hreturns := (lower_realizes hnamed hm hf hwords hagreed).2 ir hir g hg hname [9, 1] 3
    haccepts ⟨60, heval⟩
  exact ⟨hnamed, m, f, ir, g, hm, hf, hwords, hagreed, haccepts, heval, hir, hg, hname, hreturns⟩

/-- A list in a list, so many times, around a value. -/
def nested (value : Expr) : Nat → Expr
  | 0 => value
  | n + 1 => .list .nowhere [nested value n]

/-- The first item of the first item, so many times. -/
def firstOf (value : Expr) : Nat → Expr
  | 0 => value
  | n + 1 => .index .nowhere (firstOf value n) (number 0)

/-- The parameter of a function is given a truth value in all passes but the last:
`def main(): if False: f(…); end; return f(5); end; def f(p): return p or False; end;
def r(): return [r()]; end;` where `…` is the innermost item of a list of `r()` and of fourteen
lists around `True`.  With each pass the result of `r` gets one more list, so that in the last
one the items of the list have no type in common. -/
def changingType : Program where
  main := ⟨none, [
    Typed.plainFunction "main" [] [
      .branch .nowhere [.mk (truthValue false) [
        .expr .nowhere (callOf "f"
          [firstOf (.list .nowhere [callOf "r" [], nested (truthValue true) 14]) 15])]] none,
      .ret .nowhere (some (callOf "f" [number 5]))],
    Typed.plainFunction "f" ["p"] [
      .ret .nowhere (some (.binary .nowhere .or (use "p") (truthValue false)))],
    Typed.plainFunction "r" [] [
      .ret .nowhere (some (.list .nowhere [callOf "r" []]))]]⟩
  libraries := []

/-- Passes stop before inference has settled, and an integer is taken for a truth value. -/
theorem changingType_not_realized :
  Typed.Named changingType ∧ (Typed.infer changingType).settled = false ∧
    ∃ m f ir g, (Typed.infer changingType).module = some m ∧ f ∈ m.functions ∧
      f.isWordly = true ∧ Accepts f [5] ∧ f.eval? 5 [5] = some 1 ∧ lower m = .ok ir ∧
      g ∈ ir.functions ∧ g.name = f.name ∧ ¬ Realizes g f
  := by
  have hnamed : Typed.Named changingType := by decide +kernel
  -- one evaluation for all of what is inferred
  have hall : (!(Typed.infer changingType).settled &&
      (Typed.infer changingType).module.any fun m => m.functions.any fun f => f.isWordly &&
        f.params.map (·.ty) == [.int] && f.eval? 5 [5] == some 1 &&
        (lower m).toOption.any fun ir => ir.functions.any fun g => g.name == f.name &&
          Ir.run? g.body 10 (g.start [5]) == some 5) = true := by
    decide +kernel
  simp only [Bool.and_eq_true, Bool.not_eq_true', Option.any_eq_true, List.any_eq_true,
    beq_iff_eq] at hall
  obtain ⟨hsettled, m, hm, f, hf, ⟨⟨hwords, htypes⟩, heval⟩, ir, hir, g, hg, hname, hrun⟩ := hall
  have haccepts : Accepts f [5] := accepts_of_types htypes (by simp)
  refine ⟨hnamed, hsettled, m, f, ir, g, hm, hf, hwords, haccepts, heval, eq_ok_of_toOption hir, hg,
    hname, ?_⟩
  intro hrealizes
  obtain ⟨n, hn⟩ := hrealizes [5] 1 haccepts ⟨5, heval⟩
  cases Ir.run?_unique hn hrun

end

end Endmark.Lowering

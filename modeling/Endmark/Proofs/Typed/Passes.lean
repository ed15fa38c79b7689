import Endmark.Proofs.Typed.Plan
import Endmark.Proofs.Typed.Statements

/-!
# Passes that report no error

A pass over a program that reports no error checks one function after the other, each of them
by steps from its start.  What inference gives comes from the last pass, which reads the
tables that the passes before have settled on.
-/

namespace Endmark.Typed

open List
open Endmark.Tree (Program)

/-! ### One function -/

/-- What stays the same while the function with the given number is checked. -/
def Env.of (plan : Plan) (prev : Tables) (index : Nat) (f : FunctionPlan) : Env where
  plan := plan
  prev := prev
  index := index
  function := f
  assigned := if f.topLevel then [] else (boundByAll f.body).map (·.name)

/-- The state in which the check of a function starts. -/
def State.start (plan : Plan) (prev found : Tables) (reports : Array Diagnostic) (index : Nat)
    (f : FunctionPlan) : State where
  found := found
  reports := reports
  scopes := startScopes plan prev index f
  scope := 1
  again := f.params.map fun p => (p.name, 0)
  locals := []

/-- The function with its checked body and the types found in the state after the check. -/
def FunctionPlan.typed (f : FunctionPlan) (prev : Tables) (index : Nat) (body : List Stmt)
    (s : State) : Function where
  name := f.name
  params := f.params.zipIdx.map fun (p, k) =>
    ⟨p.name, p.name, .refined (prev.param? index k) ((s.found.param? index k).getD .unknown),
      p.span⟩
  result := (s.found.function index).result
  locals := s.locals.map fun l =>
    { l with
      ty := .refined (prev.slot? index l.name) ((s.found.slot? index l.name).getD .unknown) }
  body := body
  span := f.span
  synthetic := f.topLevel

/-- From the tables `found` the function is checked by steps that account for all of it, with
the tables `found'` in the end. -/
def FunctionChecked (plan : Plan) (prev : Tables) (index : Nat) (f : FunctionPlan)
    (found : Tables) (g : Function) (found' : Tables) : Prop :=
  ∃ reports s events,
    Steps (.of plan prev index f) ⟨.start plan prev found reports index f, []⟩ ⟨s, events⟩ ∧
    (∀ w ∈ accountOf g.body, w ∈ events) ∧ g = f.typed prev index g.body s ∧ found' = s.found

section

variable {P : Scopes → Prop} {plan : Plan} {prev : Tables} {f : FunctionPlan} (hnew : P .new)
  (hfunction : ∀ t k g, plan.functions[k]? = some g → g.topLevel = false → P t →
    P (t.declare 0 g.name (.function (prev.function k).params (prev.function k).result)
      .function g.span g.name))
  (hglobal : f.topLevel = false → ∀ t, ∀ g ∈ plan.globals, P t →
    P (t.declare 0 g.1 ((prev.global? g.1).getD .unknown) .global g.2 g.1))

include hnew hfunction hglobal

/-- What holds of the scope of the module alone, and stays true when functions and globals are
declared, holds where the scope of a function is opened. -/
theorem moduleScopes_of :
  P ((if f.topLevel then [] else plan.globals).foldl
    (fun (t : Scopes) (name, span) =>
      t.declare 0 name ((prev.global? name).getD .unknown) .global span name)
    (functionScopes plan prev))
  := by
  have hfunctions : P (functionScopes plan prev) := by
    apply foldlRecOn _ _ hnew
    rintro t ht ⟨g, k⟩ hg
    obtain ⟨hg, htop⟩ := mem_filter.mp hg
    apply hfunction t k g (mem_zipIdx_iff_getElem?.mp hg) (by simpa using htop) ht
  apply foldlRecOn _ _ hfunctions
  intro t ht g hg
  split at hg
  · cases hg
  · rename_i htop
    apply hglobal (Bool.eq_false_iff.mpr htop) t g hg ht

/-- When it also stays true as that scope is opened and parameters are declared, it holds at the
start of the check of a function. -/
theorem startScopes_of (hpush : ∀ t, P t → P (t.push 0 .function))
    (hparam : ∀ t k p, f.params[k]? = some p → P t →
      P (t.declare 1 p.name ((prev.param? index k).getD .unknown) .parameter p.span p.name)) :
  P (startScopes plan prev index f)
  := by
  apply foldlRecOn _ _ (hpush _ (moduleScopes_of hnew hfunction hglobal))
  rintro t ht ⟨p, k⟩ hp
  apply hparam t k p (mem_zipIdx_iff_getElem?.mp hp) ht

end

theorem start_inner {prev : Tables} :
  (State.start plan prev found reports index f).Inner
  := by
  constructor
  · apply one_pos
  · apply startScopes_of (P := fun t => 0 < t.scopes.size) <;>
      simp [Scopes.new, Scopes.push, Scopes.declare]

theorem body_walks {prev : Tables} :
  (Check.stmts f.body).Walks (.of plan prev index f) ∅ (fun a => accountOf a) fun Γ a Γ' =>
    Stmt.ElaboratesAll plan.outside f.topLevel Γ f.body a Γ'
  := Check.stmts_walks id fun ident h => ⟨ident, h, rfl⟩

/-- Errors stay reported, and without one a function is checked by steps. -/
theorem checkFunction_checked {prev : Tables} :
  let (g, found', reports') := checkFunction plan prev found reports index f
  (Diagnostic.anyError reports.toList → Diagnostic.anyError reports'.toList) ∧
    (Diagnostic.anyError reports'.toList ∨ FunctionChecked plan prev index f found g found')
  := by
  obtain ⟨hkeep, hend⟩ := body_walks (.start plan prev found reports index f)
  constructor
  · apply hkeep
  · apply hend.imp_right
    intro hleads
    obtain ⟨events, hsteps, haccount⟩ := hleads.reaches [] start_inner (by simp)
    exact ⟨reports, _, events, hsteps, haccount, rfl, rfl⟩

/-! ### All functions -/

/-- From the tables `found` the functions are checked one after the other, with the tables
`found'` in the end. -/
inductive Checked (plan : Plan) (prev : Tables) :
    Nat → List FunctionPlan → Tables → List Function → Tables → Prop
  | nil (index : Nat) (found : Tables) : Checked plan prev index [] found [] found
  | cons {index : Nat} {f : FunctionPlan} {rest : List FunctionPlan} {found middle last : Tables}
      {g : Function} {others : List Function} :
      FunctionChecked plan prev index f found g middle →
      Checked plan prev (index + 1) rest middle others last →
      Checked plan prev index (f :: rest) found (g :: others) last

/-- Errors stay reported, and without one functions are checked by steps. -/
theorem checkFunctions_checked (plan : Plan) (prev : Tables) :
  ∀ (fs : List FunctionPlan) (found : Tables) (reports : Array Diagnostic) (index : Nat),
    let (gs, found', reports') := checkFunctions plan prev found reports index fs
    (Diagnostic.anyError reports.toList → Diagnostic.anyError reports'.toList) ∧
      (Diagnostic.anyError reports'.toList ∨ Checked plan prev index fs found gs found')
  | [], found, _, index => ⟨id, .inr (.nil index found)⟩
  | f :: rest, found, reports, index => by
    obtain ⟨hkeep, hfirst⟩ := checkFunction_checked
    obtain ⟨hkeep', hrest⟩ := checkFunctions_checked plan prev rest
      (checkFunction plan prev found reports index f).2.1
      (checkFunction plan prev found reports index f).2.2 (index + 1)
    constructor
    · intro h
      apply hkeep' (hkeep h)
    · obtain herror | hrest := hrest
      · left
        apply herror
      · apply hfirst.imp hkeep'
        intro hfirst
        apply Checked.cons hfirst hrest

/-- The pass reports no error. -/
def Clean (plan : Plan) (prev : Tables) : Prop :=
  Diagnostic.anyError (pass plan prev).reports.toList = false

/-- A pass that reports no error checks all functions by steps. -/
theorem pass_checked {prev : Tables} (h : Clean plan prev) :
  Checked plan prev 0 plan.functions (.initial plan) (pass plan prev).module.functions
    (pass plan prev).found
  := by
  obtain ⟨_, herror | hchecked⟩ := checkFunctions_checked plan prev plan.functions
    (.initial plan) #[] 0
  · cases h.symm.trans herror
  · apply hchecked

/-- The globals of the module have the types that the pass has found. -/
theorem pass_globals {prev : Tables} :
  (pass plan prev).module.globals = plan.globals.map fun binding =>
    ⟨binding.1, ((pass plan prev).found.global? binding.1).getD .unknown, binding.2⟩
  := rfl

/-! ### All passes -/

/-- The tables that the last pass reads, when there are so many passes at most after the
first one. -/
def lastRead (plan : Plan) : Nat → Tables → Tables
  | 0, tables => tables
  | further + 1, tables =>
    let found := (pass plan tables).found
    if found = tables then tables else lastRead plan further found

/-- The last pass reads `lastRead`, and inference has settled if it leaves that as it is. -/
theorem settle_eq :
  settle plan further tables =
    let read := lastRead plan further tables
    (pass plan read, decide ((pass plan read).found = read))
  := by
  induction further generalizing tables with
  | zero => rfl
  | succ further ih =>
    simp only [settle, lastRead]
    split
    · rename_i h
      simp [h]
    · apply ih

/-- The plan of a program. -/
def planOf (program : Program) : Plan :=
  ((collect program).run #[]).1

/-- The tables that the last pass over a program reads. -/
def readBy (program : Program) : Tables :=
  lastRead (planOf program) (maxPasses - 1) (.initial (planOf program))

/-- What is inferred comes from the last pass, unless the plan has an error. -/
theorem infer_eq :
  infer program =
    let planReports := ((collect program).run #[]).2
    let last := pass (planOf program) (readBy program)
    let reports := planReports.toList ++ last.reports.toList
    if Diagnostic.anyError planReports.toList then
      ⟨none, planReports.toList, true⟩
    else
      ⟨if Diagnostic.anyError reports then none else some last.module, reports,
        last.found = readBy program⟩
  := by
  simp only [infer, settle_eq]
  rfl

/-- A program that is accepted has a plan without errors, and its last pass reports none. -/
theorem infer_eq_some (h : (infer program).module = some m) :
  PlansProgram program (planOf program) ∧
    Clean (planOf program) (readBy program) ∧ m = (pass (planOf program) (readBy program)).module ∧
    ((infer program).settled ↔
      (pass (planOf program) (readBy program)).found = readBy program)
  := by
  simp only [infer_eq] at h ⊢
  split at h
  · cases h
  · rename_i hplan
    rw [if_neg hplan]
    split at h
    · cases h
    · rename_i hreports
      rw [Diagnostic.anyError, any_append, Bool.or_eq_true, not_or] at hreports
      use (collect_gives program #[]).2.resolve_left hplan
      use Bool.eq_false_iff.mpr hreports.2, (Option.some.inj h).symm
      simp

end Endmark.Typed

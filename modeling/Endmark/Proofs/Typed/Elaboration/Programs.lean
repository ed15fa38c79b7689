import Endmark.Proofs.Typed.Symbols

/-!
# Programs are elaborated

Each function of an accepted program elaborates what is written for it, and so does the
function that holds the statements outside of functions.  There is a function for each
definition, and no other.
-/

namespace Endmark.Typed

open Scopes
open List
open Endmark.Tree (Program)
open Collect

/-! ### What is written -/

/-- A function as it is written: its name, the names of its parameters and its statements, and
whether these stand outside of functions. -/
structure Written where
  name : String
  params : List String
  body : List Tree.Stmt
  top : Bool

/-- The definitions of a program: those of its libraries for which its main unit has none of
the same name, and those of the main unit. -/
def definitions (program : Program) : List Tree.Function :=
  (functionsIn (program.libraries.flatMap (·.items))).filter
      (fun f => !(functionsIn program.main.items).any (·.name.name == f.name.name)) ++
    functionsIn program.main.items

/-- Does the program define where it starts? -/
def hasMain (program : Program) : Bool :=
  (definitions program).any (·.name.name == "main")

/-- All functions of a program.  The last one holds the statements outside of functions, if
there are any or if the program starts with them. -/
def written (program : Program) : List Written :=
  (definitions program).map (fun f => ⟨f.name.name, f.params.map (·.name.name), f.body, false⟩) ++
    if hasMain program && (statementsOf program).isEmpty then []
    else [⟨if hasMain program then initName else "main", [], statementsOf program, true⟩]

/-- The function of a plan as it is written. -/
def FunctionPlan.written (f : FunctionPlan) : Written :=
  ⟨f.name, f.params.map (·.name), f.body, f.topLevel⟩

theorem written_of_plans (h : Forall₂ Plans gs fs) :
  fs.map (·.written) =
    gs.map fun g => ⟨g.name.name, g.params.map (·.name.name), g.body, false⟩
  := by
  induction h with
  | nil => rfl
  | cons hfirst _ ih =>
    rw [map_cons, map_cons, ih, FunctionPlan.written, hfirst.name,
      hfirst.params.names, hfirst.body, hfirst.topLevel]

/-- A plan without errors has the functions as they are written. -/
theorem collect_written :
  Gives (collect program) fun plan => plan.functions.map (·.written) = written program
  := by
  apply gives_bind (distinct_gives .libraryRedefined _ [])
  intro library
  apply gives_bind (distinct_gives .redefined _ [])
  intro own
  apply gives_bind (gives_mapM planFunction_gives _)
  intro functions
  apply gives_pure
  rintro hplans ⟨rfl, _⟩ ⟨rfl, _⟩
  have hfunctions := written_of_plans hplans
  have hmain : functions.any (·.name == "main") = hasMain program := by
    have := congrArg (·.any (·.name == "main")) hfunctions
    simpa [Function.comp_def, FunctionPlan.written, hasMain, definitions] using this
  rw [map_append, hfunctions, hmain, written, statementsOf]
  cases hasMain program <;> cases (statementsIn program.main.items).isEmpty <;> rfl

/-- The plan of an accepted program has the functions as they are written. -/
theorem planOf_written (h : (infer program).module = some m) :
  (planOf program).functions.map (·.written) = written program
  := by
  apply (collect_written #[]).2.resolve_left
  intro herror
  rw [infer_eq] at h
  simp only [herror] at h
  cases h

/-! ### The start of a function -/

theorem map_zipIdx {α β : Type} (g : α → β) (l : List α) :
  (l.zipIdx.map fun p => g p.1) = l.map g
  := by
  conv_rhs => rw [← zipIdx_map_fst 0 l, map_map]
  rfl

/-- The scope of the module alone, with entries that denote what there is. -/
structure Rooted (plan : Plan) (t : Scopes) : Prop where
  size : t.scopes.size = 1
  root : t.shape? 0 = some (.module, none)
  entry : ∀ i x n, t.Entry i x n → ∃ symbol, t.symbol? n = some symbol ∧ symbol.name = x ∧
    Denotes plan i symbol

variable {prev : Tables}

theorem Rooted.declare {span : Span} (h : Rooted plan t)
    (hnew : Denotes plan 0 ⟨name, ty, t.depth 0, kind, span, slot⟩) :
  Rooted plan (t.declare 0 name ty kind span slot)
  := by
  constructor
  · simpa [Scopes.declare] using h.size
  · simpa using h.root
  · apply Denoting.entry_declare h.entry hnew

theorem rooted_new :
  Rooted plan .new
  := by
  constructor
  · rfl
  · rfl
  · rintro i x n ⟨sc, hsc, hn⟩
    obtain ⟨hi, rfl⟩ := getElem?_eq_some_iff.mp hsc
    have : i = 0 := by simpa [new] using hi
    subst this
    cases hn

/-- The scope of a function inside of that of the module binds nothing yet. -/
theorem Rooted.push (h : Rooted plan t) :
  Denoting plan (t.push 0 .function) ∧ (t.push 0 .function).blocks 1 = [[]]
  := by
  have hnested : (t.push 0 .function).Nested := by
    constructor
    · rw [shape?_push, if_neg (by rw [h.size]; omega), h.root]
    · rw [shape?_push, if_pos h.size.symm]
    · intro i shape hshape
      rw [shape?_eq_none_iff.mpr (by simp [Scopes.push, h.size])] at hshape
      cases hshape
  constructor
  · constructor
    · apply hnested
    · intro i x n hentry
      apply h.entry i x n (entry_push hentry)
  · rw [hnested.blocks_one, slotsAt_push, if_pos h.size.symm]

theorem Denoting.declareParams (type : Nat → Ty) {ps : List (ParamPlan × Nat)}
    (h : Denoting plan t) (hblocks : t.blocks 1 = [block]) :
  let t' := ps.foldl (fun (t : Scopes) (p, k) =>
    t.declare 1 p.name (type k) .parameter p.span p.name) t
  Denoting plan t' ∧ t'.blocks 1 = [(ps.map fun p => (p.1.name, p.1.name)).reverse ++ block]
  := by
  induction ps generalizing t block with
  | nil => exact ⟨h, hblocks⟩
  | cons p ps ih =>
    obtain ⟨p, k⟩ := p
    have hnext : Denoting plan (t.declare 1 p.name (type k) .parameter p.span p.name) :=
      h.declare one_ne_zero
    have hbind : (t.declare 1 p.name (type k) .parameter p.span p.name).blocks 1 =
        [(p.name, p.name) :: block] := by
      rw [h.nested.blocks_declare h.filled one_pos
        (lt_of_lt_of_le one_lt_two h.nested.two_le_size), hblocks]
      rfl
    obtain ⟨hdenoting, hblocks⟩ := ih hnext hbind
    use hdenoting
    rw [foldl_cons, hblocks]
    simp

/-- At the start of a function its parameters are bound. -/
theorem start_lexical (plan : Plan) (prev found : Tables) (reports : Array Diagnostic)
    (index : Nat) (f : FunctionPlan) :
  (State.start plan prev found reports index f).Lexical plan ∧
    (State.start plan prev found reports index f).context (.of plan prev index f) =
      .start (f.params.map (·.name))
  := by
  have hmodule := @moduleScopes_of (Rooted plan) plan prev f rooted_new
    (fun _ _ _ hg htop ht => ht.declare ⟨rfl, callable?_isSome hg htop⟩)
    fun _ _ _ hg ht => ht.declare ⟨rfl, rfl, mem_map_of_mem hg⟩
  obtain ⟨hdenoting, hblocks⟩ := hmodule.push
  obtain ⟨hdenoting, hblocks⟩ := hdenoting.declareParams
    (fun k => (prev.param? index k).getD .unknown) hblocks
  constructor
  · refine ⟨hdenoting, one_pos, ?_⟩
    exact lt_of_lt_of_le one_lt_two hdenoting.nested.two_le_size
  · simp only [State.context, State.start, startScopes, Context.start, Env.of]
    rw [hblocks, map_zipIdx fun p : ParamPlan => (p.name, p.name)]
    simp

/-! ### Functions -/

/-- The function elaborates what is written for it: between its start, with the parameters
bound, and its end, with all of its slots declared. -/
structure Function.Elaborates (O : Outside) (w : Written) (f : Function) : Prop where
  name : f.name = w.name
  params : f.params.map (·.name) = w.params
  synthetic : f.synthetic = w.top
  body : ∃ blocks, Stmt.ElaboratesAll O w.top (.start w.params) w.body f.body
    ⟨blocks, (f.params ++ f.locals).map fun l => (l.name, l.sourceName)⟩

theorem params_typed (f : FunctionPlan) (prev : Tables) (index : Nat) (body : List Stmt)
    (s : State) :
  (f.typed prev index body s).params.map (fun l => (l.name, l.sourceName)) =
    f.params.map fun p => (p.name, p.name)
  := by
  simp only [FunctionPlan.typed, map_map]
  apply map_zipIdx fun p : ParamPlan => (p.name, p.name)

/-- A function that is checked without an error reported elaborates what is written. -/
theorem checkFunction_elaborates (henv : (Env.of plan prev index f).Sound) :
    let r := checkFunction plan prev found reports index f
  Diagnostic.anyError r.2.2.toList ∨ r.1.Elaborates plan.outside f.written
  := by
  let o := (Check.stmts f.body).outcome (.of plan prev index f)
    (.start plan prev found reports index f)
  change _ ∨ (f.typed prev index o.1 o.2).Elaborates _ _
  apply (body_walks (.start plan prev found reports index f)).2.imp_right
  intro hleads
  obtain ⟨hlexical, hcontext⟩ := start_lexical plan prev found reports index f
  obtain ⟨_, _, hbody⟩ := hleads.walks henv hlexical
  have hparams := params_typed f prev index o.1 o.2
  refine ⟨rfl, ?_, rfl, o.2.scopes.blocks o.2.scope, ?_⟩
  · simpa [Function.comp_def, FunctionPlan.written] using congrArg (map Prod.fst) hparams
  · rw [hcontext] at hbody
    rw [map_append, hparams]
    simp only [FunctionPlan.typed, map_map]
    apply hbody

/-- What functions are in when they are checked one by one without an error reported, they are
in when they are checked in order. -/
theorem checkFunctions_forall :
  ∀ (fs : List FunctionPlan) (found : Tables) (reports : Array Diagnostic) (index : Nat),
    (∀ j f, fs[j]? = some f → ∀ found reports,
      let r := checkFunction plan prev found reports (index + j) f
      Diagnostic.anyError r.2.2.toList ∨ P f r.1) →
    let r := checkFunctions plan prev found reports index fs
    Diagnostic.anyError r.2.2.toList ∨ Forall₂ P fs r.1
  | [], _, _, _, _ => .inr .nil
  | f :: rest, found, reports, index, h => by
    have hkeep := (checkFunctions_checked plan prev rest
      (checkFunction plan prev found reports index f).2.1
      (checkFunction plan prev found reports index f).2.2 (index + 1)).1
    have hrest := checkFunctions_forall rest
      (checkFunction plan prev found reports index f).2.1
      (checkFunction plan prev found reports index f).2.2 (index + 1)
      fun j g hg found reports => by
        rw [add_assoc, add_comm 1 j]
        apply h (j + 1) g hg
    obtain herror | hfirst := h 0 f rfl found reports
    · left
      apply hkeep herror
    · apply hrest.imp_right
      intro hrest
      apply Forall₂.cons hfirst hrest

/-! ### Programs -/

/-- What the functions of a module find outside of them. -/
def Module.outside (m : Module) : Outside where
  global x := x ∈ m.globals.map (·.name)
  function x n := ∃ f ∈ m.functions, f.synthetic = false ∧ f.name = x ∧ f.params.length = n

/-- The functions of the module are those that are written. -/
theorem outside_eq (h : Forall₂ (fun f g => g.Elaborates O f.written) plan.functions fs) :
  Module.outside { (pass plan prev).module with functions := fs } = plan.outside
  := by
  have hfunctions (x : String) (n : Nat) :
      (∃ g ∈ fs, g.synthetic = false ∧ g.name = x ∧ g.params.length = n) ↔
        ∃ f ∈ plan.functions, f.topLevel = false ∧ f.name = x ∧ f.params.length = n := by
    generalize plan.functions = ps at h
    induction h with
    | nil => simp
    | @cons f g _ _ hfirst _ ih =>
      have hlength : g.params.length = f.params.length := by
        simpa [FunctionPlan.written] using congrArg length hfirst.params
      simp [ih, hfirst.name, hfirst.synthetic, hlength,
        FunctionPlan.written]
  rw [Module.outside]
  congr 1
  · simp [pass_globals]
  · funext x n
    apply propext (hfunctions x n)

/-- The functions of an accepted program elaborate what is written. -/
theorem infer_elaborates (h : (infer program).module = some m) :
  Forall₂ (fun w f => f.Elaborates m.outside w) (written program) m.functions
  := by
  obtain ⟨hplan, hreports, rfl, _⟩ := infer_eq_some h
  have hall := (checkFunctions_forall (P := fun f g => g.Elaborates (planOf program).outside
      f.written) (planOf program).functions (.initial (planOf program)) #[] 0
    fun j f hf found reports => by
      rw [zero_add]
      apply checkFunction_elaborates (hplan.sound (readBy program) hf)).resolve_left
    (Bool.eq_false_iff.mp hreports)
  have houtside : (pass (planOf program) (readBy program)).module.outside =
      (planOf program).outside := outside_eq hall
  rw [houtside, ← planOf_written h, forall₂_map_left_iff]
  apply hall

end Endmark.Typed

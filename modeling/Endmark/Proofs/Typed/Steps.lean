import Endmark.Typed.Infer
import Endmark.Proofs.Typed.Nodes
import Endmark.Proofs.Typed.Ending

/-!
# The steps of a check

What a check does without reporting an error is a run of steps.  Each step changes the state
in one place, or leaves it as it is, and what has been done is noted: which expressions have
been formed, and which types have been given to parameters, variables and results.
-/

namespace Endmark.Typed

open Endmark.Tree (Ident)

/-- What is noted of a check. -/
inductive Event where
  /-- An expression has been formed. -/
  | formed (e : Expr)
  /-- A parameter of a function has been given an argument. -/
  | passed (target k : Nat) (arg : Expr)
  /-- A variable has been given a value of a type. -/
  | assigned (var : Variable) (ty : Ty)
  /-- The function returns a value. -/
  | returned (value : Expr)

/-- The state of a check, and what is noted of it so far. -/
structure Moment where
  state : State
  events : List Event

/-- Does the body of the function bind the name? -/
def Env.Binds (env : Env) (name : String) : Prop :=
  ∃ ident ∈ boundByAll env.function.body, ident.name = name

/-- Is there a place in the body of the function where no expression could be read? -/
def Env.Broken (env : Env) : Prop :=
  Tree.Stmt.readableAll env.function.body = false

/-- The environment is that of a function of its plan. -/
structure Env.Sound (env : Env) : Prop where
  function : env.plan.functions[env.index]? = some env.function
  nodup : (env.function.params.map (·.name)).Nodup
  params : env.function.topLevel = true → env.function.params = []
  globals : env.function.topLevel = true →
    ∀ name, env.Binds name → name ∈ env.plan.globals.map (·.1)

/-! ### Expressions -/

/-- The name means the symbol. -/
def State.Means (s : State) (name : String) (symbol : SymbolInfo) : Prop :=
  (s.scopes.lookup? s.scope name).bind s.scopes.symbol? = some symbol

/-- The variable that a symbol stands for. -/
def SymbolInfo.meaning? (symbol : SymbolInfo) : Option Variable :=
  match symbol.kind with
  | .function => none
  | .global => some (.global symbol.slot)
  | .variable | .parameter => some (.slot symbol.slot)

/-- The expression can be formed after the events: its parts have been formed, and it has the
type that goes with them. -/
def Formed (env : Env) (s : State) (events : List Event) : Expr → Prop
  | .literal n value => n.ty = Check.literalType value
  | .var n v => ∃ name symbol, s.Means name symbol ∧ n.ty = symbol.ty ∧
      SymbolInfo.meaning? symbol = some v
  | .function n f => ∃ name symbol, s.Means name symbol ∧ n.ty = symbol.ty ∧
      symbol.kind = .function ∧ symbol.name = f
  | .binary n op lhs rhs => .formed lhs ∈ events ∧ .formed rhs ∈ events ∧
      Ty.binary? op lhs.ty rhs.ty = some n.ty
  | .unary n op operand => .formed operand ∈ events ∧ Ty.unary? op operand.ty = some n.ty
  | .call n callee args => ∃ target, env.plan.callable? callee = some target ∧
      args.length = (env.plan.functions.getD target default).params.length ∧
      n.ty = (env.prev.function target).result ∧
      ∀ k arg, args[k]? = some arg → .passed target k arg ∈ events
  | .builtin n kind args => (∀ arg ∈ args, .formed arg ∈ events) ∧
      kind.result (args.map (·.ty)) = .ok n.ty
  | .list n items => (∀ item ∈ items, .formed item ∈ events) ∧
      n.ty = .list (((items.map (·.ty)).foldlM Ty.join .unknown).getD .unknown)
  | .index n base i => .formed base ∈ events ∧ .formed i ∈ events ∧
      Check.itemType? base.ty = some n.ty
  | .fstring n _ => n.ty = .str
  | .raw n _ => n.ty = .unknown
  | .error n => n.ty = .error ∧ env.Broken

/-! ### Types of variables -/

/-- The type is that of an expression formed before, or that of its items. -/
def Known (events : List Event) (ty : Ty) : Prop :=
  ∃ e, .formed e ∈ events ∧ (ty = e.ty ∨ Check.itemType? e.ty = some ty)

/-- Given a value of the type, the parameter `k` of a function takes it: it fits what is
declared, or it is joined to what has been found. -/
def Tables.Takes (t : Tables) (target k : Nat) (declared : Option Ty) (ty : Ty) (t' : Tables) :
    Prop :=
  match declared with
  | some declared => declared.fits ty = true ∧ t' = t
  | none => ∃ joined, ((t.param? target k).getD .unknown).join ty = some joined ∧
      t' = t.setParam target k joined

/-- The name of the slot that a name gets when it is declared after so many times. -/
def slotName (name : String) : Nat → String
  | 0 => name
  | count + 1 => s!"{name}.{count + 1}"

/-- How many times the name has been declared. -/
def State.times (s : State) (name : String) : Nat :=
  match s.again.lookup name with
  | some count => count + 1
  | none => 0

/-- The slot that the name gets when it is declared now. -/
def State.newSlot (s : State) (name : String) : String :=
  slotName name (s.times name)

/-- The state with a slot for a name. -/
def State.withSlot (s : State) (env : Env) (ident : Ident) (ty : Ty) : State :=
  let slot := s.newSlot ident.name
  { s with
    again := (ident.name, s.times ident.name) :: s.again
    scopes := s.scopes.declare s.scope ident.name
      (.refined (env.prev.slot? env.index slot) ty) .variable ident.span slot
    found := s.found.setSlot env.index slot ty
    locals := s.locals ++ [⟨slot, ident.name, ty, ident.span⟩] }

/-- The state after a symbol has been given a value of a type, with what has been found. -/
def State.withType (s : State) (found : Tables) (id : Nat) (symbol : SymbolInfo) (ty : Ty) :
    State :=
  { s with
    found
    scopes := s.scopes.setType id ((symbol.ty.join ty).getD symbol.ty) }

/-- The state with what a global holds. -/
def State.withGlobal (s : State) (env : Env) (ident : Ident) (held : Ty) : State :=
  let found := s.found.setGlobal ident.name held
  let seen := Ty.refined (env.prev.global? ident.name)
    ((found.global? ident.name).getD .unknown)
  { s with
    found
    scopes :=
      match s.scopes.lookup? 0 ident.name with
      | some id => s.scopes.setType id seen
      | none => s.scopes.declare 0 ident.name seen .global ident.span ident.name }

/-- The symbol that a name means in the enclosing function, and its number. -/
def State.Own (s : State) (name : String) (id : Nat) (symbol : SymbolInfo) : Prop :=
  s.scopes.ownLookup? s.scope name = some id ∧ s.scopes.symbol? id = some symbol

/-! ### Steps -/

/-- One step of a check. -/
inductive Step (env : Env) : Moment → Moment → Prop
  /-- An expression is formed. -/
  | form {s : State} :
      Formed env s events e → Step env ⟨s, events⟩ ⟨s, .formed e :: events⟩
  /-- A warning is reported. -/
  | warn {s : State} :
      d.isError = false → Step env ⟨s, events⟩ ⟨{ s with reports := s.reports.push d }, events⟩
  /-- An argument that has been reported is given to no parameter. -/
  | skip {s : State} :
      .formed arg ∈ events → arg.ty = .error →
      Step env ⟨s, events⟩ ⟨s, .passed target k arg :: events⟩
  /-- A parameter takes an argument. -/
  | pass {s : State} :
      .formed arg ∈ events →
      (env.plan.functions.getD target default).params[k]? = some p →
      s.found.Takes target k p.declared arg.ty found →
      Step env ⟨s, events⟩ ⟨{ s with found }, .passed target k arg :: events⟩
  /-- A value of the declared type is returned. -/
  | returnDeclared {s : State} :
      .formed value ∈ events → env.function.ret = some declared →
      declared.fits value.ty = true → Step env ⟨s, events⟩ ⟨s, .returned value :: events⟩
  /-- The type of a value that is returned is joined to those of others. -/
  | returnJoined {s : State} :
      .formed value ∈ events → env.function.ret = none →
      (s.found.function env.index).result.join value.ty = some joined →
      Step env ⟨s, events⟩
        ⟨{ s with found := s.found.setResult env.index joined }, .returned value :: events⟩
  /-- A slot is declared. -/
  | declare {s : State} :
      Known events ty → env.Binds ident.name → env.function.topLevel = false →
      Step env ⟨s, events⟩
        ⟨s.withSlot env ident ty, .assigned (.slot (s.newSlot ident.name)) ty :: events⟩
  /-- A parameter of the function itself is assigned to. -/
  | assignParam {s : State} :
      Known events ty → s.Own name i symbol → symbol.kind = .parameter →
      env.function.params.findIdx? (·.name == symbol.name) = some k →
      env.function.params[k]? = some p → s.found.Takes env.index k p.declared ty found →
      Step env ⟨s, events⟩
        ⟨s.withType found i symbol ty, .assigned (.slot symbol.slot) ty :: events⟩
  /-- A symbol that is no parameter of the function after all is assigned to. -/
  | assignOther {s : State} :
      Known events ty → s.Own name i symbol → symbol.kind = .parameter →
      env.function.params.findIdx? (·.name == symbol.name) = none →
      Step env ⟨s, events⟩
        ⟨s.withType s.found i symbol ty, .assigned (.slot symbol.slot) ty :: events⟩
  /-- A slot is assigned to. -/
  | assignSlot {s : State} :
      Known events ty → s.Own name i symbol → symbol.kind ≠ .parameter →
      ((s.found.slot? env.index symbol.slot).getD .unknown).join ty = some joined →
      Step env ⟨s, events⟩
        ⟨s.withType (s.found.setSlot env.index symbol.slot joined) i symbol ty,
          .assigned (.slot symbol.slot) ty :: events⟩
  /-- A global is assigned to. -/
  | assignGlobal {s : State} :
      Known events ty → env.Binds ident.name → env.function.topLevel = true →
      env.plan.callable? ident.name = none →
      ((s.found.global? ident.name).getD .unknown).join ty = some joined →
      Step env ⟨s, events⟩
        ⟨s.withGlobal env ident joined, .assigned (.global ident.name) ty :: events⟩
  /-- A scope is opened. -/
  | enter {s : State} :
      Step env ⟨s, events⟩
        ⟨{ s with scopes := s.scopes.push s.scope .block, scope := s.scopes.scopes.size },
          events⟩
  /-- A scope other than that of the module is gone back to. -/
  | leave {s : State} :
      0 < outer → Step env ⟨s, events⟩ ⟨{ s with scope := outer }, events⟩

/-- Any number of steps. -/
abbrev Steps (env : Env) : Moment → Moment → Prop :=
  Relation.ReflTransGen (Step env)

variable {env : Env}

theorem Env.Sound.index_lt (h : env.Sound) :
  env.index < env.plan.functions.length
  := (getElem?_eq_some_iff.mp h.function).1

/-- What each step keeps, any number of steps keeps. -/
theorem Steps.keep {P : Moment → Prop} (hstep : ∀ {m m'}, Step env m m' → P m → P m')
    (h : Steps env m m') (hm : P m) :
  P m'
  := by
  induction h with
  | refl => apply hm
  | tail _ h ih => apply hstep h ih

/-- What is noted stays noted. -/
theorem Step.events_subset (h : Step env m m') :
  m.events ⊆ m'.events
  := by
  cases h <;> simp

/-- What is noted stays noted. -/
theorem Steps.events_subset (h : Steps env m m') :
  m.events ⊆ m'.events
  := by
  induction h with
  | refl => apply List.Subset.refl
  | tail _ h ih => apply List.Subset.trans ih h.events_subset

/-- A scope other than that of the module is open. -/
def State.Inner (s : State) : Prop :=
  0 < s.scope ∧ 0 < s.scopes.scopes.size

/-- After a step a scope other than that of the module is open. -/
theorem Step.inner (h : Step env m m') (hm : m.state.Inner) :
  m'.state.Inner
  := by
  obtain ⟨hs, hn⟩ := hm
  cases h with
  | declare => simp [State.Inner, State.withSlot, Scopes.declare, hs, hn]
  | assignGlobal =>
    simp only [State.Inner, State.withGlobal]
    split <;> simp [Scopes.declare, Scopes.setType, hs, hn]
  | enter => simp [State.Inner, Scopes.push, hn]
  | leave h => simp [State.Inner, h, hn]
  | _ => simp [State.Inner, State.withType, Scopes.setType, hs, hn]

end Endmark.Typed

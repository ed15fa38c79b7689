import Endmark.Scope
import Endmark.Typed.Basic
import Endmark.Typed.Tables

/-!
# Bindings

A pass over a function keeps the scopes that are open, the slots it has declared, and the
types it has found.  Here names are bound to slots and globals; in the code outside of
functions all assignments bind globals.
-/

namespace Endmark.Typed

open Endmark.Tree (Ident)

/-- What stays the same while a function is checked. -/
structure Env where
  plan : Plan
  /-- What the pass before has found. -/
  prev : Tables
  index : Nat
  function : FunctionPlan
  /-- The names that the function assigns; there they never mean globals. -/
  assigned : List String

/-- What changes while a function is checked. -/
structure State where
  found : Tables
  reports : Array Diagnostic
  scopes : Scopes
  scope : Nat
  /-- How often each name has been declared again. -/
  again : List (String × Nat)
  /-- The slots other than the parameters, as they are declared. -/
  locals : List Local

/-- Checks a function with what the last pass found. -/
abbrev Check := ReaderT Env (StateM State)

namespace Check

def report (span : Span) (fault : Fault) : Check PUnit :=
  modify fun s => { s with reports := s.reports.push (fault.at span) }

/-- What a name means here. -/
def symbol? (name : String) : Check (Option SymbolInfo) := do
  let s ← get
  return (s.scopes.lookup? s.scope name).bind s.scopes.symbol?

/-- Declares a name in the innermost open scope. -/
def declare (name : String) (ty : Ty) (kind : SymbolInfo.Kind) (span : Span) (slot : String) :
    Check PUnit :=
  modify fun s => { s with scopes := s.scopes.declare s.scope name ty kind span slot }

/-- Runs a check with one more scope open. -/
def block {α : Type} (body : Check α) : Check α := do
  let outer := (← get).scope
  modify fun s =>
    { s with scopes := s.scopes.push outer .block, scope := s.scopes.scopes.size }
  let result ← body
  modify ({ · with scope := outer })
  return result

/-- A name for a slot that no other slot of the function has.  Names in a source hold no
point, so that a name and a number with a point between them are new. -/
def freshSlot (name : String) : Check String := do
  let s ← get
  match s.again.lookup name with
  | some count =>
    set { s with again := (name, count + 1) :: s.again }
    return s!"{name}.{count + 1}"
  | none =>
    set { s with again := (name, 0) :: s.again }
    return name

/-- Declares a variable of the function. -/
def declareSlot (ident : Ident) (ty : Ty) : Check Variable := do
  let env ← read
  let slot ← freshSlot ident.name
  declare ident.name (.refined (env.prev.slot? env.index slot) ty) .variable ident.span slot
  modify fun s =>
    { s with
      found := s.found.setSlot env.index slot ty
      locals := s.locals ++ [⟨slot, ident.name, ty, ident.span⟩] }
  return .slot slot

/-- Gives a parameter a value of a type.  An annotation stays as it is written. -/
def assignParam (name : String) (ty : Ty) : Check (Except Ty PUnit) := do
  let env ← read
  match env.function.params.findIdx? (·.name == name) with
  | none => return .ok ⟨⟩
  | some k =>
    match (env.function.params[k]?).bind (·.declared) with
    | some declared => return if declared.fits ty then .ok ⟨⟩ else .error declared
    | none =>
      let s ← get
      match ((s.found.param? env.index k).getD .unknown).absorb ty with
      | .ok joined =>
        set { s with found := s.found.setParam env.index k joined }
        return .ok ⟨⟩
      | .error held => return .error held

/-- Gives a slot a value of a type. -/
def assignSlot (slot : String) (ty : Ty) : Check (Except Ty PUnit) := do
  let env ← read
  let s ← get
  match ((s.found.slot? env.index slot).getD .unknown).absorb ty with
  | .ok joined =>
    set { s with found := s.found.setSlot env.index slot joined }
    return .ok ⟨⟩
  | .error held => return .error held

/-- Gives a name of the function a value of a type, and declares it when it is new. -/
def assignLocal (ident : Ident) (ty : Ty) : Check Variable := do
  let s ← get
  match s.scopes.ownLookup? s.scope ident.name with
  | none => declareSlot ident ty
  | some id =>
    match s.scopes.symbol? id with
    | none => declareSlot ident ty
    | some symbol =>
      let outcome ←
        if symbol.kind = .parameter then assignParam symbol.name ty
        else assignSlot symbol.slot ty
      match outcome with
      | .ok _ =>
        modify fun s =>
          { s with scopes := s.scopes.setType id ((symbol.ty.join ty).getD symbol.ty) }
      | .error held => report ident.span (.assigned ty ident.name held)
      return .slot symbol.slot

/-- Gives a global a value of a type. -/
def bindGlobal (ident : Ident) (ty : Ty) : Check Variable := do
  let env ← read
  let held := ((← get).found.global? ident.name).getD .unknown
  match held.absorb ty with
  | .ok joined => modify fun s => { s with found := s.found.setGlobal ident.name joined }
  | .error held => report ident.span (.assigned ty ident.name held)
  let s ← get
  let seen := Ty.refined (env.prev.global? ident.name)
    ((s.found.global? ident.name).getD .unknown)
  match s.scopes.lookup? 0 ident.name with
  | some id => set { s with scopes := s.scopes.setType id seen }
  | none =>
    set { s with
      scopes := s.scopes.declare 0 ident.name seen .global ident.span ident.name }
  return .global ident.name

/-- Gives a name a value of a type. -/
def assign (ident : Ident) (ty : Ty) : Check (Option Variable) := do
  let env ← read
  if (env.plan.callable? ident.name).isSome || (Builtin.find? ident.name).isSome then
    report ident.span (.assignedFunction ident.name)
    return none
  else if env.function.topLevel then
    return some (← bindGlobal ident ty)
  else
    return some (← assignLocal ident ty)

/-- The names that a raw block can use, in their order, and what they mean. -/
def snapshot : Check (List (String × Variable × Ty)) := do
  let s ← get
  let entries := (s.scopes.visible s.scope).filterMap fun (name, id) =>
    match s.scopes.symbol? id with
    | none => none
    | some symbol =>
      match symbol.kind with
      | .function => none
      | .global => some (name, Variable.global symbol.slot, symbol.ty)
      | .variable | .parameter => some (name, Variable.slot symbol.slot, symbol.ty)
  return entries.mergeSort fun a b => a.1 ≤ b.1

/-- A raw block with what its names mean here. -/
def rawBlock (raw : Tree.RawBlock) (span : Span) : Check Raw := do
  return ⟨raw.lang, raw.payload, span, ← snapshot⟩

end Check

end Endmark.Typed

import Endmark.Typed.Plan

/-!
# Tables of inferred types

What one pass over a program hands to the next: the types of parameters, results, slots and
globals.  A pass starts its own tables from the annotations and joins into them what it
meets.
-/

namespace Endmark

/-- The type of a place that held `held` and is given `ty` too, or what it holds when the two
do not agree. -/
def Ty.absorb (held ty : Ty) : Except Ty Ty :=
  match held.join ty with
  | some joined => .ok joined
  | none => .error held

/-- The type that reads see: what this pass has found, joined with what the pass before has
settled on when the two agree. -/
def Ty.refined (hint : Option Ty) (found : Ty) : Ty :=
  (hint.bind (·.join found)).getD found

namespace Typed

/-- The types found for a function.  Its slots are named uniquely. -/
structure FunctionTypes where
  params : List Ty
  result : Ty
  slots : List (String × Ty)
deriving DecidableEq, Repr, Inhabited

/-- The types found for the functions, in the order of the plan, and for the globals. -/
structure Tables where
  functions : List FunctionTypes
  globals : List (String × Ty)
deriving DecidableEq, Repr, Inhabited

/-- Sets the type for a name. -/
def putType (name : String) (ty : Ty) : List (String × Ty) → List (String × Ty)
  | [] => [(name, ty)]
  | entry :: rest => if entry.1 = name then (name, ty) :: rest else entry :: putType name ty rest

namespace Tables

/-- The tables before anything is found. -/
def initial (plan : Plan) : Tables where
  functions := plan.functions.map fun f =>
    ⟨f.params.map (·.declared.getD .unknown), f.ret.getD .unknown, []⟩
  globals := plan.globals.map fun g => (g.1, .unknown)

/-- What was found of a function. -/
def function (t : Tables) (index : Nat) : FunctionTypes :=
  t.functions.getD index default

/-- The type found for a parameter. -/
def param? (t : Tables) (index k : Nat) : Option Ty :=
  (t.function index).params[k]?

def slot? (t : Tables) (index : Nat) (name : String) : Option Ty :=
  (t.function index).slots.lookup name

def global? (t : Tables) (name : String) : Option Ty :=
  t.globals.lookup name

def setParam (t : Tables) (index k : Nat) (ty : Ty) : Tables :=
  { t with functions := t.functions.modify index fun f => { f with params := f.params.set k ty } }

def setResult (t : Tables) (index : Nat) (ty : Ty) : Tables :=
  { t with functions := t.functions.modify index fun f => { f with result := ty } }

def setSlot (t : Tables) (index : Nat) (name : String) (ty : Ty) : Tables :=
  { t with
    functions := t.functions.modify index fun f => { f with slots := putType name ty f.slots } }

def setGlobal (t : Tables) (name : String) (ty : Ty) : Tables :=
  { t with globals := putType name ty t.globals }

end Tables

end Typed

end Endmark

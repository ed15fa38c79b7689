import Endmark.Types.Basic

/-!
# Functions that every program has

They have no definition in a source: their calls are typed here, and each is lowered in its
own way.
-/

namespace Endmark.Builtin

/-- The functions that every program has. -/
inductive Kind where
  /-- Writes its arguments with spaces between them, and a line feed. -/
  | print
  /-- The length of a string or list. -/
  | len
  | str
  /-- The integer part of a number. -/
  | int
  | float
  /-- The integers up to a bound, from a start, with a step. -/
  | range
  /-- Ends the program with a status. -/
  | exit
deriving DecidableEq, Repr, Inhabited

end Endmark.Builtin

namespace Endmark

/-- A function that every program has, and how many arguments it takes; without a greatest
number it takes any further ones. -/
structure Builtin where
  name : String
  minArgs : Nat
  maxArgs : Option Nat
  kind : Builtin.Kind
deriving DecidableEq, Repr

namespace Builtin

def all : List Builtin :=
  [⟨"print", 0, none, .print⟩, ⟨"len", 1, some 1, .len⟩, ⟨"str", 1, some 1, .str⟩,
    ⟨"int", 1, some 1, .int⟩, ⟨"float", 1, some 1, .float⟩, ⟨"range", 1, some 3, .range⟩,
    ⟨"exit", 1, some 1, .exit⟩]

def find? (name : String) : Option Builtin :=
  all.find? (·.name == name)

/-- Does it take so many arguments? -/
def accepts (b : Builtin) (count : Nat) : Bool :=
  b.minArgs ≤ count && b.maxArgs.all (count ≤ ·)

/-- How reports speak of the number of arguments. -/
def arity (b : Builtin) : String :=
  match b.maxArgs with
  | some max => if max = b.minArgs then toString max else s!"{b.minArgs} to {max}"
  | none => s!"at least {b.minArgs}"

/-- Why a call is refused, with the type that is refused. -/
inductive Fault where
  | print (found : Ty)
  | len (found : Ty)
  | str
  | int (found : Ty)
  | float (found : Ty)
  | range (found : Ty)
  | exit (found : Ty)
deriving DecidableEq, Repr

def Fault.message : Fault → String
  | .print found => s!"cannot print a value of type `{found.render}`"
  | .len found => s!"`len` expects a str or list, found `{found.render}`"
  | .str => "`str` cannot convert a function"
  | .int found => s!"`int` expects a number, found `{found.render}`"
  | .float found => s!"`float` expects a number, found `{found.render}`"
  | .range found => s!"`range` expects int arguments, found `{found.render}`"
  | .exit found => s!"`exit` expects an int status, found `{found.render}`"

/-- The type of a call with arguments without faults, where `first` is the first one. -/
def Kind.resultOf (kind : Kind) (first : Ty) (args : List Ty) : Except Fault Ty :=
  match kind with
  | .print =>
    match args.find? (·.isFunction) with
    | some t => .error (.print t)
    | none => .ok .unknown
  | .len =>
    match first with
    | .str | .list _ | .unknown => .ok .int
    | t => .error (.len t)
  | .str => if first.isFunction then .error .str else .ok .str
  | .int =>
    match first with
    | .int | .float | .bool | .unknown => .ok .int
    | t => .error (.int t)
  | .float => if first.isNumeric then .ok .float else .error (.float first)
  | .range =>
    match args.find? fun t => !t.isInt with
    | some t => .error (.range t)
    | none => .ok (.list .int)
  | .exit => if first.isInt then .ok .unknown else .error (.exit first)

/-- The type of a call with as many arguments as are accepted.  A fault goes on. -/
def Kind.result (kind : Kind) (args : List Ty) : Except Fault Ty :=
  if args.any (·.isError) then .ok .error else kind.resultOf (args.headD .unknown) args

end Builtin

end Endmark

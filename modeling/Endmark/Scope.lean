import Endmark.Source.Span
import Endmark.Types.Basic

/-!
# Scopes

The scopes of a unit form a tree, numbered as they are opened, so that a scope has a smaller
number than those inside it.  A name means the symbol declared last under it in the nearest
scope that declares it.
-/

namespace Endmark

namespace Scope

/-- What opens a scope. -/
inductive Kind where
  | module
  | function
  | block
deriving DecidableEq, Repr, Inhabited

end Scope

namespace SymbolInfo

/-- What a name can be declared as. -/
inductive Kind where
  | variable
  | parameter
  | function
  | global
deriving DecidableEq, Repr, Inhabited

end SymbolInfo

/-- What is declared. -/
structure SymbolInfo where
  name : String
  ty : Ty
  /-- The number of scopes around the declaring one. -/
  depth : Nat
  kind : SymbolInfo.Kind
  span : Span
  /-- The name that is unique in its function. -/
  slot : String
deriving DecidableEq, Repr, Inhabited

/-- A scope: the names declared in it, the last one first, with the numbers of their
symbols. -/
structure Scope where
  kind : Scope.Kind
  parent : Option Nat
  names : List (String × Nat)
deriving DecidableEq, Repr, Inhabited

/-- The scopes of a unit and all symbols declared in them. -/
structure Scopes where
  scopes : Array Scope
  symbols : Array SymbolInfo
deriving Inhabited

namespace Scopes

/-- A tree with the scope of the module only, which has number zero. -/
def new : Scopes :=
  ⟨#[⟨.module, none, []⟩], #[]⟩

/-- The tree with one more scope, whose number is the former count. -/
def push (t : Scopes) (parent : Nat) (kind : Scope.Kind) : Scopes :=
  { t with scopes := t.scopes.push ⟨kind, some parent, []⟩ }

/-- The scopes from one outwards to that of the module, at most `fuel` of them. -/
def outwardsIn (t : Scopes) : Nat → Option Nat → List Scope
  | 0, _ | _, none => []
  | fuel + 1, some id =>
    match t.scopes[id]? with
    | some scope => scope :: outwardsIn t fuel scope.parent
    | none => []

/-- The scopes from one outwards to that of the module.  Numbers get smaller on the way, so
that there are at most as many as its own. -/
def outwards (t : Scopes) (id : Nat) : List Scope :=
  t.outwardsIn (id + 1) (some id)

/-- The number of scopes around one. -/
def depth (t : Scopes) (id : Nat) : Nat :=
  (t.outwards id).length - 1

/-- The tree with a name declared in a scope; the symbol's number is the former count. -/
def declare (t : Scopes) (scope : Nat) (name : String) (ty : Ty) (kind : SymbolInfo.Kind)
    (span : Span) (slot : String) : Scopes :=
  let id := t.symbols.size
  { scopes := t.scopes.modify scope fun s => { s with names := (name, id) :: s.names }
    symbols := t.symbols.push ⟨name, ty, t.depth scope, kind, span, slot⟩ }

/-- The number of the symbol that a name means in a scope. -/
def lookup? (t : Scopes) (scope : Nat) (name : String) : Option Nat :=
  (t.outwards scope).findSome? (·.names.lookup name)

/-- The scopes up to the first one of a function, or up to that of a module, which is left
out. -/
def withinFunction : List Scope → List Scope
  | [] => []
  | s :: rest =>
    match s.kind with
    | .module => []
    | .function => [s]
    | .block => s :: withinFunction rest

/-- The number of the symbol that a name means in a scope, if it is declared in the
enclosing function. -/
def ownLookup? (t : Scopes) (scope : Nat) (name : String) : Option Nat :=
  (withinFunction (t.outwards scope)).findSome? (·.names.lookup name)

def symbol? (t : Scopes) (id : Nat) : Option SymbolInfo :=
  t.symbols[id]?

/-- The tree with another type for a symbol. -/
def setType (t : Scopes) (id : Nat) (ty : Ty) : Scopes :=
  { t with symbols := t.symbols.modify id fun s => { s with ty } }

/-- Names with the first entry for each only. -/
def firstEntries : List (String × Nat) → List (String × Nat)
  | [] => []
  | entry :: rest => entry :: (firstEntries rest).filter (·.1 != entry.1)

/-- The names that can be used in a scope, and the numbers of their symbols. -/
def visible (t : Scopes) (scope : Nat) : List (String × Nat) :=
  firstEntries ((t.outwards scope).flatMap (·.names))

end Scopes

end Endmark

import Endmark.Ir.Basic
import Endmark.Text.Blank

/-!
# Reachable functions

A function is needed when a root is its name, or when a needed function calls it or names it
in raw text.
-/

namespace Endmark.Ir

/-- May the character stand in a word of raw text? -/
def isWordChar (c : Char) : Bool :=
  Text.isAlphanumeric c || c == '_' || c == '.'

/-- The words of a raw text. -/
def rawWords (text : String) : List String :=
  (Text.pieces (!isWordChar ·) text.toList).map String.ofList

/-- The names by which an instruction may mention functions. -/
def Instr.mentions : Instr → List String
  | .call _ callee _ => [callee]
  | .raw _ text _ => rawWords text
  | _ => []

/-- The function that a name means; of several the last. -/
def functionNamed? (functions : List Function) (name : String) : Option Function :=
  functions.reverse.find? (·.name == name)

/-- What the function of a name mentions. -/
def mentionedBy (functions : List Function) (name : String) : List String :=
  match functionNamed? functions name with
  | some f => f.body.flatMap Instr.mentions
  | none => []

/-- The names known to be needed, with those found from the names still to be looked at.
Each name of a function is looked at once. -/
def reachFrom (functions : List Function) : Nat → List String → List String → List String
  | 0, needed, _ => needed
  | fuel + 1, needed, pending =>
    let fresh := (pending.filter fun name =>
      !needed.contains name && (functionNamed? functions name).isSome).eraseDups
    if fresh.isEmpty then needed
    else reachFrom functions fuel (needed ++ fresh) (fresh.flatMap (mentionedBy functions))

/-- The names of the functions needed from the roots.  Every round but the last adds a name
of a function, so that one round more than there are functions is enough. -/
def reachable (functions : List Function) (roots : List String) : List String :=
  reachFrom functions (functions.length + 1) [] roots

/-- The functions that are reached from the roots. -/
def keepReached (functions : List Function) (roots : List String) : List Function :=
  let needed := reachable functions roots
  functions.filter fun f => needed.contains f.name

end Endmark.Ir

import Endmark.Code.Module
import Endmark.Routine.Table

/-!
# The layout of an image

Text units are functions, the routines they need, and the start of the program.  Each starts
at a multiple of sixteen behind the headers, and the data starts at a page of its own.
-/

namespace Endmark.Image

open Machine (Relocation)

/-- A piece of code under one name. -/
structure CodeUnit where
  name : String
  code : List UInt8
  relocations : List Relocation
deriving DecidableEq, Repr, Inhabited

/-- The least multiple of `step` that is not below `n`. -/
def alignUp (step n : Nat) : Nat :=
  (n + step - 1) / step * step

/-- Every unit starts at a multiple of this. -/
def textAlign : Nat := 16

def pageSize : Nat := 0x1000

def baseAddress : Nat := 0x400000

/-- The symbols that units refer to. -/
def references (units : List CodeUnit) : List String :=
  units.flatMap fun u => u.relocations.map (·.symbol)

def routineUnits : List CodeUnit :=
  Routine.all.filterMap fun r =>
    match Machine.assemble r.insts with
    | .ok a => some ⟨r.name, a.code, a.relocations⟩
    | .error _ => none

/-- The routines known to be needed, with those found from the symbols still to be looked
at. -/
def neededFrom (table : List CodeUnit) (defined : List String) :
    Nat → List CodeUnit → List String → List CodeUnit
  | 0, needed, _ => needed
  | fuel + 1, needed, symbols =>
    let fresh := table.filter fun r =>
      symbols.contains r.name && !defined.contains r.name && !needed.contains r
    if fresh.isEmpty then needed
    else neededFrom table defined fuel (needed ++ fresh) (references fresh)

/-- The routines that units need and do not define, in the order of their names.  Every round
but the last finds a routine, so that one round more than there are routines is enough. -/
def neededRoutines (units : List CodeUnit) : List CodeUnit :=
  let table := routineUnits
  let defined := units.map (·.name)
  let needed := neededFrom table defined (table.length + 1) [] (references units)
  table.filter needed.contains

/-- The units at their offsets, where the first one starts at `offset` or behind it. -/
def placeUnits : Nat → List CodeUnit → List (CodeUnit × Nat)
  | _, [] => []
  | offset, u :: rest =>
    let start := alignUp textAlign offset
    (u, start) :: placeUnits (start + u.code.length) rest

/-- The end of the last of placed units, or `start` when there are none. -/
def textEnd (start : Nat) (placed : List (CodeUnit × Nat)) : Nat :=
  match placed.getLast? with
  | some (u, offset) => offset + u.code.length
  | none => start

/-- The code of placed units from an offset on; gaps are filled with instructions that stop
the program. -/
def textFrom : Nat → List (CodeUnit × Nat) → List UInt8
  | _, [] => []
  | offset, (u, start) :: rest =>
    List.replicate (start - offset) 0xCC ++ u.code ++ textFrom (start + u.code.length) rest

end Endmark.Image

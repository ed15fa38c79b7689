import Endmark.Ir.Basic
import Endmark.Ir.Placeholder

/-!
# Live intervals

A variable is live before an instruction when some way on from there reads it before it is
written.  The interval of a variable covers all instructions at which it is live, read or
written; gaps between them are not told apart.
-/

namespace Endmark.Ir

/-- The variables that raw text stands for. -/
def Instr.rawVars : Instr → List String
  | .raw _ text _ => (placeholders text).filterMap fun
    | .var name => some name
    | .global _ => none
  | _ => []

/-- The variables that an instruction reads, those of raw text included. -/
def Instr.reads (i : Instr) : List String :=
  i.operands.filterMap (·.var?) ++ i.rawVars

/-- The variables that an instruction writes.  Raw text may write each one that it names. -/
def Instr.writes (i : Instr) : List String :=
  (i.dst?.bind (·.var?)).toList ++ i.rawVars

namespace Liveness

/-- The places of the labels of a body whose first instruction has the given number, the
last ones first. -/
def labelsFrom : Nat → List Instr → List (String × Nat)
  | _, [] => []
  | k, i :: rest =>
    let others := labelsFrom (k + 1) rest
    match i with
    | .label name => others ++ [(name, k)]
    | _ => others

/-- Where control may go from the instruction with a given number, in a body of `count`
instructions. -/
def successors (labels : List (String × Nat)) (count k : Nat) (i : Instr) : List Nat :=
  if i.isTerminator then i.targets.filterMap fun t => labels.lookup t
  else if k + 1 < count then [k + 1]
  else []

/-- What an instruction does to the flow of values: what it reads and writes, and where
control goes. -/
structure Flow where
  reads : List String
  writes : List String
  successors : List Nat
deriving Inhabited

/-- What each instruction of a body reads, writes and leads to. -/
def flow (body : List Instr) : List Flow :=
  let labels := labelsFrom 0 body
  body.zipIdx.map fun (i, k) => ⟨i.reads, i.writes, successors labels body.length k i⟩

/-- How a variable fares at one instruction: whether it is read, whether it is written, and
where control goes. -/
structure Fate where
  read : Bool
  written : Bool
  successors : List Nat
deriving Inhabited

/-- How a variable fares at each instruction. -/
def fates (flow : List Flow) (var : String) : Array Fate :=
  (flow.map fun f => ⟨f.reads.contains var, f.writes.contains var, f.successors⟩).toArray

/-- Is a variable live behind an instruction, given where it is live before one? -/
def liveBehind (live : Array Bool) (fate : Fate) : Bool :=
  fate.successors.any fun k => live.getD k false

/-- Is a variable live before an instruction, given where it is live before one? -/
def liveBefore (live : Array Bool) (fate : Fate) : Bool :=
  fate.read || (!fate.written && liveBehind live fate)

/-- Where the variable is live before an instruction, found from what is known by going
backwards over the first instructions once. -/
def sweep (fates : Array Fate) : Nat → Array Bool → Array Bool
  | 0, live => live
  | k + 1, live =>
    sweep fates k (live.setIfInBounds k (liveBefore live (fates.getD k default)))

/-- Sweeps until nothing changes.  Each one but the last finds one more place, so that one
more than there are instructions is enough. -/
def settle (fates : Array Fate) : Nat → Array Bool → Array Bool
  | 0, live => live
  | fuel + 1, live =>
    let next := sweep fates fates.size live
    if next = live then live else settle fates fuel next

/-- Where a variable is live before an instruction. -/
def live (fates : Array Fate) : Array Bool :=
  settle fates (fates.size + 1) (Array.replicate fates.size false)

end Liveness

/-- The positions from the first to the last at which a variable is needed.  Parameters are
written at position zero, and the instruction with number `k` stands at position `k + 1`. -/
structure Interval where
  var : String
  start : Nat
  stop : Nat
deriving DecidableEq, Repr, Inhabited

namespace Liveness

/-- The numbers of the instructions that need a variable: that read or write it, or before or
behind which it is live. -/
def needs (fates : Array Fate) : List Nat :=
  let live := live fates
  (List.range fates.size).filter fun k =>
    let fate := fates.getD k default
    fate.read || fate.written || live.getD k false || liveBehind live fate

/-- The interval from the first to the last of ascending positions. -/
def hull? (var : String) (positions : List Nat) : Option Interval :=
  match positions.head?, positions.getLast? with
  | some start, some stop => some ⟨var, start, stop⟩
  | _, _ => none

/-- Does an interval come before another: by its start, then its end, then its variable? -/
def before (a b : Interval) : Bool :=
  a.start < b.start || (a.start == b.start &&
    (a.stop < b.stop || (a.stop == b.stop && decide (a.var ≤ b.var))))

end Liveness

open Liveness in
/-- From where to where each variable is live, by the start. -/
def liveIntervals (f : Function) : List Interval :=
  let flow := flow f.body
  let params := f.params.map (·.name)
  let vars := (params ++ flow.flatMap fun x => x.reads ++ x.writes).eraseDups
  let interval? (var : String) :=
    hull? var ((if params.contains var then [0] else []) ++ (needs (fates flow var)).map (· + 1))
  (vars.filterMap interval?).mergeSort before

end Endmark.Ir

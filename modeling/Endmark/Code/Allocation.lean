import Endmark.Ir.Liveness
import Endmark.Machine.Register

/-!
# Allocation of registers

Intervals are looked at in the order of their starts.  When no register is free, the
interval that ends last is kept in the frame.  Only registers that a call leaves as they are
are handed out.
-/

namespace Endmark.Code

open Machine (Reg)
open Ir (Interval)

/-- Where a variable is kept: in a register, or in a slot of the frame. -/
inductive Location where
  | reg (r : Reg)
  | slot (index : Nat)
deriving DecidableEq, Repr, Inhabited

/-- The places of the variables of a function. -/
structure Allocation where
  locations : List (String × Location)
  /-- The registers that are handed out. -/
  saved : List Reg
  slots : Nat
deriving DecidableEq, Repr, Inhabited

/-- Where a variable is kept. -/
def Allocation.location? (a : Allocation) (var : String) : Option Location :=
  a.locations.lookup var

namespace Allocation

/-- The registers that are handed out unless others are asked for, the preferred ones
first. -/
def registers : List Reg :=
  [.rbx, .r12, .r13, .r14, .r15]

/-- An interval whose variable is in a register. -/
structure Holding where
  stop : Nat
  var : String
  reg : Reg
deriving DecidableEq, Repr, Inhabited

/-- What is known while intervals are looked at. -/
structure Scan where
  locations : List (String × Location)
  free : List Reg
  active : List Holding
  slots : Nat
  used : List Reg

/-- Sets the location of a variable. -/
def put (var : String) (loc : Location) : List (String × Location) → List (String × Location)
  | [] => [(var, loc)]
  | entry :: rest => if entry.1 = var then (var, loc) :: rest else entry :: put var loc rest

/-- The scan with the registers of intervals that end before a position free again. -/
def Scan.expire (regs : List Reg) (start : Nat) (s : Scan) : Scan :=
  let ended := s.active.filter (·.stop < start)
  { s with
    active := s.active.filter (!·.stop < start)
    free := (s.free ++ ended.map (·.reg)).mergeSort fun a b => regs.idxOf a ≤ regs.idxOf b }

/-- Of two holdings the one that ends last; of two that end together the one whose variable
comes last. -/
def later (a b : Holding) : Holding :=
  if a.stop < b.stop || (a.stop == b.stop && decide (a.var ≤ b.var)) then b else a

/-- The holding that ends last. -/
def last? : List Holding → Option Holding
  | [] => none
  | h :: rest => some (rest.foldl later h)

/-- Gives a register to an interval. -/
def Scan.hold (s : Scan) (i : Interval) (r : Reg) : Scan :=
  { s with
    locations := put i.var (.reg r) s.locations
    active := s.active ++ [⟨i.stop, i.var, r⟩] }

/-- The scan with a variable in a new slot. -/
def Scan.spill (s : Scan) (var : String) : Scan :=
  { s with locations := put var (.slot s.slots) s.locations, slots := s.slots + 1 }

/-- Places an interval, in a register if one is free. -/
def Scan.place (regs : List Reg) (s : Scan) (i : Interval) : Scan :=
  let s := s.expire regs i.start
  match s.free with
  | r :: free => { s with free, used := r :: s.used }.hold i r
  | [] =>
    match last? s.active with
    | none => s.spill i.var
    | some h =>
      if h.stop > i.stop then
        ({ s with active := s.active.erase h }.spill h.var).hold i h.reg
      else
        s.spill i.var

/-- The linear scan over intervals by their starts. -/
def ofIntervals (regs : List Reg) (intervals : List Interval) : Allocation :=
  let s := intervals.foldl (Scan.place regs) ⟨[], regs, [], 0, []⟩
  ⟨s.locations, regs.filter s.used.contains, s.slots⟩

/-- The places of the variables of a function, with registers of the given ones. -/
def ofFunction (regs : List Reg) (f : Ir.Function) : Allocation :=
  ofIntervals regs (Ir.liveIntervals f)

end Allocation

end Endmark.Code

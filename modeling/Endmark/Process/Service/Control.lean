import Endmark.Process.Service.Files

/-!
# Signals, time and identity

A program can end itself, by a signal among other means, and ask who it is and what time it is.
It is the only one here, it may do all, and its time stands still.
-/

namespace Endmark.Process.Service

open Machine (wordBytes)

def ownId : Nat := 1001

/-- The number of the program that has started this one. -/
def parentId : Nat := 1000

/-- How urgent programs are unless something else is asked for. -/
def usualPriority : UInt64 := 20

/-! ### Signals -/

def maxSignal : Nat := 64

/-- The signals that cannot be held back or ignored. -/
def strictSignals : List Nat :=
  [9, 19]

/-- The signals that do nothing unless something else is asked for. -/
def quietSignals : List Nat :=
  [17, 18, 23, 28]

/-- The size of what says what is to be done on a signal. -/
def actionSize : Nat := 32

def actionFor (w : World) (signal : Nat) : List UInt8 :=
  (w.actions.lookup signal).getD (List.replicate actionSize 0)

/-- Does a signal have no effect on the program? -/
def isHarmless (w : World) (signal : Nat) : Bool :=
  signal = 0 || (!strictSignals.contains signal &&
    ((actionFor w signal).take 8 == wordBytes 1 ||
      hasBits (w.held >>> UInt64.ofNat (signal - 1)) 1 ||
      (quietSignals.contains signal && (actionFor w signal).take 8 == wordBytes 0)))

/-- Sends a signal to the program itself. -/
def signalSelf (signal : UInt64) : Service UInt64 := do
  if isHarmless (← getWorld) (number signal) then return 0 else finish .killed

/-- Sends a signal, which can reach only the program itself. -/
def signal (target signal : UInt64) : Service UInt64 := do
  if maxSignal < number signal then
    refuse .badArgument
  if short target = ownId || short target = 0 || short target = -ownId then signalSelf signal
  else refuse .noProcess

def signalThread (target signal : UInt64) : Service UInt64 := do
  if short target ≤ 0 || maxSignal < number signal then
    refuse .badArgument
  if short target = ownId then signalSelf signal else refuse .noProcess

/-- Says what is to be done on a signal; stores what was to be done before. -/
def setAction (signal action before size : UInt64) : Service UInt64 := do
  if size ≠ 8 then
    refuse .badArgument
  let new ← if action = 0 then pure [] else load action actionSize
  let n := number signal
  if n = 0 || maxSignal < n || (action ≠ 0 && strictSignals.contains n) then
    refuse .badArgument
  let old := actionFor (← getWorld) n
  if action ≠ 0 then
    changeWorld fun w => { w with actions := (n, new) :: w.actions.filter (·.1 != n) }
  storeUnlessNull before old
  return 0

/-- Says which signals are held back; stores those from before. -/
def setHeld (how set before size : UInt64) : Service UInt64 := do
  if size ≠ 8 then
    refuse .badArgument
  let old := (← getWorld).held
  if set ≠ 0 then
    let bits ← loadWord set
    let held ← match number how with
      | 0 => pure (old ||| bits)
      | 1 => pure (old &&& bits.complement)
      | 2 => pure bits
      | _ => refuse .badArgument
    changeWorld ({ · with held })
  storeUnlessNull before (wordBytes old)
  return 0

/-! ### Time -/

def now : UInt64 := 1700000000

/-- Stores the time in seconds, if it is to be stored; gives it. -/
def time (target : UInt64) : Service UInt64 := do
  storeUnlessNull target (wordBytes now)
  return now

/-- Stores the time and the zone, if they are to be stored. -/
def timeOfDay (target zone : UInt64) : Service UInt64 := do
  storeUnlessNull target ((wordBytes now) ++ wordBytes 0)
  storeUnlessNull zone (List.replicate 8 0)
  return 0

def clock (which target : UInt64) : Service UInt64 := do
  if 11 < number which then
    refuse .badArgument
  storeWords target [now, 0]
  return 0

def clockStep (which target : UInt64) : Service UInt64 := do
  if 11 < number which then
    refuse .badArgument
  storeUnlessNull target (wordBytes 0 ++ wordBytes 1)
  return 0

/-- Waits for a time, which passes at once. -/
def sleep (request : UInt64) : Service UInt64 := do
  let seconds ← loadWord request
  let nanoseconds ← loadWord (request + 8)
  if long seconds < 0 || 1000000000 ≤ nanoseconds.toNat then refuse .badArgument
  else return 0

/-! ### Others -/

/-- Stores bytes that nobody can know. -/
def random (target size bits : UInt64) : Service UInt64 := do
  if !onlyBits bits 7 || bits &&& 6 == 6 then
    refuse .badArgument
  let count := min size.toNat maxTransfer
  check [(target, count)]
  let (stored, memory) := storeFrom (← getMemory) target 0 (List.replicate count 0x5A)
  setMemory memory
  if stored = 0 && count ≠ 0 then refuse .badAddress else return UInt64.ofNat stored

def names (target : UInt64) : Service UInt64 := do
  let padded (text : String) : List UInt8 :=
    Text.bytes text ++ List.replicate (65 - text.length) 0
  store target (["Linux", "localhost", "6.1.0", "#1 SMP", "x86_64", "(none)"].flatMap padded)
  return 0

def workingFolder (target size : UInt64) : Service UInt64 := do
  let text := Text.bytes ("/" ++ Path.render ("work" :: (← getWorld).here)) ++ [0]
  if size.toNat < text.length then
    refuse .noRoom
  store target text
  return UInt64.ofNat text.length

end Endmark.Process.Service

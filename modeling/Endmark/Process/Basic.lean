import Endmark.Image.Link
import Endmark.Process.Code
import Endmark.Process.World

/-!
# Processes

A program in memory, the machine that runs it, and its world.  What a program asks the system
for is a service; a service is given or refused, or it ends the program.
-/

namespace Endmark

open Machine (Memory State wordBytes withBytes?)

/-- A process that runs, with all that it can change. -/
structure Process where
  state : State Process.Pages
  next : UInt64
  world : Process.World
  /-- The instructions of its text, as long as that does not change. -/
  code : Process.Code

namespace Process

/-- How a process ends. -/
inductive End where
  | exited (status : Nat)
  /-- It was stopped by a signal. -/
  | killed
deriving DecidableEq, Repr

/-- A program that has ended, and what is left of its world. -/
structure Finished where
  ending : End
  world : World

/-! ### The start -/

def stackTop : Nat := 0x7FFFFFFFF000

def stackSize : Nat := 0x800000

/-- The memory of a program that starts: its text, its data and its stack. -/
def memoryOf (image : Image) : Pages :=
  let base := Image.baseAddress / pageSize
  let text := Pages.empty.mapBytes base image.text.toByteArray { write := false, execute := true }
  let data := text.mapBytes (base + image.dataOffset / pageSize) image.data.toByteArray {}
  data.map ⟨(stackTop - stackSize) / pageSize, stackSize / pageSize, {}⟩

/-- Where the heap of a program starts: on the page after its data. -/
def heapOf (image : Image) : Nat :=
  Image.baseAddress + pageCount (image.dataOffset + image.data.length) * pageSize

/-- What is on the stack when a program starts, and the address of it: the number of its
arguments, of which its name is the only one, where that is, and no more. -/
def startStack (name : String) : Nat × List UInt8 :=
  let text := Text.bytes name ++ [0]
  let nameAt := stackTop - 8 - text.length
  let top := (nameAt - 64) / 16 * 16
  let words := wordBytes 1 ++ wordBytes (UInt64.ofNat nameAt)
  (top, words ++ List.replicate (nameAt - top - words.length) 0 ++ text)

/-- The process of an image before its first instruction. -/
def start (image : Image) (name : String) (program : Path) (folder : Folder)
    (input : List UInt8) : Process :=
  let (top, bytes) := startStack name
  let memory := memoryOf image
  let memory := (withBytes? Pages.store? memory (UInt64.ofNat top) bytes).getD memory
  { state := ⟨{ rsp := UInt64.ofNat top }, Vector.replicate 16 0, {}, memory⟩
    next := UInt64.ofNat image.entry
    world := .start folder program input (heapOf image)
    code := .ofText Image.baseAddress image.text }

/-! ### Services -/

/-- Why a service gives no result. -/
inductive Stop where
  | refused (fault : Fault)
  | ended (ending : End)
deriving DecidableEq, Repr

/-- A service of the system, which may refuse or end the process. -/
abbrev Service := ExceptT Stop (StateM Process)

namespace Service

def refuse {α : Type} (fault : Fault) : Service α :=
  throw (.refused fault)

def finish {α : Type} (ending : End) : Service α :=
  throw (.ended ending)

def files {α : Type} : Except Folder.Fault α → Service α
  | .ok a => return a
  | .error fault => refuse (.files fault)

def getWorld : Service World :=
  return (← get).world

def changeWorld (f : World → World) : Service PUnit :=
  modify fun p => { p with world := f p.world }

def getMemory : Service Pages :=
  return (← get).state.memory

/-- Replaces the memory of the program, where the same pages are mapped. -/
def setMemory (memory : Pages) : Service PUnit :=
  modify fun p => { p with state := { p.state with memory } }

/-- Replaces the memory of the program, where pages from one number up to another may be mapped
in another way. -/
def remap (first stop : Nat) (memory : Pages) : Service PUnit := do
  setMemory memory
  modify fun p => { p with code := if p.code.isOn first stop then .empty else p.code }

/-! ### Arguments -/

/-- An argument as an unsigned `int`. -/
def number (a : UInt64) : Nat :=
  a.toUInt32.toNat

/-- An argument as an `int`. -/
def short (a : UInt64) : Int :=
  a.toUInt32.toInt32.toInt

/-- An argument as a `long`. -/
def long (a : UInt64) : Int :=
  a.toInt64.toInt

def hasBits (a bits : UInt64) : Bool :=
  a &&& bits != 0

/-- Are no other bits set in the lower half of a word? -/
def onlyBits (a bits : UInt64) : Bool :=
  a.toUInt32.toUInt64 &&& bits.complement == 0

/-! ### Memory -/

/-- The address above all those that a program can use. -/
def userLimit : Nat := 0x7FFFFFFFF000

/-- Bytes from an address on, at most so many and as far as they may be loaded, the last one
first and others after them. -/
def loadOnto (m : Pages) : Nat → UInt64 → List UInt8 → List UInt8
  | 0, _, sofar => sofar
  | n + 1, a, sofar =>
    match m.load? a with
    | some b => loadOnto m n (a + 1) (b :: sofar)
    | none => sofar

/-- Bytes from an address on, at most so many and as far as they may be loaded. -/
def loadable (m : Pages) (a : UInt64) (count : Nat) : List UInt8 :=
  (loadOnto m count a []).reverse

/-- Stores bytes from an address on as far as that may be done; counts them. -/
def storeFrom (m : Pages) (a : UInt64) (count : Nat) : List UInt8 → Nat × Pages
  | [] => (count, m)
  | b :: rest =>
    match m.store? a b with
    | some m => storeFrom m (a + 1) (count + 1) rest
    | none => (count, m)

/-- The bytes at an address, all of which must be readable. -/
def load (a : UInt64) (count : Nat) : Service (List UInt8) := do
  let bytes := loadable (← getMemory) a count
  if bytes.length < count then refuse .badAddress else return bytes

def loadWord (a : UInt64) : Service UInt64 := do
  match Memory.loadWord? (← getMemory) a with
  | some v => return v
  | none => refuse .badAddress

/-- Stores bytes, up to the first that cannot be. -/
def store (a : UInt64) (bytes : List UInt8) : Service PUnit := do
  let (count, memory) := storeFrom (← getMemory) a 0 bytes
  setMemory memory
  if count < bytes.length then
    refuse .badAddress

def storeWords (a : UInt64) (words : List UInt64) : Service PUnit :=
  store a (words.flatMap wordBytes)

def storeUnlessNull (a : UInt64) (bytes : List UInt8) : Service PUnit :=
  if a = 0 then return ⟨⟩ else store a bytes

/-- The bytes from an address on up to a zero, at most so many of them. -/
def textFrom (m : Pages) : Nat → UInt64 → List UInt8 → Except Fault (List UInt8)
  | 0, _, _ => .error (.files .nameTooLong)
  | n + 1, a, sofar =>
    match m.load? a with
    | none => .error .badAddress
    | some 0 => .ok sofar.reverse
    | some b => textFrom m n (a + 1) (b :: sofar)

/-- The text at an address, up to its zero byte. -/
def textAt (a : UInt64) : Service String := do
  match textFrom (← getMemory) Folder.maxPath a [] with
  | .error fault => refuse fault
  | .ok bytes =>
    match Text.ofBytes? bytes with
    | some text => return text
    | none => refuse (.files .missing)

/-- The path that is written from an address on, which is not empty. -/
def pathAt (a : UInt64) : Service String := do
  let text ← textAt a
  if text.isEmpty then refuse (.files .missing) else return text

end Service

end Process

end Endmark

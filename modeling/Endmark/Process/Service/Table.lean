import Endmark.Process.Service.Memory
import Endmark.Process.Service.Names
import Endmark.Process.Service.Control

/-!
# The table of services

A program says by the number in `rax` which service it wants; what the service needs to know is
in other registers.
-/

namespace Endmark.Process.Service

def exit (status : UInt64) : Service UInt64 :=
  finish (.exited (status.toNat % 256))

def piece (address size : UInt64) : Service (List Piece) :=
  return [(address, size.toNat)]

/-- The services for open files, by their numbers. -/
def forFiles? (a b c d : UInt64) : Nat → Option (Service UInt64)
  | 0 => some (read a (piece b c) none)
  | 1 => some (write a (piece b c) none)
  | 2 => some (openAt fromHere a b c)
  | 3 => some (close a)
  | 8 => some (seek a b c)
  | 16 => some (command a b c)
  | 17 => some (read a (piece b c) (some d))
  | 18 => some (write a (piece b c) (some d))
  | 19 => some (read a (piecesAt b c) none)
  | 20 => some (write a (piecesAt b c) none)
  | 22 => some (pipe a 0)
  | 32 => some (duplicate a)
  | 33 => some (renumber a b)
  | 42 | 43 | 44 | 45 | 46 | 47 | 48 | 49 | 50 | 51 | 52 | 54 | 55 => some (connection a)
  | 72 => some (control a b c)
  | 74 | 75 => some (flush a)
  | 76 => some (resizeAt a b)
  | 77 => some (resize a b)
  | 85 => some (openAt fromHere a 0x241 b)
  | 162 => some (return 0)
  | 257 => some (openAt a b c d)
  | 292 => some (renumberOther a b c)
  | 293 => some (pipe a b)
  | _ => none

/-- The services for names of files. -/
def forNames? (a b c d : UInt64) : Nat → Option (Service UInt64)
  | 4 | 6 => some (propertiesAt fromHere a b)
  | 5 => some (properties a b)
  | 21 => some (permitted fromHere a b)
  | 59 => some (startAt a)
  | 79 => some (workingFolder a b)
  | 80 => some (enterAt a)
  | 81 => some (enterOpen a)
  | 82 => some (renameAt a b)
  | 83 => some (makeFolderAt fromHere a)
  | 84 => some (removeAt fromHere a 0x200)
  | 87 => some (removeAt fromHere a 0)
  | 89 => some (linkAt a c)
  | 90 => some (setRightsAt a b)
  | 91 => some (setRights a b)
  | 95 => some (setMask a)
  | 258 => some (makeFolderAt a b)
  | 262 => some (propertiesAt a b c)
  | 263 => if onlyBits c 0x200 then some (removeAt a b c) else some (refuse .badArgument)
  | 269 => some (permitted a b c)
  | 439 => if onlyBits d 0x1300 then some (permitted a b c) else some (refuse .badArgument)
  | _ => none

/-- The services for memory. -/
def forMemory? (a b c d e f : UInt64) : Nat → Option (Service UInt64)
  | 9 => some (map a b c d e f)
  | 10 => some (protect a b c)
  | 11 => some (unmap a b)
  | 12 => some (setHeap a)
  | 26 => some (keep a b c)
  | 28 => some (advise a b c)
  | 149 | 150 => some (pin a b)
  | _ => none

/-- The services for the process itself. -/
def forControl? (a b c d : UInt64) : Nat → Option (Service UInt64)
  | 13 => some (setAction a b c d)
  | 14 => some (setHeld a b c d)
  | 24 | 37 | 102 | 104 | 105 | 106 | 107 | 108 | 113 | 114 | 117 | 119 | 122 | 123 | 135 | 141 |
    145 => some (return 0)
  | 35 => some (sleep a)
  | 39 | 186 | 218 => some (return UInt64.ofNat ownId)
  | 60 | 231 => some (exit a)
  | 61 => some (refuse .noChild)
  | 62 => some (signal a b)
  | 63 => some (names a)
  | 96 => some (timeOfDay a b)
  | 110 | 111 | 121 | 124 => some (return UInt64.ofNat parentId)
  | 140 => some (return usualPriority)
  | 200 => some (signalThread a b)
  | 201 => some (time a)
  | 228 => some (clock a b)
  | 229 => some (clockStep a b)
  | 230 => some (sleep c)
  | 234 => some (signalThread b c)
  | 318 => some (random a b c)
  | _ => none

/-- The service that the registers ask for. -/
def ofRegisters (regs : Machine.Regs) : Service UInt64 :=
  let n := number regs.rax
  let ⟨a, b, c, d, e, f⟩ := (regs.rdi, regs.rsi, regs.rdx, regs.r10, regs.r8, regs.r9)
  let found := forFiles? a b c d n <|> forNames? a b c d n <|> forMemory? a b c d e f n <|>
    forControl? a b c d n
  found.getD (refuse .noService)

end Endmark.Process.Service

import Endmark.Folder.Basic

/-!
# Faults of services

Why the system refuses what a program asks for.  A refusal has a number, and the program gets
the negative of it.
-/

namespace Endmark.Process

/-- Why a service is refused. -/
inductive Fault where
  | files (fault : Folder.Fault)
  | notPermitted
  | noProcess
  | noPlace
  | notProgram
  | badFile
  | noChild
  | outOfMemory
  | denied
  | badAddress
  | noDevice
  | badArgument
  | tooManyFiles
  | notTerminal
  | running
  | cannotSeek
  | noReader
  | noRoom
  | noService
  | notSocket
deriving DecidableEq, Repr

namespace Fault

def code : Fault → Nat
  | files fault => fault.code
  | notPermitted => 1
  | noProcess => 3
  | noPlace => 6
  | notProgram => 8
  | badFile => 9
  | noChild => 10
  | outOfMemory => 12
  | denied => 13
  | badAddress => 14
  | noDevice => 19
  | badArgument => 22
  | tooManyFiles => 24
  | notTerminal => 25
  | running => 26
  | cannotSeek => 29
  | noReader => 32
  | noRoom => 34
  | noService => 38
  | notSocket => 88

def result (f : Fault) : UInt64 :=
  0 - f.code.toUInt64

end Fault

end Endmark.Process

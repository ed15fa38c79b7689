import Endmark.Machine.Step
import Endmark.Process.Service.Table

/-!
# Running a process

A process goes from one instruction to the next one until it ends itself or does what it must
not do.
-/

namespace Endmark.Process

/-- The process after a service: the result is in `rax`, and two registers hold where it goes on
and the flags. -/
def answer (p : Process) (result : UInt64) : Process :=
  let s := p.state
  { p with state := ((s.set .rax result).set .rcx p.next).set .r11 s.flags.word }

/-- The process after the service that it asks for, or its end. -/
def serve (p : Process) : Except Finished Process :=
  match (ExceptT.run (Service.ofRegisters p.state.regs)).run p with
  | (.ok result, p) => .ok (p.answer result)
  | (.error (.refused fault), p) => .ok (p.answer fault.result)
  | (.error (.ended ending), p) => .error ⟨ending, p.world⟩

/-- The instruction at an address, from those decoded before or from memory. -/
def instAt (code : Code) (m : Pages) (a : UInt64) : Option (Machine.Inst Int × UInt64) :=
  match code.find? a with
  | some found => found
  | none => decodeSized? (m.fetch a maxInstSize)

/-- The process after its next instruction, or its end. -/
def step (p : Process) : Except Finished Process :=
  match p with
  | ⟨state, next, world, code⟩ =>
    match instAt code state.memory next with
    | none => .error ⟨.killed, world⟩
    | some (inst, size) =>
      let after := next + size
      let target (distance : Int) : UInt64 := after + (Int64.ofInt distance).toUInt64
      match inst.exec target state with
      | .error _ => .error ⟨.killed, world⟩
      | .ok (state, .next) => .ok ⟨state, after, world, code⟩
      | .ok (state, .jump t) => .ok ⟨state, target t, world, code⟩
      | .ok (state, .call t) =>
        match state.push after with
        | .ok state => .ok ⟨state, target t, world, code⟩
        | .error _ => .error ⟨.killed, world⟩
      | .ok (state, .ret) =>
        match state.pop with
        | .ok (back, state) => .ok ⟨state, back, world, code⟩
        | .error _ => .error ⟨.killed, world⟩
      | .ok (state, .syscall) => serve ⟨state, after, world, code⟩

/-- Runs a program for some number of instructions at most; then it is stopped. -/
def run : Nat → Process → Finished
  | 0, p => ⟨.killed, p.world⟩
  | limit + 1, p =>
    match p.step with
    | .ok p => run limit p
    | .error finished => finished

end Endmark.Process

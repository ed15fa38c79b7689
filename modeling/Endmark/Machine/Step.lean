import Endmark.Machine.Arithmetic

/-!
# The meaning of instructions

What an instruction does to the state, and where control goes after it.  Jumps, calls and
returns leave it to their callers to know what a target is.
-/

namespace Endmark.Machine

open Number (Binary64)

/-- Where control goes after an instruction. -/
inductive Flow (σ : Type) where
  | next
  | jump (target : σ)
  | call (target : σ)
  | ret
  | syscall
deriving DecidableEq, Repr

variable {μ σ : Type}

def State.settle (s : State μ) (dst : Reg) : Option UInt64 × Flags → State μ
  | (some v, f) => (s.set dst v).setFlags f
  | (none, f) => s.setFlags f

/-- The state with only the lowest byte of a register set. -/
def State.setLowByte (s : State μ) (dst : Reg) (v : UInt64) : State μ :=
  s.set dst ((s.get dst &&& (0xFF : UInt64).complement) ||| v)

/-- What an operation on one register does. -/
def UnaryOp.exec (op : UnaryOp) (r : Reg) (s : State μ) : Except Trap (State μ) :=
  let v := s.get r
  match op with
  | not => .ok (s.set r v.complement)
  | neg => .ok ((s.set r (0 - v)).setFlags (.ofSub 0 v))
  | inc => .ok ((s.set r (v + 1)).setFlags { Flags.ofAdd v 1 with carry := s.flags.carry })
  | dec => .ok ((s.set r (v - 1)).setFlags { Flags.ofSub v 1 with carry := s.flags.carry })
  | mul =>
    let (high, low) := wideProduct (s.get .rax) v
    .ok (((s.set .rax low).set .rdx high).setFlags (.ofProduct low (high != 0)))
  | div =>
    match divide? (s.get .rdx) (s.get .rax) v with
    | some (quotient, remainder) => .ok ((s.set .rax quotient).set .rdx remainder)
    | none => .error .division
  | idiv =>
    match divideSigned? (s.get .rdx) (s.get .rax) v with
    | some (quotient, remainder) => .ok ((s.set .rax quotient).set .rdx remainder)
    | none => .error .division

variable [Memory μ]

/-- Stores the lowest byte of a register at `rdi` and goes on, as often as said. -/
@[specialize]
def State.fill : Nat → State μ → Except Trap (State μ)
  | 0, s => .ok s
  | n + 1, s => do
    let target := s.get .rdi
    let s ← s.storeByte target (s.get .rax).toUInt8
    fill n ((s.set .rdi (target + 1)).set .rcx (s.get .rcx - 1))

/-- Copies the byte at `rsi` to `rdi` and goes on, as often as said. -/
@[specialize]
def State.copy : Nat → State μ → Except Trap (State μ)
  | 0, s => .ok s
  | n + 1, s => do
    let source := s.get .rsi
    let target := s.get .rdi
    let b ← s.loadByte source
    let s ← s.storeByte target b
    copy n (((s.set .rdi (target + 1)).set .rsi (source + 1)).set .rcx (s.get .rcx - 1))

/-- The meaning of an instruction, where `place` gives the addresses of targets. -/
@[specialize]
def Inst.exec (place : σ → UInt64) (i : Inst σ) (s : State μ) : Except Trap (State μ × Flow σ) :=
  match i with
  | label _ | nop => .ok (s, .next)
  | mov dst src => .ok (s.set dst (s.get src), .next)
  | movImm dst imm => .ok (s.set dst imm.toUInt64, .next)
  | load dst mem => do
    let v ← s.load (s.address place mem)
    return (s.set dst v, .next)
  | store mem src => do
    let s ← s.store (s.address place mem) (s.get src)
    return (s, .next)
  | storeImm mem imm => do
    let s ← s.store (s.address place mem) imm.toInt64.toUInt64
    return (s, .next)
  | storeByte mem src => do
    let s ← s.storeByte (s.address place mem) (s.get src).toUInt8
    return (s, .next)
  | storeByteImm mem imm => do
    let s ← s.storeByte (s.address place mem) imm
    return (s, .next)
  | loadByte dst mem => do
    let v ← s.loadByte (s.address place mem)
    return (s.set dst v.toUInt64, .next)
  | movByte dst src => .ok (s.set dst (s.get src).toUInt8.toUInt64, .next)
  | lea dst mem => .ok (s.set dst (s.address place mem), .next)
  | alu op dst src => .ok (s.settle dst (op.apply (s.get dst) (s.get src)), .next)
  | aluImm op dst imm => .ok (s.settle dst (op.apply (s.get dst) imm.toInt64.toUInt64), .next)
  | aluLoad op dst mem => do
    let v ← s.load (s.address place mem)
    return (s.settle dst (op.apply (s.get dst) v), .next)
  | aluStore op mem src => aluMem op (s.address place mem) (s.get src) s
  | aluStoreImm op mem imm => aluMem op (s.address place mem) imm.toInt64.toUInt64 s
  | imul dst src =>
    let (v, f) := signedProduct (s.get dst) (s.get src)
    .ok ((s.set dst v).setFlags f, .next)
  | shift op dst count =>
    let (v, f) := op.apply (s.get dst) count s.flags
    .ok ((s.set dst v).setFlags f, .next)
  | shiftCl op dst =>
    let (v, f) := op.apply (s.get dst) (s.get .rcx).toUInt8 s.flags
    .ok ((s.set dst v).setFlags f, .next)
  | unary op dst => do
    let s ← op.exec dst s
    return (s, .next)
  | cqo => .ok (s.set .rdx (if isNegative (s.get .rax) then (0 : UInt64).complement else 0), .next)
  | setcc cond dst => .ok (s.setLowByte dst (cond.holds s.flags).toUInt64, .next)
  | cmov cond dst src => .ok (if cond.holds s.flags then s.set dst (s.get src) else s, .next)
  | test a b => .ok (s.setFlags (.ofBits (s.get a &&& s.get b)), .next)
  | push src => do
    let s ← s.push (s.get src)
    return (s, .next)
  | pop dst => do
    let (v, s) ← s.pop
    return (s.set dst v, .next)
  | jmp target => .ok (s, .jump target)
  | jcc cond target => .ok (s, if cond.holds s.flags then .jump target else .next)
  | call target => .ok (s, .call target)
  | ret => .ok (s, .ret)
  | syscall => .ok (s, .syscall)
  | repMovsb => do
    let s ← s.copy (s.get .rcx).toNat
    return (s, .next)
  | repStosb => do
    let s ← s.fill (s.get .rcx).toNat
    return (s, .next)
  | movqTo dst src => .ok (s.setXmm dst (s.get src), .next)
  | movqFrom dst src => .ok (s.set dst (s.getXmm src), .next)
  | sse op dst src => .ok (s.setXmm dst (op.apply (s.getXmm dst) (s.getXmm src)), .next)
  | ucomisd a b =>
    .ok (s.setFlags (.ofComparison (Binary64.compare ⟨s.getXmm a⟩ ⟨s.getXmm b⟩)), .next)
  | cvtsi2sd dst src =>
    .ok (s.setXmm dst (Binary64.ofInt (s.get src).toInt64.toInt).bits, .next)
  | cvttsd2si dst src => .ok (s.set dst (wordOrLeast (Binary64.truncate? ⟨s.getXmm src⟩)), .next)
  | cvtsd2si dst src => .ok (s.set dst (wordOrLeast (Binary64.nearest? ⟨s.getXmm src⟩)), .next)
where
  /-- An operation whose first operand and result are in memory. -/
  aluMem (op : AluOp) (a v : UInt64) (s : State μ) : Except Trap (State μ × Flow σ) := do
    let held ← s.load a
    let (result, f) := op.apply held v
    match result with
    | some result =>
      let s ← s.store a result
      return (s.setFlags f, .next)
    | none => return (s.setFlags f, .next)

end Endmark.Machine

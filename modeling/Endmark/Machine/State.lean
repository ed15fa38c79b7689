import Endmark.Machine.Inst

/-!
# The state of the machine

Registers hold words of 64 bits, and of the registers for floating-point numbers the lower
half is all that is used.  Memory is anything whose bytes can be loaded and stored, or not.
-/

namespace Endmark.Machine

/-- What operations leave behind for conditions. -/
structure Flags where
  zero : Bool := false
  sign : Bool := false
  carry : Bool := false
  overflow : Bool := false
  parity : Bool := false
  /-- The carry out of the lowest four bits. -/
  auxiliary : Bool := false
deriving DecidableEq, Repr, Inhabited

/-- The flags as a word. -/
def Flags.word (f : Flags) : UInt64 :=
  let bit (b : Bool) (v : UInt64) : UInt64 := if b then v else 0
  0x202 ||| bit f.carry 1 ||| bit f.parity 4 ||| bit f.auxiliary 0x10 ||| bit f.zero 0x40 |||
    bit f.sign 0x80 ||| bit f.overflow 0x800

/-- Does a condition hold? -/
def Cond.holds (f : Flags) : Cond → Bool
  | o => f.overflow
  | no => !f.overflow
  | b => f.carry
  | ae => !f.carry
  | e => f.zero
  | ne => !f.zero
  | be => f.carry || f.zero
  | a => !(f.carry || f.zero)
  | s => f.sign
  | ns => !f.sign
  | p => f.parity
  | np => !f.parity
  | l => f.sign != f.overflow
  | ge => f.sign == f.overflow
  | le => f.zero || f.sign != f.overflow
  | g => !f.zero && f.sign == f.overflow

/-- A condition holds just when its negation does not. -/
theorem Cond.holds_negate (f : Flags) (c : Cond) :
  c.negate.holds f = !c.holds f
  := by
  cases c <;> simp [negate, holds, bne]

/-- The values of the general registers. -/
structure Regs where
  rax : UInt64 := 0
  rcx : UInt64 := 0
  rdx : UInt64 := 0
  rbx : UInt64 := 0
  rsp : UInt64 := 0
  rbp : UInt64 := 0
  rsi : UInt64 := 0
  rdi : UInt64 := 0
  r8 : UInt64 := 0
  r9 : UInt64 := 0
  r10 : UInt64 := 0
  r11 : UInt64 := 0
  r12 : UInt64 := 0
  r13 : UInt64 := 0
  r14 : UInt64 := 0
  r15 : UInt64 := 0
deriving DecidableEq, Repr, Inhabited

namespace Regs

def get (s : Regs) : Reg → UInt64
  | .rax => s.rax
  | .rcx => s.rcx
  | .rdx => s.rdx
  | .rbx => s.rbx
  | .rsp => s.rsp
  | .rbp => s.rbp
  | .rsi => s.rsi
  | .rdi => s.rdi
  | .r8 => s.r8
  | .r9 => s.r9
  | .r10 => s.r10
  | .r11 => s.r11
  | .r12 => s.r12
  | .r13 => s.r13
  | .r14 => s.r14
  | .r15 => s.r15

/-- The values with that of one register replaced. -/
def set (s : Regs) (r : Reg) (v : UInt64) : Regs :=
  match r with
  | .rax => { s with rax := v }
  | .rcx => { s with rcx := v }
  | .rdx => { s with rdx := v }
  | .rbx => { s with rbx := v }
  | .rsp => { s with rsp := v }
  | .rbp => { s with rbp := v }
  | .rsi => { s with rsi := v }
  | .rdi => { s with rdi := v }
  | .r8 => { s with r8 := v }
  | .r9 => { s with r9 := v }
  | .r10 => { s with r10 := v }
  | .r11 => { s with r11 := v }
  | .r12 => { s with r12 := v }
  | .r13 => { s with r13 := v }
  | .r14 => { s with r14 := v }
  | .r15 => { s with r15 := v }

/-- A register that is set has the value, and the others keep theirs. -/
theorem get_set (s : Regs) (r r' : Reg) (v : UInt64) :
  (s.set r v).get r' = if r' = r then v else s.get r'
  := by
  cases r <;> cases r' <;> rfl

end Regs

/-- The word of its bytes, with the lowest first. -/
def wordOfBytes (bytes : List UInt8) : UInt64 :=
  bytes.foldr (fun b high => high <<< 8 ||| b.toUInt64) 0

def wordBytes (v : UInt64) : List UInt8 :=
  [v.toUInt8, (v >>> 8).toUInt8, (v >>> 16).toUInt8, (v >>> 24).toUInt8, (v >>> 32).toUInt8,
    (v >>> 40).toUInt8, (v >>> 48).toUInt8, (v >>> 56).toUInt8]

/-- The bytes from an address on, if each of them can be loaded. -/
def bytesFrom? {μ : Type} (load? : μ → UInt64 → Option UInt8) (m : μ) (a : UInt64) :
    Nat → Option (List UInt8)
  | 0 => some []
  | n + 1 => do
    let b ← load? m a
    let rest ← bytesFrom? load? m (a + 1) n
    return b :: rest

/-- Memory with bytes stored from an address on, if each of them can be. -/
def withBytes? {μ : Type} (store? : μ → UInt64 → UInt8 → Option μ) (m : μ) (a : UInt64) :
    List UInt8 → Option μ
  | [] => some m
  | b :: rest =>
    match store? m a b with
    | some m => withBytes? store? m (a + 1) rest
    | none => none

/-- Memory whose bytes can be loaded from addresses and stored there, or not.  A word is the
eight bytes from an address on, lowest first. -/
class Memory (μ : Type) where
  load? : μ → UInt64 → Option UInt8
  store? : μ → UInt64 → UInt8 → Option μ
  loadWord? : μ → UInt64 → Option UInt64 := fun m a => (bytesFrom? load? m a 8).map wordOfBytes
  storeWord? : μ → UInt64 → UInt64 → Option μ := fun m a v => withBytes? store? m a (wordBytes v)

/-- Why the machine stops. -/
inductive Trap where
  /-- Memory that cannot be used in this way. -/
  | memory
  /-- A quotient that does not exist or does not fit. -/
  | division
  | illegal
deriving DecidableEq, Repr

/-- The state of the machine apart from where it is in a program. -/
structure State (μ : Type) where
  regs : Regs
  xmms : Vector UInt64 16
  flags : Flags
  memory : μ

namespace State

variable {μ : Type}

def get (s : State μ) (r : Reg) : UInt64 :=
  s.regs.get r

def set (s : State μ) (r : Reg) (v : UInt64) : State μ :=
  { s with regs := s.regs.set r v }

def setFlags (s : State μ) (f : Flags) : State μ :=
  { s with flags := f }

/-- The number in a register for floating-point numbers. -/
def getXmm (s : State μ) (x : Xmm) : UInt64 :=
  s.xmms[x.index]

/-- The state with a register for floating-point numbers set. -/
def setXmm (s : State μ) (x : Xmm) (v : UInt64) : State μ :=
  { s with xmms := s.xmms.set x.index v }

/-- The address that a memory operand means. -/
@[specialize]
def address {σ : Type} (place : σ → UInt64) (s : State μ) : Mem σ → UInt64
  | .rip target => place target
  | .base base index disp =>
    let scaled := match index with
      | some (r, scale) => s.get r * scale.toUInt64
      | none => 0
    s.get base + scaled + disp.toInt64.toUInt64

variable [Memory μ]

/-- The word at an address, or a trap. -/
@[specialize]
def load (s : State μ) (a : UInt64) : Except Trap UInt64 :=
  match Memory.loadWord? s.memory a with
  | some v => .ok v
  | none => .error .memory

@[specialize]
def loadByte (s : State μ) (a : UInt64) : Except Trap UInt8 :=
  match Memory.load? s.memory a with
  | some v => .ok v
  | none => .error .memory

/-- The state with a word stored at an address. -/
@[specialize]
def store (s : State μ) (a : UInt64) (v : UInt64) : Except Trap (State μ) :=
  match s with
  | ⟨regs, xmms, flags, memory⟩ =>
    match Memory.storeWord? memory a v with
    | some memory => .ok ⟨regs, xmms, flags, memory⟩
    | none => .error .memory

/-- The state with a byte stored at an address. -/
@[specialize]
def storeByte (s : State μ) (a : UInt64) (v : UInt8) : Except Trap (State μ) :=
  match s with
  | ⟨regs, xmms, flags, memory⟩ =>
    match Memory.store? memory a v with
    | some memory => .ok ⟨regs, xmms, flags, memory⟩
    | none => .error .memory

/-- The state with a word put on the stack. -/
@[specialize]
def push (s : State μ) (v : UInt64) : Except Trap (State μ) :=
  let top := s.get .rsp - 8
  (s.set .rsp top).store top v

/-- The word on top of the stack, and the state without it. -/
@[specialize]
def pop (s : State μ) : Except Trap (UInt64 × State μ) := do
  let top := s.get .rsp
  let v ← s.load top
  return (v, s.set .rsp (top + 8))

end State

end Endmark.Machine

import Endmark.Machine.Encoding

/-!
# Decoding instructions

The instruction at the start of some bytes, for the forms in which instructions are encoded.
Targets are distances from the end of the instruction.
-/

namespace Endmark.Machine

namespace Reg

def ofCode? (code : Nat) : Option Reg :=
  all[code]?

/-- Every register is found by its code. -/
theorem ofCode?_code (r : Reg) :
  ofCode? r.code = some r
  := by
  cases r <;> rfl

end Reg

namespace Decoding

open Encoding (Operand)

/-- A signed number in some bytes, lowest first. -/
def signed (bytes : List UInt8) : Int :=
  (Number.ofLittleEndian bytes : Int).bmod (Nat.pow 256 bytes.length)

/-- A signed number in the first `size` bytes, and what follows. -/
def number? (size : Nat) (bytes : List UInt8) : Option (Int × List UInt8) :=
  if bytes.length < size then none else some (signed (bytes.take size), bytes.drop size)

/-- What stands in front of the opcode: a lead byte, and the extension byte. -/
structure Head where
  lead : Option UInt8
  /-- Is there an extension byte that asks for eight bytes? -/
  wide : Bool
  /-- What the extension byte adds to the codes of the register, the index and the base. -/
  reg : Nat
  index : Nat
  base : Nat
deriving DecidableEq, Repr

/-- A byte in front of all else, if there is one. -/
def lead : List UInt8 → Option UInt8 × List UInt8
  | b :: rest => if b = 0x66 ∨ b = 0xF2 ∨ b = 0xF3 then (some b, rest) else (none, b :: rest)
  | [] => (none, [])

/-- What stands in front of the opcode. -/
def head (bytes : List UInt8) : Head × List UInt8 :=
  let (first, bytes) := lead bytes
  match bytes with
  | b :: rest =>
    if b &&& 0xF0 = 0x40 then
      let bit (k : Nat) : Nat := b.toNat / Nat.pow 2 k % 2
      (⟨first, bit 3 = 1, 8 * bit 2, 8 * bit 1, 8 * bit 0⟩, rest)
    else
      (⟨first, false, 0, 0, 0⟩, b :: rest)
  | [] => (⟨first, false, 0, 0, 0⟩, [])

/-- The displacement that the mode asks for. -/
def displacement? (mode : Nat) (bytes : List UInt8) : Option (Int32 × List UInt8) :=
  match mode with
  | 0 => some (0, bytes)
  | 1 => (number? 1 bytes).map fun (d, rest) => (.ofInt d, rest)
  | _ => (number? 4 bytes).map fun (d, rest) => (.ofInt d, rest)

/-- The base and index of a memory operand with a byte of its own for them, and what follows.
A base is always there. -/
def scaled? (h : Head) (mode : Nat) : List UInt8 → Option (Mem Int × List UInt8)
  | [] => none
  | b :: rest => do
    let code := b.toNat
    if mode = 0 ∧ code % 8 = 5 then none
    let base ← Reg.ofCode? (h.base + code % 8)
    let indexCode := h.index + code / 8 % 8
    let (disp, rest) ← displacement? mode rest
    if indexCode = 4 then
      return (.base base none disp, rest)
    else
      let index ← Reg.ofCode? indexCode
      return (.base base (some (index, Nat.pow 2 (code / 64))) disp, rest)

/-- The code of a register, an operand, and what follows. -/
def operands? (h : Head) : List UInt8 → Option (Nat × Operand Int × List UInt8)
  | [] => none
  | b :: rest => do
    let code := b.toNat
    let mode := code / 64
    let reg := h.reg + code / 8 % 8
    let low := code % 8
    if mode = 3 then
      return (reg, .reg (h.base + low), rest)
    else if low = 4 then
      let (mem, rest) ← scaled? h mode rest
      return (reg, .mem mem, rest)
    else if mode = 0 ∧ low = 5 then
      let (target, rest) ← number? 4 rest
      return (reg, .mem (.rip target), rest)
    else
      let base ← Reg.ofCode? (h.base + low)
      let (disp, rest) ← displacement? mode rest
      return (reg, .mem (.base base none disp), rest)

def aluOp? (code : Nat) : Option AluOp :=
  AluOp.all.find? (·.code == code)

def cond? (code : Nat) : Option Cond :=
  Cond.all[code]?

/-- The register for floating-point numbers with the given code. -/
def xmm? (code : Nat) : Option Xmm :=
  if h : code < 16 then some ⟨⟨code, h⟩⟩ else none

/-- An instruction with two registers. -/
def registers? (h : Head) (f : Reg → Reg → Inst Int) (bytes : List UInt8) :
    Option (Inst Int × List UInt8) := do
  match ← operands? h bytes with
  | (reg, .reg rm, rest) => return (f (← Reg.ofCode? reg) (← Reg.ofCode? rm), rest)
  | (_, .mem _, _) => none

/-- An instruction with a register and a place in memory. -/
def memory? (h : Head) (f : Reg → Mem Int → Inst Int) (bytes : List UInt8) :
    Option (Inst Int × List UInt8) := do
  match ← operands? h bytes with
  | (reg, .mem mem, rest) => return (f (← Reg.ofCode? reg) mem, rest)
  | (_, .reg _, _) => none

/-- An instruction on two registers, or on a register and memory. -/
def either? (h : Head) (f : Reg → Reg → Inst Int) (g : Reg → Mem Int → Inst Int)
    (bytes : List UInt8) : Option (Inst Int × List UInt8) := do
  match ← operands? h bytes with
  | (reg, .reg rm, rest) => return (f (← Reg.ofCode? reg) (← Reg.ofCode? rm), rest)
  | (reg, .mem mem, rest) => return (g (← Reg.ofCode? reg) mem, rest)

/-- An instruction on a register or memory, and an immediate number of the given size; the code in
place of a register tells which one. -/
def immediate? (h : Head) (size : Nat) (f : Nat → Reg → Int → Option (Inst Int))
    (g : Nat → Mem Int → Int → Option (Inst Int)) (bytes : List UInt8) :
    Option (Inst Int × List UInt8) := do
  let (code, operand, rest) ← operands? h bytes
  let (imm, rest) ← number? size rest
  match operand with
  | .reg rm => return (← f (code % 8) (← Reg.ofCode? rm) imm, rest)
  | .mem mem => return (← g (code % 8) mem imm, rest)

/-- A jump or call with a distance of the given size. -/
def branch? (size : Nat) (f : Int → Inst Int) (bytes : List UInt8) :
    Option (Inst Int × List UInt8) :=
  (number? size bytes).map fun (target, rest) => (f target, rest)

/-- The operation with an immediate number that a code tells. -/
def aluImmediate? (h : Head) (size : Nat) (bytes : List UInt8) : Option (Inst Int × List UInt8) :=
  immediate? h size
    (fun code r imm => (aluOp? code).map fun op => .aluImm op r (.ofInt imm))
    (fun code mem imm => (aluOp? code).map fun op => .aluStoreImm op mem (.ofInt imm)) bytes

/-- An instruction after its head and the byte that opens opcodes of two bytes. -/
def second? (h : Head) (opcode : UInt8) (bytes : List UInt8) : Option (Inst Int × List UInt8) := do
  let n := opcode.toNat
  match h.lead with
  | some 0x66 =>
    let (reg, operand, rest) ← operands? h bytes
    match n, operand with
    | 0x6E, .reg rm => return (.movqTo (← xmm? reg) (← Reg.ofCode? rm), rest)
    | 0x7E, .reg rm => return (.movqFrom (← Reg.ofCode? rm) (← xmm? reg), rest)
    | 0x2E, .reg rm => return (.ucomisd (← xmm? reg) (← xmm? rm), rest)
    | _, _ => none
  | some 0xF2 =>
    let (reg, operand, rest) ← operands? h bytes
    match n, operand with
    | 0x2A, .reg rm => return (.cvtsi2sd (← xmm? reg) (← Reg.ofCode? rm), rest)
    | 0x2C, .reg rm => return (.cvttsd2si (← Reg.ofCode? reg) (← xmm? rm), rest)
    | 0x2D, .reg rm => return (.cvtsd2si (← Reg.ofCode? reg) (← xmm? rm), rest)
    | _, .reg rm =>
      let op ← SseOp.all.find? (·.opcode == opcode)
      return (.sse op (← xmm? reg) (← xmm? rm), rest)
    | _, .mem _ => none
  | some _ => none
  | none =>
    if n = 0x05 then return (.syscall, bytes)
    else if n = 0xAF then registers? h (fun d s => .imul d s) bytes
    else if n = 0xB6 then either? h (fun d s => .movByte d s) (fun d m => .loadByte d m) bytes
    else if n / 16 = 4 then
      let cond ← cond? (n % 16)
      registers? h (fun d s => .cmov cond d s) bytes
    else if n / 16 = 8 then
      let cond ← cond? (n % 16)
      branch? 4 (.jcc cond) bytes
    else if n / 16 = 9 then
      let cond ← cond? (n % 16)
      immediate? h 0 (fun _ r _ => some (.setcc cond r)) (fun _ _ _ => none) bytes
    else none

/-- An instruction with an opcode of one byte. -/
def first? (h : Head) (opcode : UInt8) (bytes : List UInt8) : Option (Inst Int × List UInt8) := do
  let n := opcode.toNat
  match n with
  | 0x89 => either? h (fun s d => .mov d s) (fun s m => .store m s) bytes
  | 0x8B => memory? h (fun d m => .load d m) bytes
  | 0x88 => memory? h (fun s m => .storeByte m s) bytes
  | 0x8D => memory? h (fun d m => .lea d m) bytes
  | 0x85 => registers? h (fun b a => .test a b) bytes
  | 0xC7 =>
    immediate? h 4 (fun _ r imm => some (.movImm r (.ofInt imm)))
      (fun _ m imm => some (.storeImm m (.ofInt imm))) bytes
  | 0xC6 =>
    immediate? h 1 (fun _ _ _ => none)
      (fun _ m imm => some (.storeByteImm m (imm % 256).toNat.toUInt8)) bytes
  | 0x83 => aluImmediate? h 1 bytes
  | 0x81 => aluImmediate? h 4 bytes
  | 0xC1 =>
    immediate? h 1
      (fun code r imm => (ShiftOp.all.find? (·.code == code)).map fun op =>
        .shift op r (imm % 256).toNat.toUInt8)
      (fun _ _ _ => none) bytes
  | 0xD3 =>
    immediate? h 0
      (fun code r _ => (ShiftOp.all.find? (·.code == code)).map fun op => .shiftCl op r)
      (fun _ _ _ => none) bytes
  | 0xF7 | 0xFF =>
    immediate? h 0
      (fun code r _ =>
        (UnaryOp.all.find? fun op => op.opcode == opcode && op.code == code).map fun op =>
          .unary op r)
      (fun _ _ _ => none) bytes
  | 0x99 => return (.cqo, bytes)
  | 0x90 => return (.nop, bytes)
  | 0xC3 => return (.ret, bytes)
  | 0xE8 => branch? 4 .call bytes
  | 0xE9 => branch? 4 .jmp bytes
  | 0xEB => branch? 1 .jmp bytes
  | n =>
    if n / 16 = 7 then
      let cond ← cond? (n % 16)
      branch? 1 (.jcc cond) bytes
    else if n / 8 = 10 then return (.push (← Reg.ofCode? (h.base + n % 8)), bytes)
    else if n / 8 = 11 then return (.pop (← Reg.ofCode? (h.base + n % 8)), bytes)
    else if n / 8 = 23 then
      let r ← Reg.ofCode? (h.base + n % 8)
      let (imm, rest) ← number? 8 bytes
      return (.movImm r (.ofInt imm), rest)
    else if n % 8 = 1 then
      let op ← aluOp? (n / 8)
      either? h (fun s d => .alu op d s) (fun s m => .aluStore op m s) bytes
    else if n % 8 = 3 then
      let op ← aluOp? (n / 8)
      memory? h (fun d m => .aluLoad op d m) bytes
    else none

end Decoding

/-- Does the extension byte of the instruction ask for eight bytes? -/
def Inst.isWide {σ : Type} : Inst σ → Bool
  | label _ | storeByte _ _ | storeByteImm _ _ | setcc _ _ | push _ | pop _ | jmp _ | jcc _ _
  | call _ | ret | syscall | nop | repMovsb | repStosb | sse _ _ _ | ucomisd _ _ => false
  | _ => true

open Decoding in
/-- The instruction after a head, of whatever width. -/
def Decoding.body? (h : Head) : List UInt8 → Option (Inst Int × List UInt8)
  | 0x0F :: opcode :: rest => second? h opcode rest
  | opcode :: rest =>
    match h.lead, opcode with
    | none, opcode => first? h opcode rest
    | some 0xF3, 0xA4 => some (.repMovsb, rest)
    | some 0xF3, 0xAA => some (.repStosb, rest)
    | some _, _ => none
  | [] => none

/-- The first instruction of the bytes, and the bytes behind it. -/
def decode? (bytes : List UInt8) : Option (Inst Int × List UInt8) :=
  let (h, bytes) := Decoding.head bytes
  match Decoding.body? h bytes with
  | some (i, rest) => if i.isWide = h.wide then some (i, rest) else none
  | none => none

end Endmark.Machine

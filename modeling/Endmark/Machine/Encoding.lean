import Endmark.Machine.Inst

/-!
# The encoding of instructions

The bytes of an instruction, and the field in them that the address of a symbol determines.
-/

namespace Endmark.Machine

/-- Why an instruction has no encoding. -/
inductive MemFault where
  | stackIndex
  | scale (found : Nat)
deriving DecidableEq, Repr

def MemFault.message : MemFault → String
  | .stackIndex => "rsp cannot be an index register"
  | .scale found => s!"scale {found} is not 1, 2, 4 or 8"

/-- A field that depends on the address of a symbol: its value is the address plus the
addend less the address of the field itself. -/
structure Fixup (σ : Type) where
  /-- Where the field is in the instruction. -/
  offset : Nat
  target : σ
  addend : Int
  /-- The width of the field in bytes. -/
  size : Nat
deriving DecidableEq, Repr

/-- The bytes of an instruction, with zeros in the field of the fixup. -/
structure Encoded (σ : Type) where
  bytes : List UInt8
  fixup : Option (Fixup σ)
deriving DecidableEq, Repr

namespace Encoding

/-- The operand of an instruction that may be a register or in memory. -/
inductive Operand (σ : Type) where
  | reg (code : Nat)
  | mem (mem : Mem σ)

/-- The parts of an encoding, in the order of their bytes. -/
structure Form (σ : Type) where
  /-- A byte in front of all else. -/
  lead : List UInt8 := []
  /-- Does it work on eight bytes? -/
  wide : Bool := true
  /-- Is the extension byte written even when it says nothing? -/
  forceRex : Bool := false
  opcode : List UInt8
  /-- The register, or what tells apart instructions with one opcode. -/
  reg : Nat
  operand : Operand σ
  imm : List UInt8 := []

/-- The extension byte: whether eight bytes are meant, and the fourth bits of the registers. -/
def rex (wide : Bool) (reg index rm : Nat) : Nat :=
  0x40 + wide.toNat * 8 + reg / 8 * 4 + index / 8 * 2 + rm / 8

/-- The codes of the index and base registers of an operand, zero when there is none. -/
def Operand.codes {σ : Type} : Operand σ → Nat × Nat
  | .reg code => (0, code)
  | .mem (.base base index _) => ((index.map (·.1.code)).getD 0, base.code)
  | .mem (.rip _) => (0, 0)

/-- A byte of two bits and twice three bits. -/
def fields (high middle low : Nat) : UInt8 :=
  (high % 4 * 64 + middle % 8 * 8 + low % 8).toUInt8

/-- How many bytes the displacement has: none, one or four.  Base codes that end in five need
one at least. -/
def dispSize (base : Reg) (disp : Int32) : Nat :=
  if disp = 0 ∧ base.low ≠ 5 then 0
  else if Number.fitsSigned 8 disp.toInt then 1
  else 4

/-- The mode for a displacement of so many bytes. -/
def dispMode : Nat → Nat
  | 0 => 0
  | 1 => 1
  | _ => 2

def scaleBits? : Nat → Option Nat
  | 1 => some 0
  | 2 => some 1
  | 4 => some 2
  | 8 => some 3
  | _ => none

/-- The bytes that say which registers and which displacement a memory operand has. -/
def address (reg : Nat) (base : Reg) (index : Option (Reg × Nat)) (disp : Int32) :
    Except MemFault (List UInt8) :=
  let size := dispSize base disp
  let mode := dispMode size
  let tail := Number.littleEndianInt size disp.toInt
  match index with
  | some (r, scale) =>
    if r = .rsp then
      .error .stackIndex
    else
      match scaleBits? scale with
      | some bits => .ok (fields mode reg 4 :: fields bits r.low base.low :: tail)
      | none => .error (.scale scale)
  | none =>
    if base.low = 4 then .ok (fields mode reg 4 :: 0x24 :: tail)
    else .ok (fields mode reg base.low :: tail)

/-- The bytes of an instruction from its parts. -/
def Form.encode {σ : Type} (f : Form σ) : Except MemFault (Encoded σ) :=
  let (index, rm) := f.operand.codes
  let extension := rex f.wide f.reg index rm
  let start := f.lead ++ (if extension ≠ 0x40 ∨ f.forceRex then [extension.toUInt8] else []) ++
    f.opcode
  match f.operand with
  | .reg code => .ok ⟨start ++ fields 3 f.reg code :: f.imm, none⟩
  | .mem (.rip target) =>
    let before := start ++ [fields 0 f.reg 5]
    .ok ⟨before ++ [0, 0, 0, 0] ++ f.imm,
      some ⟨before.length, target, -(4 + f.imm.length : Int), 4⟩⟩
  | .mem (.base base index disp) => do
    let bytes ← address f.reg base index disp
    return ⟨start ++ bytes ++ f.imm, none⟩

/-- A jump or call: an opcode and a field. -/
def branch {σ : Type} (opcode : List UInt8) (target : σ) (size : Nat) : Encoded σ :=
  ⟨opcode ++ List.replicate size 0, some ⟨opcode.length, target, -(size : Int), size⟩⟩

/-- Four bytes of a number. -/
def imm32 (i : Int32) : List UInt8 :=
  Number.littleEndianInt 4 i.toInt

/-- The opcode of an operation with an immediate number, and its bytes. -/
def aluImmediate (i : Int32) : UInt8 × List UInt8 :=
  if Number.fitsSigned 8 i.toInt then (0x83, Number.littleEndianInt 1 i.toInt)
  else (0x81, imm32 i)

/-- An opcode that ends in the code of a register or condition. -/
def opcodeWith (base : UInt8) (code : Nat) : UInt8 :=
  base + code.toUInt8

/-- A push or a pop. -/
def stack (base : UInt8) (r : Reg) : List UInt8 :=
  if r.code ≥ 8 then [0x41, opcodeWith base r.low] else [opcodeWith base r.low]

end Encoding

open Encoding in
/-- The bytes of an instruction; `short` asks for the short form of a jump. -/
def Inst.encode {σ : Type} (short : Bool) : Inst σ → Except MemFault (Encoded σ)
  | .label _ => .ok ⟨[], none⟩
  | .mov d s => Form.encode { opcode := [0x89], reg := s.code, operand := .reg d.code }
  | .movImm d i =>
    if Number.fitsSigned 32 i.toInt then
      Form.encode
        { opcode := [0xC7], reg := 0, operand := .reg d.code
          imm := Number.littleEndianInt 4 i.toInt }
    else
      .ok ⟨(0x48 + d.code / 8).toUInt8 :: opcodeWith 0xB8 d.low ::
        Number.littleEndianInt 8 i.toInt, none⟩
  | .load d m => Form.encode { opcode := [0x8B], reg := d.code, operand := .mem m }
  | .store m s => Form.encode { opcode := [0x89], reg := s.code, operand := .mem m }
  | .storeImm m i =>
    Form.encode { opcode := [0xC7], reg := 0, operand := .mem m, imm := imm32 i }
  | .storeByte m s =>
    Form.encode
      { wide := false, forceRex := s.lowByteNeedsExtension, opcode := [0x88], reg := s.code
        operand := .mem m }
  | .storeByteImm m i =>
    Form.encode { wide := false, opcode := [0xC6], reg := 0, operand := .mem m, imm := [i] }
  | .loadByte d m => Form.encode { opcode := [0x0F, 0xB6], reg := d.code, operand := .mem m }
  | .movByte d s =>
    Form.encode { opcode := [0x0F, 0xB6], reg := d.code, operand := .reg s.code }
  | .lea d m => Form.encode { opcode := [0x8D], reg := d.code, operand := .mem m }
  | .alu op d s =>
    Form.encode { opcode := [opcodeWith 1 (op.code * 8)], reg := s.code, operand := .reg d.code }
  | .aluImm op d i =>
    let (opcode, imm) := aluImmediate i
    Form.encode { opcode := [opcode], reg := op.code, operand := .reg d.code, imm }
  | .aluLoad op d m =>
    Form.encode { opcode := [opcodeWith 3 (op.code * 8)], reg := d.code, operand := .mem m }
  | .aluStore op m s =>
    Form.encode { opcode := [opcodeWith 1 (op.code * 8)], reg := s.code, operand := .mem m }
  | .aluStoreImm op m i =>
    let (opcode, imm) := aluImmediate i
    Form.encode { opcode := [opcode], reg := op.code, operand := .mem m, imm }
  | .imul d s => Form.encode { opcode := [0x0F, 0xAF], reg := d.code, operand := .reg s.code }
  | .shift op d n =>
    Form.encode { opcode := [0xC1], reg := op.code, operand := .reg d.code, imm := [n] }
  | .shiftCl op d => Form.encode { opcode := [0xD3], reg := op.code, operand := .reg d.code }
  | .unary op d => Form.encode { opcode := [op.opcode], reg := op.code, operand := .reg d.code }
  | .cqo => .ok ⟨[0x48, 0x99], none⟩
  | .setcc c d =>
    Form.encode
      { wide := false, forceRex := d.lowByteNeedsExtension, opcode := [0x0F, opcodeWith 0x90 c.code]
        reg := 0, operand := .reg d.code }
  | .cmov c d s =>
    Form.encode
      { opcode := [0x0F, opcodeWith 0x40 c.code], reg := d.code, operand := .reg s.code }
  | .test a b => Form.encode { opcode := [0x85], reg := b.code, operand := .reg a.code }
  | .push s => .ok ⟨stack 0x50 s, none⟩
  | .pop d => .ok ⟨stack 0x58 d, none⟩
  | .jmp t => .ok (if short then branch [0xEB] t 1 else branch [0xE9] t 4)
  | .jcc c t =>
    .ok (if short then branch [opcodeWith 0x70 c.code] t 1
      else branch [0x0F, opcodeWith 0x80 c.code] t 4)
  | .call t => .ok (branch [0xE8] t 4)
  | .ret => .ok ⟨[0xC3], none⟩
  | .syscall => .ok ⟨[0x0F, 0x05], none⟩
  | .nop => .ok ⟨[0x90], none⟩
  | .repMovsb => .ok ⟨[0xF3, 0xA4], none⟩
  | .repStosb => .ok ⟨[0xF3, 0xAA], none⟩
  | .movqTo d s =>
    Form.encode { lead := [0x66], opcode := [0x0F, 0x6E], reg := d.code, operand := .reg s.code }
  | .movqFrom d s =>
    Form.encode { lead := [0x66], opcode := [0x0F, 0x7E], reg := s.code, operand := .reg d.code }
  | .sse op d s =>
    Form.encode
      { lead := [0xF2], wide := false, opcode := [0x0F, op.opcode], reg := d.code
        operand := .reg s.code }
  | .ucomisd a b =>
    Form.encode
      { lead := [0x66], wide := false, opcode := [0x0F, 0x2E], reg := a.code
        operand := .reg b.code }
  | .cvtsi2sd d s =>
    Form.encode { lead := [0xF2], opcode := [0x0F, 0x2A], reg := d.code, operand := .reg s.code }
  | .cvttsd2si d s =>
    Form.encode { lead := [0xF2], opcode := [0x0F, 0x2C], reg := d.code, operand := .reg s.code }
  | .cvtsd2si d s =>
    Form.encode { lead := [0xF2], opcode := [0x0F, 0x2D], reg := d.code, operand := .reg s.code }

end Endmark.Machine

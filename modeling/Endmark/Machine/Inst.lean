import Endmark.Machine.Register

/-!
# Machine instructions

The instructions of x86-64 that compiled programs, the routines they call, and raw blocks
consist of.  They work on whole registers unless their names say otherwise.  What stands for
an address is a parameter: a name in assembly, a distance in decoded code.
-/

namespace Endmark.Machine

/-- Operations on two operands that set the flags. -/
inductive AluOp where
  | add
  | or
  | and
  | sub
  | xor
  | cmp
deriving DecidableEq, Repr, Inhabited

namespace AluOp

def all : List AluOp :=
  [add, or, and, sub, xor, cmp]

def code : AluOp → Nat
  | add => 0
  | or => 1
  | and => 4
  | sub => 5
  | xor => 6
  | cmp => 7

def name : AluOp → String
  | add => "add"
  | or => "or"
  | and => "and"
  | sub => "sub"
  | xor => "xor"
  | cmp => "cmp"

def ofName? (s : String) : Option AluOp :=
  all.find? (·.name == s)

end AluOp

/-- The shifts. -/
inductive ShiftOp where
  | shl
  | shr
  | sar
deriving DecidableEq, Repr, Inhabited

namespace ShiftOp

def all : List ShiftOp :=
  [shl, shr, sar]

def code : ShiftOp → Nat
  | shl => 4
  | shr => 5
  | sar => 7

def name : ShiftOp → String
  | shl => "shl"
  | shr => "shr"
  | sar => "sar"

def ofName? (s : String) : Option ShiftOp :=
  if s = "sal" then some shl else all.find? (·.name == s)

end ShiftOp

/-- The operations on one register. -/
inductive UnaryOp where
  | not
  | neg
  | mul
  | div
  | idiv
  | inc
  | dec
deriving DecidableEq, Repr, Inhabited

namespace UnaryOp

def all : List UnaryOp :=
  [not, neg, mul, div, idiv, inc, dec]

def opcode : UnaryOp → UInt8
  | not | neg | mul | div | idiv => 0xF7
  | inc | dec => 0xFF

/-- The code of the operation among those with its opcode. -/
def code : UnaryOp → Nat
  | not => 2
  | neg => 3
  | mul => 4
  | div => 6
  | idiv => 7
  | inc => 0
  | dec => 1

def name : UnaryOp → String
  | not => "not"
  | neg => "neg"
  | mul => "mul"
  | div => "div"
  | idiv => "idiv"
  | inc => "inc"
  | dec => "dec"

def ofName? (s : String) : Option UnaryOp :=
  all.find? (·.name == s)

end UnaryOp

/-- Operations on floating-point numbers. -/
inductive SseOp where
  | add
  | sub
  | mul
  | div
  | sqrt
deriving DecidableEq, Repr, Inhabited

namespace SseOp

/-- All operations on floating-point numbers. -/
def all : List SseOp :=
  [add, sub, mul, div, sqrt]

def opcode : SseOp → UInt8
  | add => 0x58
  | sub => 0x5C
  | mul => 0x59
  | div => 0x5E
  | sqrt => 0x51

def name : SseOp → String
  | add => "addsd"
  | sub => "subsd"
  | mul => "mulsd"
  | div => "divsd"
  | sqrt => "sqrtsd"

def ofName? (s : String) : Option SseOp :=
  all.find? (·.name == s)

end SseOp

/-- A place in memory, where symbols are of type `σ`. -/
inductive Mem (σ : Type) where
  | base (base : Reg) (index : Option (Reg × Nat)) (disp : Int32)
  /-- A place relative to the next instruction. -/
  | rip (target : σ)
deriving DecidableEq, Repr, Inhabited

namespace Mem

def offset {σ : Type} (base : Reg) (disp : Int32) : Mem σ :=
  .base base none disp

/-- The operand with what stands for an address replaced. -/
def map {σ τ : Type} (f : σ → τ) : Mem σ → Mem τ
  | base b i d => base b i d
  | rip target => rip (f target)

def renderDisp (disp : Int) : String :=
  if disp = 0 then "" else if disp < 0 then s!" - {-disp}" else s!" + {disp}"

/-- A memory operand as it is written. -/
def render : Mem String → String
  | rip target => s!"[rip + {target}]"
  | base b index disp =>
    let scaled := match index with
      | some (r, scale) => s!" + {r.name}*{scale}"
      | none => ""
    s!"[{b.name}{scaled}{renderDisp disp.toInt}]"

end Mem

/-- The instructions, where jumps and places have symbols of type `σ`. -/
inductive Inst (σ : Type) where
  | label (name : σ)
  | mov (dst src : Reg)
  | movImm (dst : Reg) (imm : Int64)
  | load (dst : Reg) (mem : Mem σ)
  | store (mem : Mem σ) (src : Reg)
  | storeImm (mem : Mem σ) (imm : Int32)
  | storeByte (mem : Mem σ) (src : Reg)
  | storeByteImm (mem : Mem σ) (imm : UInt8)
  | loadByte (dst : Reg) (mem : Mem σ)
  | movByte (dst src : Reg)
  | lea (dst : Reg) (mem : Mem σ)
  | alu (op : AluOp) (dst src : Reg)
  | aluImm (op : AluOp) (dst : Reg) (imm : Int32)
  | aluLoad (op : AluOp) (dst : Reg) (mem : Mem σ)
  | aluStore (op : AluOp) (mem : Mem σ) (src : Reg)
  | aluStoreImm (op : AluOp) (mem : Mem σ) (imm : Int32)
  | imul (dst src : Reg)
  | shift (op : ShiftOp) (dst : Reg) (count : UInt8)
  | shiftCl (op : ShiftOp) (dst : Reg)
  | unary (op : UnaryOp) (dst : Reg)
  | cqo
  | setcc (cond : Cond) (dst : Reg)
  | cmov (cond : Cond) (dst src : Reg)
  | test (lhs rhs : Reg)
  | push (src : Reg)
  | pop (dst : Reg)
  | jmp (target : σ)
  | jcc (cond : Cond) (target : σ)
  | call (target : σ)
  | ret
  | syscall
  | nop
  | repMovsb
  | repStosb
  | movqTo (dst : Xmm) (src : Reg)
  | movqFrom (dst : Reg) (src : Xmm)
  | sse (op : SseOp) (dst src : Xmm)
  | ucomisd (lhs rhs : Xmm)
  | cvtsi2sd (dst : Xmm) (src : Reg)
  | cvttsd2si (dst : Reg) (src : Xmm)
  | cvtsd2si (dst : Reg) (src : Xmm)
deriving DecidableEq, Repr, Inhabited

namespace Inst

/-- Where a jump or a call goes. -/
def target? {σ : Type} : Inst σ → Option σ
  | jmp t | jcc _ t | call t => some t
  | _ => none

/-- Has the instruction a short form?  Jumps have one, calls have not. -/
def isJump {σ : Type} : Inst σ → Bool
  | jmp _ | jcc _ _ => true
  | _ => false

/-- The place in memory that is read or written. -/
def mem? {σ : Type} : Inst σ → Option (Mem σ)
  | load _ m | store m _ | storeImm m _ | storeByte m _ | storeByteImm m _ | loadByte _ m
  | lea _ m | aluLoad _ _ m | aluStore _ m _ | aluStoreImm _ m _ => some m
  | _ => none

/-- The instruction with what stands for addresses replaced. -/
def map {σ τ : Type} (f : σ → τ) : Inst σ → Inst τ
  | label name => label (f name)
  | mov d s => mov d s
  | movImm d i => movImm d i
  | load d m => load d (m.map f)
  | store m s => store (m.map f) s
  | storeImm m i => storeImm (m.map f) i
  | storeByte m s => storeByte (m.map f) s
  | storeByteImm m i => storeByteImm (m.map f) i
  | loadByte d m => loadByte d (m.map f)
  | movByte d s => movByte d s
  | lea d m => lea d (m.map f)
  | alu op d s => alu op d s
  | aluImm op d i => aluImm op d i
  | aluLoad op d m => aluLoad op d (m.map f)
  | aluStore op m s => aluStore op (m.map f) s
  | aluStoreImm op m i => aluStoreImm op (m.map f) i
  | imul d s => imul d s
  | shift op d n => shift op d n
  | shiftCl op d => shiftCl op d
  | unary op d => unary op d
  | cqo => cqo
  | setcc c d => setcc c d
  | cmov c d s => cmov c d s
  | test a b => test a b
  | push s => push s
  | pop d => pop d
  | jmp t => jmp (f t)
  | jcc c t => jcc c (f t)
  | call t => call (f t)
  | ret => ret
  | syscall => syscall
  | nop => nop
  | repMovsb => repMovsb
  | repStosb => repStosb
  | movqTo d s => movqTo d s
  | movqFrom d s => movqFrom d s
  | sse op d s => sse op d s
  | ucomisd a b => ucomisd a b
  | cvtsi2sd d s => cvtsi2sd d s
  | cvttsd2si d s => cvttsd2si d s
  | cvtsd2si d s => cvtsd2si d s

/-- An instruction as a line of a listing. -/
def render : Inst String → String
  | label name => s!"{name}:"
  | mov d s => s!"mov {d.name}, {s.name}"
  | movImm d i =>
    if Number.fitsSigned 32 i.toInt then s!"mov {d.name}, {i.toInt}"
    else s!"movabs {d.name}, {i.toInt}"
  | load d m => s!"mov {d.name}, qword ptr {m.render}"
  | store m s => s!"mov qword ptr {m.render}, {s.name}"
  | storeImm m i => s!"mov qword ptr {m.render}, {i.toInt}"
  | storeByte m s => s!"mov byte ptr {m.render}, {s.byteName}"
  | storeByteImm m i => s!"mov byte ptr {m.render}, {i.toNat}"
  | loadByte d m => s!"movzx {d.name}, byte ptr {m.render}"
  | movByte d s => s!"movzx {d.name}, {s.byteName}"
  | lea d m => s!"lea {d.name}, {m.render}"
  | alu op d s => s!"{op.name} {d.name}, {s.name}"
  | aluImm op d i => s!"{op.name} {d.name}, {i.toInt}"
  | aluLoad op d m => s!"{op.name} {d.name}, qword ptr {m.render}"
  | aluStore op m s => s!"{op.name} qword ptr {m.render}, {s.name}"
  | aluStoreImm op m i => s!"{op.name} qword ptr {m.render}, {i.toInt}"
  | imul d s => s!"imul {d.name}, {s.name}"
  | shift op d n => s!"{op.name} {d.name}, {n.toNat}"
  | shiftCl op d => s!"{op.name} {d.name}, cl"
  | unary op d => s!"{op.name} {d.name}"
  | cqo => "cqo"
  | setcc c d => s!"set{c.name} {d.byteName}"
  | cmov c d s => s!"cmov{c.name} {d.name}, {s.name}"
  | test a b => s!"test {a.name}, {b.name}"
  | push s => s!"push {s.name}"
  | pop d => s!"pop {d.name}"
  | jmp t => s!"jmp {t}"
  | jcc c t => s!"j{c.name} {t}"
  | call t => s!"call {t}"
  | ret => "ret"
  | syscall => "syscall"
  | nop => "nop"
  | repMovsb => "rep movsb"
  | repStosb => "rep stosb"
  | movqTo d s => s!"movq {d.name}, {s.name}"
  | movqFrom d s => s!"movq {d.name}, {s.name}"
  | sse op d s => s!"{op.name} {d.name}, {s.name}"
  | ucomisd a b => s!"ucomisd {a.name}, {b.name}"
  | cvtsi2sd d s => s!"cvtsi2sd {d.name}, {s.name}"
  | cvttsd2si d s => s!"cvttsd2si {d.name}, {s.name}"
  | cvtsd2si d s => s!"cvtsd2si {d.name}, {s.name}"

end Inst

end Endmark.Machine

import Endmark.Code.Allocation
import Endmark.Ir.Printer
import Endmark.Machine.Assembler

/-!
# Code of single operations

A value stays where the allocation puts it: in a register that calls leave as they are, or in
a slot of the frame.  Operations work through `rax` and `rcx`, and use `rdx`, `r10`, `xmm0`
and `xmm1` where they need more.
-/

namespace Endmark.Code

open Machine (Reg Xmm Cond AluOp ShiftOp UnaryOp SseOp Mem Inst)
open Ir (Operand Place BinOp UnOp WordType)

abbrev Insts := List (Inst String)

def globalSymbol (name : String) : String :=
  "g." ++ name

def stringSymbol (index : Nat) : String :=
  s!"str.{index}"

/-- A function with the places of its variables, the globals of its module, and the number of
string constants. -/
structure Frame where
  function : Ir.Function
  allocation : Allocation
  globals : List String
  strings : Nat

namespace Frame

/-- The slot with the given number.  Below the frame pointer come the saved registers, then
the slots. -/
def slot (f : Frame) (index : Nat) : Mem String :=
  .offset .rbp (.ofInt (-8 * (f.allocation.saved.length + 1 + index : Int)))

/-- The register of a place, if it has one. -/
def reg? (f : Frame) : Place → Option Reg
  | .var name =>
    match f.allocation.location? name with
    | some (.reg r) => some r
    | _ => none
  | .global _ => none

/-- The instructions that bring an operand into a register.  A variable without a place is
never written before it is read, so that any value will do. -/
def load (f : Frame) (r : Reg) : Operand → Insts
  | .var name =>
    match f.allocation.location? name with
    | some (.reg src) => if src = r then [] else [.mov r src]
    | some (.slot k) => [.load r (f.slot k)]
    | none => [.alu .xor r r]
  | .global name => [.load r (.rip (globalSymbol name))]
  | .int value => [.movImm r value]
  | .float value => [.movImm r value.bits.toInt64]
  | .bool value => [.movImm r (if value then 1 else 0)]
  | .str index => [.lea r (.rip (stringSymbol index))]

/-- The instructions that bring a register into a destination. -/
def store (f : Frame) (dst : Place) (r : Reg) : Insts :=
  match dst with
  | .var name =>
    match f.allocation.location? name with
    | some (.reg d) => if d = r then [] else [.mov d r]
    | some (.slot k) => [.store (f.slot k) r]
    | none => []
  | .global name => [.store (.rip (globalSymbol name)) r]

/-- The instructions of a call: six arguments in registers, the others on the stack, the last
one first, such that the stack pointer is a multiple of sixteen at the call. -/
def call (f : Frame) (callee : String) (args : List Operand) : Insts :=
  let onStack := args.drop Reg.arguments.length
  let padding := onStack.length % 2
  let cleanup := 8 * (onStack.length + padding)
  (if padding = 1 then [.aluImm .sub .rsp 8] else []) ++
    onStack.reverse.flatMap (fun a => f.load .rax a ++ [.push .rax]) ++
    (args.zip Reg.arguments).flatMap (fun (a, r) => f.load r a) ++
    [.call callee] ++
    (if cleanup > 0 then [.aluImm .add .rsp (.ofNat cleanup)] else [])

end Frame

def codeLabel (number : Nat) : String :=
  s!".c{number}"

/-- Puts one or zero into `rax`, as the condition holds or not. -/
def setRax (cond : Cond) : Insts :=
  [.setcc cond .rax, .movByte .rax .rax]

/-- Does the operation jump within its code? -/
def needsLabel (op : BinOp) (ty : WordType) : Bool :=
  ty != .f64 && (op == .floorDiv || op == .mod)

/-- Corrects the quotient in `rax` or the remainder in `rdx` of a division by `rcx` when the
remainder and the divisor have different signs. -/
def roundDown (done : String) (correction : Inst String) : Insts :=
  [.test .rdx .rdx, .jcc .e done, .mov .r10 .rdx, .alu .xor .r10 .rcx, .jcc .ns done, correction,
    .label done]

/-- An operation on the integers in `rax` and `rcx`, with the result in `rax`; `done` is a
label that is not used elsewhere. -/
def intBinary (done : String) : BinOp → Insts
  | .add => [.alu .add .rax .rcx]
  | .sub => [.alu .sub .rax .rcx]
  | .and => [.alu .and .rax .rcx]
  | .or => [.alu .or .rax .rcx]
  | .xor => [.alu .xor .rax .rcx]
  | .mul => [.imul .rax .rcx]
  | .div => [.cqo, .unary .idiv .rcx]
  | .rem => [.cqo, .unary .idiv .rcx, .mov .rax .rdx]
  | .floorDiv => [.cqo, .unary .idiv .rcx] ++ roundDown done (.aluImm .sub .rax 1)
  | .mod =>
    [.cqo, .unary .idiv .rcx] ++ roundDown done (.alu .add .rdx .rcx) ++ [.mov .rax .rdx]
  | .shl => [.shiftCl .shl .rax]
  | .shr => [.shiftCl .shr .rax]
  | .sar => [.shiftCl .sar .rax]
  | .eq => .alu .cmp .rax .rcx :: setRax .e
  | .ne => .alu .cmp .rax .rcx :: setRax .ne
  | .lt => .alu .cmp .rax .rcx :: setRax .l
  | .le => .alu .cmp .rax .rcx :: setRax .le
  | .gt => .alu .cmp .rax .rcx :: setRax .g
  | .ge => .alu .cmp .rax .rcx :: setRax .ge

/-- The first two registers for floating-point numbers. -/
def xmm0 : Xmm := ⟨0⟩

@[inherit_doc xmm0]
def xmm1 : Xmm := ⟨1⟩

/-- An operation on the numbers in `xmm0` and `xmm1`, with the result in `rax`, if there is
one.  A comparison with what is no number sets the carry, zero and parity flags, so that all
of them but `ne` are then false. -/
def floatOperation? : BinOp → Option Insts
  | .add => some [.sse .add xmm0 xmm1, .movqFrom .rax xmm0]
  | .sub => some [.sse .sub xmm0 xmm1, .movqFrom .rax xmm0]
  | .mul => some [.sse .mul xmm0 xmm1, .movqFrom .rax xmm0]
  | .div => some [.sse .div xmm0 xmm1, .movqFrom .rax xmm0]
  | .gt => some (.ucomisd xmm0 xmm1 :: setRax .a)
  | .ge => some (.ucomisd xmm0 xmm1 :: setRax .ae)
  | .lt => some (.ucomisd xmm1 xmm0 :: setRax .a)
  | .le => some (.ucomisd xmm1 xmm0 :: setRax .ae)
  | .eq =>
    some [.ucomisd xmm0 xmm1, .setcc .e .rax, .setcc .np .rcx, .alu .and .rax .rcx,
      .movByte .rax .rax]
  | .ne =>
    some [.ucomisd xmm0 xmm1, .setcc .ne .rax, .setcc .p .rcx, .alu .or .rax .rcx,
      .movByte .rax .rax]
  | _ => none

/-- An operation on the numbers whose words are in `rax` and `rcx`, with the result in
`rax`. -/
def floatBinary? (op : BinOp) : Option Insts :=
  (floatOperation? op).map ([.movqTo xmm0 .rax, .movqTo xmm1 .rcx] ++ ·)

/-- An operation on the word in `rax`, with the result there. -/
def unary (op : UnOp) (ty : WordType) : Insts :=
  match op with
  | .neg =>
    if ty = .f64 then [.movImm .rcx Int64.minValue, .alu .xor .rax .rcx]
    else [.unary .neg .rax]
  | .not => .test .rax .rax :: setRax .e
  | .intToFloat => [.cvtsi2sd xmm0 .rax, .movqFrom .rax xmm0]
  | .floatToInt => [.movqTo xmm0 .rax, .cvttsd2si .rax xmm0]

end Endmark.Code

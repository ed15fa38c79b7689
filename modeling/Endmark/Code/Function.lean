import Endmark.Code.Raw

/-!
# Code of functions

After the prologue of a function its frame looks as follows, for `n` saved registers:

* at `rbp + 16 + 8 k` the arguments past the sixth,
* at `rbp + 8` the return address,
* at `rbp` the frame pointer of the caller,
* at `rbp - 8 i` the saved registers, for `i` from one to `n`,
* at `rbp - 8 (n + 1 + k)` the slots.
-/

namespace Endmark.Code

open Machine (Reg Inst Mem)
open Ir (Instr Operand)

def allocRoutine : String := "__aim_alloc"

/-- The routine that takes memory back. -/
def freeRoutine : String := "__aim_free"

def epilogueLabel : String := ".epilogue"

/-- The machine label for a label of the intermediate language. -/
def labelFor (name : String) : String :=
  "." ++ name

/-- How many labels and raw blocks a function has had so far. -/
structure Counts where
  labels : Nat := 0
  raws : Nat := 0
deriving DecidableEq, Repr, Inhabited

/-- The counts behind an instruction. -/
def Counts.after (c : Counts) : Instr → Counts
  | .binary _ op ty _ _ => if needsLabel op ty then { c with labels := c.labels + 1 } else c
  | .raw _ _ _ => { c with raws := c.raws + 1 }
  | _ => c

/-- An offset that fits in 32 bits. -/
def displacement (offset : Int64) : Except Fault Int32 :=
  if Number.fitsSigned 32 offset.toInt then .ok (.ofInt offset.toInt)
  else .error (.offset offset.toInt)

def nextLabel? : List Instr → Option String
  | .label name :: _ => some name
  | _ => none

namespace Frame

/-- A branch, without a jump to what comes next. -/
def branch (f : Frame) (cond : Operand) (ifTrue ifFalse : String) (rest : List Instr) : Insts :=
  f.load .rax cond ++ [.test .rax .rax] ++
    if nextLabel? rest = some ifTrue then
      [.jcc .e (labelFor ifFalse)]
    else
      .jcc .ne (labelFor ifTrue) ::
        if nextLabel? rest = some ifFalse then [] else [.jmp (labelFor ifFalse)]

/-- The instructions of an operation on two operands. -/
def binary (f : Frame) (number : Nat) (op : Ir.BinOp) (ty : Ir.WordType) (lhs rhs : Operand) :
    Except Fault Insts :=
  let operands := f.load .rax lhs ++ f.load .rcx rhs
  if ty = .f64 then
    match floatBinary? op with
    | some insts => .ok (operands ++ insts)
    | none => .error (.floatOperation op)
  else
    .ok (operands ++ intBinary (codeLabel number) op)

/-- The code of an instruction, with those behind it in view. -/
def instr (f : Frame) (counts : Counts) (i : Instr) (rest : List Instr) : Except Fault Insts :=
  match i with
  | .label name => .ok [.label (labelFor name)]
  | .move dst _ src =>
    let r := (f.reg? dst).getD .rax
    .ok (f.load r src ++ f.store dst r)
  | .binary dst op ty lhs rhs =>
    (f.binary counts.labels op ty lhs rhs).map (· ++ f.store dst .rax)
  | .unary dst op ty src => .ok (f.load .rax src ++ unary op ty ++ f.store dst .rax)
  | .call dst callee args =>
    .ok (f.call callee args ++ (dst.map (f.store · .rax)).getD [])
  | .branch cond ifTrue ifFalse => .ok (f.branch cond ifTrue ifFalse rest)
  | .jump target =>
    .ok (if nextLabel? rest = some target then [] else [.jmp (labelFor target)])
  | .load dst _ base offset => do
    let disp ← displacement offset
    return f.load .rax base ++ [.load .rax (.offset .rax disp)] ++ f.store dst .rax
  | .store _ base offset value => do
    let disp ← displacement offset
    return f.load .rax base ++ f.load .rcx value ++ [.store (.offset .rax disp) .rcx]
  | .alloc dst size => .ok (f.call allocRoutine [size] ++ f.store dst .rax)
  | .free block => .ok (f.call freeRoutine [block])
  | .ret value =>
    let result := match value with
      | some v => f.load .rax v
      | none => [.alu .xor .rax .rax]
    .ok (result ++ if rest.isEmpty then [] else [.jmp epilogueLabel])
  | .raw dst text _ =>
    (f.raw counts.raws text).map (· ++ (dst.map (f.store · .rax)).getD [])

/-- The instructions that bring a parameter to its place. -/
def param (f : Frame) (index : Nat) (name : String) : Insts :=
  match f.allocation.location? name with
  | none => []
  | some loc =>
    let (before, src) : Insts × Reg := match Reg.arguments[index]? with
      | some r => ([], r)
      | none =>
        ([.load .rax (.offset .rbp (.ofNat (16 + 8 * (index - Reg.arguments.length))))], .rax)
    before ++ match loc with
      | .reg r => [.mov r src]
      | .slot k => [.store (f.slot k) src]

/-- The number of bytes of the slots, such that the stack pointer is a multiple of sixteen. -/
def slotBytes (f : Frame) : Nat :=
  8 * (f.allocation.slots + (f.allocation.saved.length + f.allocation.slots) % 2)

/-- The instructions at the start of a function. -/
def prologue (f : Frame) : Insts :=
  [.label f.function.name, .push .rbp, .mov .rbp .rsp] ++
    f.allocation.saved.map .push ++
    (if f.slotBytes > 0 then [.aluImm .sub .rsp (.ofNat f.slotBytes)] else []) ++
    f.function.params.zipIdx.flatMap fun (p, k) => f.param k p.name

/-- The instructions at the end of a function. -/
def epilogue (f : Frame) : Insts :=
  [.label epilogueLabel,
    .lea .rsp (.offset .rbp (.ofInt (-8 * (f.allocation.saved.length : Int))))] ++
    f.allocation.saved.reverse.map .pop ++ [.pop .rbp, .ret]

/-- The span of a fault: that of the raw block if it has one, or that of the function. -/
def faultSpan (f : Frame) : Instr → Span
  | .raw _ _ span => if span.isNowhere then f.function.span else span
  | _ => f.function.span

/-- The code of a body, with the faults in it. -/
def body (f : Frame) : Counts → List Instr → Insts × List Diagnostic
  | _, [] => ([], [])
  | counts, i :: rest =>
    let (insts, faults) := f.body (counts.after i) rest
    match f.instr counts i rest with
    | .ok first => (first ++ insts, faults)
    | .error fault => (insts, .error .codegen (f.faultSpan i) fault.message :: faults)

/-- The instructions of the function, or the faults in it. -/
def code (f : Frame) : Except (List Diagnostic) Insts :=
  let (insts, faults) := f.body {} f.function.body
  if faults.isEmpty then .ok (f.prologue ++ insts ++ f.epilogue) else .error faults

end Frame

end Endmark.Code

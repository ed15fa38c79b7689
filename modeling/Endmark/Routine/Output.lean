import Endmark.Code.Operation

/-!
# Output

A string is a word with its length, followed by its bytes.
-/

namespace Endmark.Routine

/-- Writes the `rsi` bytes at `rdi`; what the system did not take at once is tried again. -/
def write : Code.Insts :=
  [.label "__aim_write",
      .mov .rdx .rsi, .mov .rsi .rdi,
    .label ".again",
      .test .rdx .rdx, .jcc .e ".done", .movImm .rax 1, .movImm .rdi 1, .syscall,
      .aluImm .cmp .rax 0, .jcc .le ".done", .alu .add .rsi .rax, .alu .sub .rdx .rax,
      .jmp ".again",
    .label ".done",
      .ret]

/-- Writes the string at `rdi` and a line feed. -/
def printStr : Code.Insts :=
  [.label "__aim_print_str",
      .load .rsi (.offset .rdi 0), .aluImm .add .rdi 8, .call "__aim_write", .movImm .rax 10,
      .push .rax, .mov .rdi .rsp, .movImm .rsi 1, .call "__aim_write", .pop .rax, .ret]

end Endmark.Routine

import Endmark.Code.Operation

/-!
# Lists

A list is a word with its length, followed by a word for each item.
-/

namespace Endmark.Routine

/-- The lists at `rdi` and `rsi`, one after the other. -/
def listConcat : Code.Insts :=
  [.label "__aim_list_concat",
      .push .rdi, .push .rsi, .load .rax (.offset .rdi 0), .aluLoad .add .rax (.offset .rsi 0),
      .push .rax, .mov .rdi .rax, .shift .shl .rdi 3, .aluImm .add .rdi 8, .call "__aim_alloc",
      .pop .rcx, .store (.offset .rax 0) .rcx, .pop .rsi, .pop .rdx, .lea .rdi (.offset .rax 8),
      .load .rcx (.offset .rdx 0), .shift .shl .rcx 3, .push .rsi, .lea .rsi (.offset .rdx 8),
      .repMovsb, .pop .rsi, .load .rcx (.offset .rsi 0), .shift .shl .rcx 3,
      .aluImm .add .rsi 8, .repMovsb, .ret]

/-- The list of the integers from `rdi` to one less than `rsi`. -/
def range : Code.Insts :=
  [.label "__aim_range",
      .mov .rcx .rsi, .alu .sub .rcx .rdi, .test .rcx .rcx, .jcc .g ".sized",
      .alu .xor .rcx .rcx,
    .label ".sized",
      .push .rdi, .push .rcx, .mov .rdi .rcx, .shift .shl .rdi 3, .aluImm .add .rdi 8,
      .call "__aim_alloc", .pop .rcx, .pop .rdx, .store (.offset .rax 0) .rcx,
      .alu .xor .rsi .rsi,
    .label ".fill",
      .alu .cmp .rsi .rcx, .jcc .ge ".done", .store (.base .rax (some (.rsi, 8)) 8) .rdx,
      .unary .inc .rdx, .unary .inc .rsi, .jmp ".fill",
    .label ".done",
      .ret]

end Endmark.Routine

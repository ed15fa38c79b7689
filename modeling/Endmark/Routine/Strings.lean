import Endmark.Code.Operation

/-!
# Strings

A string is a word with its length, followed by its bytes.
-/

namespace Endmark.Routine

def strFromBytes : Code.Insts :=
  [.label "__aim_str_from_bytes",
      .push .rdi, .push .rsi, .lea .rdi (.offset .rsi 8), .call "__aim_alloc", .pop .rcx,
      .pop .rsi, .store (.offset .rax 0) .rcx, .lea .rdi (.offset .rax 8), .repMovsb, .ret]

/-- The strings at `rdi` and `rsi`, one after the other. -/
def strConcat : Code.Insts :=
  [.label "__aim_str_concat",
      .push .rdi, .push .rsi, .load .rax (.offset .rdi 0), .aluLoad .add .rax (.offset .rsi 0),
      .push .rax, .lea .rdi (.offset .rax 8), .call "__aim_alloc", .pop .rcx,
      .store (.offset .rax 0) .rcx, .pop .rsi, .pop .rdx, .lea .rdi (.offset .rax 8),
      .load .rcx (.offset .rdx 0), .push .rsi, .lea .rsi (.offset .rdx 8), .repMovsb, .pop .rsi,
      .load .rcx (.offset .rsi 0), .aluImm .add .rsi 8, .repMovsb, .ret]

/-- One when the strings at `rdi` and `rsi` are equal, zero when they are not. -/
def strEq : Code.Insts :=
  [.label "__aim_str_eq",
      .load .rcx (.offset .rdi 0), .aluLoad .cmp .rcx (.offset .rsi 0), .jcc .ne ".differ",
      .aluImm .add .rdi 8, .aluImm .add .rsi 8,
    .label ".next",
      .test .rcx .rcx, .jcc .e ".same", .loadByte .rax (.offset .rdi 0),
      .loadByte .rdx (.offset .rsi 0), .alu .cmp .rax .rdx, .jcc .ne ".differ",
      .unary .inc .rdi, .unary .inc .rsi, .unary .dec .rcx, .jmp ".next",
    .label ".same",
      .movImm .rax 1, .ret,
    .label ".differ",
      .alu .xor .rax .rax, .ret]

/-- The string of the one byte with index `rsi` in the string at `rdi`. -/
def strIndex : Code.Insts :=
  [.label "__aim_str_index",
      .push .rdi, .call "__aim_check_index", .pop .rdi,
      .lea .rdi (.base .rdi (some (.rax, 1)) 8), .movImm .rsi 1, .jmp "__aim_str_from_bytes"]

/-- The index `rsi` in the sequence at `rdi`, where a negative one counts from the end.  One that
is out of bounds ends the program. -/
def checkIndex : Code.Insts :=
  [.label "__aim_check_index",
      .mov .rax .rsi, .load .rcx (.offset .rdi 0), .test .rax .rax, .jcc .ns ".check",
      .alu .add .rax .rcx,
    .label ".check",
      .alu .cmp .rax .rcx, .jcc .ae ".fail", .ret,
    .label ".fail",
      .aluImm .sub .rsp 16, .movImm .rax 0x7272457865646e49, .store (.offset .rsp 0) .rax,
      .movImm .rax 0x0a726f, .store (.offset .rsp 8) .rax, .movImm .rax 1, .movImm .rdi 2,
      .mov .rsi .rsp, .movImm .rdx 11, .syscall, .movImm .rax 60, .movImm .rdi 1, .syscall]

end Endmark.Routine

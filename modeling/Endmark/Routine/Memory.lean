import Endmark.Code.Operation

/-!
# Memory and the end of a program

Memory is taken from the system in chunks and handed out from the front of the last one.  It is
never given back before the program ends.  In front of each block stands its size.
-/

namespace Endmark.Routine

/-- Provides a block of `rdi` bytes, whose address is eight more than a multiple of sixteen.  With
the word for its size it is rounded up to a multiple of sixteen.  A chunk has a mebibyte, or
the size of a block that needs more. -/
def alloc : Code.Insts :=
  [.label "__aim_alloc",
      .lea .rax (.offset .rdi 23), .aluImm .and .rax (-16), .load .rcx (.rip "__aim_heap.ptr"),
      .mov .rdx .rcx, .alu .add .rdx .rax, .aluLoad .cmp .rdx (.rip "__aim_heap.end"),
      .jcc .a ".grow", .store (.rip "__aim_heap.ptr") .rdx, .store (.offset .rcx 0) .rdi,
      .lea .rax (.offset .rcx 8), .ret,
    .label ".grow",
      .push .rdi, .push .rax, .movImm .rsi 1048576, .alu .cmp .rax .rsi, .jcc .be ".map",
      .mov .rsi .rax,
    .label ".map",
      .push .rsi, .movImm .rax 9, .alu .xor .rdi .rdi, .movImm .rdx 3, .movImm .r10 34,
      .movImm .r8 (-1), .alu .xor .r9 .r9, .syscall, .pop .rsi, .pop .rdx, .pop .rdi,
      .aluImm .cmp .rax (-4096), .jcc .a ".oom", .lea .rcx (.base .rax (some (.rdx, 1)) 0),
      .store (.rip "__aim_heap.ptr") .rcx, .alu .add .rsi .rax,
      .store (.rip "__aim_heap.end") .rsi, .store (.offset .rax 0) .rdi, .aluImm .add .rax 8,
      .ret,
    .label ".oom",
      .aluImm .sub .rsp 16, .movImm .rax 0x724579726f6d654d, .store (.offset .rsp 0) .rax,
      .movImm .rax 0x0a726f72, .store (.offset .rsp 8) .rax, .movImm .rax 1, .movImm .rdi 2,
      .mov .rsi .rsp, .movImm .rdx 12, .syscall, .movImm .rax 60, .movImm .rdi 1, .syscall]

/-- Takes a block back, which does nothing. -/
def free : Code.Insts :=
  [.label "__aim_free",
      .ret]

/-- Ends the program with the status in `rdi`. -/
def exit : Code.Insts :=
  [.label "__aim_exit",
      .movImm .rax 60, .syscall]

end Endmark.Routine

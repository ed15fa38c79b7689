import Endmark.Code.Operation

/-!
# Numbers

Powers of integers, and the texts of numbers.
-/

namespace Endmark.Routine

open Code (xmm0 xmm1)

/-- The power of `rdi` with exponent `rsi`, by squaring; it is zero for a negative exponent. -/
def powInt : Code.Insts :=
  [.label "__aim_pow_int",
      .movImm .rax 1, .test .rsi .rsi, .jcc .s ".negative",
    .label ".next",
      .test .rsi .rsi, .jcc .e ".done", .mov .rcx .rsi, .aluImm .and .rcx 1, .jcc .e ".square",
      .imul .rax .rdi,
    .label ".square",
      .imul .rdi .rdi, .shift .shr .rsi 1, .jmp ".next",
    .label ".done",
      .ret,
    .label ".negative",
      .alu .xor .rax .rax, .ret]

/-- The decimal text of the integer `rdi`.  Digits are taken from its absolute value without a
sign, which fits also for the least integer. -/
def intToStr : Code.Insts :=
  [.label "__aim_int_to_str",
      .aluImm .sub .rsp 32, .mov .rax .rdi, .lea .rsi (.offset .rsp 32), .movImm .rcx 10,
      .test .rax .rax, .jcc .ns ".digits", .unary .neg .rax,
    .label ".digits",
      .alu .xor .rdx .rdx, .unary .div .rcx, .aluImm .add .rdx 48, .unary .dec .rsi,
      .storeByte (.offset .rsi 0) .rdx, .test .rax .rax, .jcc .ne ".digits", .test .rdi .rdi,
      .jcc .ns ".emit", .unary .dec .rsi, .storeByteImm (.offset .rsi 0) 45,
    .label ".emit",
      .lea .rdx (.offset .rsp 32), .alu .sub .rdx .rsi, .mov .rdi .rsi, .mov .rsi .rdx,
      .call "__aim_str_from_bytes", .aluImm .add .rsp 32, .ret]

set_option maxRecDepth 1024 in
/-- The decimal text of the floating-point number `rdi`: with an exponent from `1e16` on, without
a fraction from `9e12` on, else with up to six places, of which zeros at the end but the first
are left out. -/
def floatToStr : Code.Insts :=
  [.label "__aim_float_to_str",
      .aluImm .sub .rsp 64, .movqTo xmm0 .rdi, .ucomisd xmm0 xmm0, .jcc .p ".nan",
      .mov .rax .rdi, .shift .shl .rax 1, .shift .shr .rax 1, .movImm .rcx 0x7ff0000000000000,
      .alu .cmp .rax .rcx, .jcc .e ".inf", .movqTo xmm0 .rax, .alu .xor .r11 .r11,
      .movImm .rcx 0x4341c37937e08000, .movqTo xmm1 .rcx, .ucomisd xmm0 xmm1, .jcc .b ".fixed",
      .movImm .rcx 0x4024000000000000, .movqTo xmm1 .rcx,
    .label ".scale",
      .sse .div xmm0 xmm1, .unary .inc .r11, .ucomisd xmm0 xmm1, .jcc .ae ".scale",
      .jmp ".scaled",
    .label ".fixed",
      .movImm .rcx 0x42a05ef39b200000, .movqTo xmm1 .rcx, .ucomisd xmm0 xmm1, .jcc .b ".scaled",
      .cvttsd2si .r8 xmm0, .alu .xor .r9 .r9, .movImm .r10 1, .jmp ".write",
    .label ".scaled",
      .movImm .rcx 0x412e848000000000, .movqTo xmm1 .rcx, .sse .mul xmm0 xmm1,
      .cvtsd2si .rax xmm0, .movImm .rcx 1000000, .alu .xor .rdx .rdx, .unary .div .rcx,
      .mov .r8 .rax, .mov .r9 .rdx, .movImm .r10 6,
    .label ".trim",
      .aluImm .cmp .r10 1, .jcc .e ".write", .mov .rax .r9, .alu .xor .rdx .rdx,
      .movImm .rcx 10, .unary .div .rcx, .test .rdx .rdx, .jcc .ne ".write", .mov .r9 .rax,
      .unary .dec .r10, .jmp ".trim",
    .label ".write",
      .lea .rsi (.offset .rsp 64), .movImm .rcx 10, .test .r11 .r11, .jcc .e ".fraction",
      .mov .rax .r11,
    .label ".exponent",
      .alu .xor .rdx .rdx, .unary .div .rcx, .aluImm .add .rdx 48, .unary .dec .rsi,
      .storeByte (.offset .rsi 0) .rdx, .test .rax .rax, .jcc .ne ".exponent", .unary .dec .rsi,
      .storeByteImm (.offset .rsi 0) 43, .unary .dec .rsi, .storeByteImm (.offset .rsi 0) 101,
      .test .r9 .r9, .jcc .e ".integer",
    .label ".fraction",
      .mov .rax .r9,
    .label ".fraction_digit",
      .alu .xor .rdx .rdx, .unary .div .rcx, .aluImm .add .rdx 48, .unary .dec .rsi,
      .storeByte (.offset .rsi 0) .rdx, .unary .dec .r10, .jcc .ne ".fraction_digit",
      .unary .dec .rsi, .storeByteImm (.offset .rsi 0) 46,
    .label ".integer",
      .mov .rax .r8,
    .label ".integer_digit",
      .alu .xor .rdx .rdx, .unary .div .rcx, .aluImm .add .rdx 48, .unary .dec .rsi,
      .storeByte (.offset .rsi 0) .rdx, .test .rax .rax, .jcc .ne ".integer_digit",
      .jmp ".sign",
    .label ".nan",
      .lea .rsi (.offset .rsp 61), .storeByteImm (.offset .rsi 0) 110,
      .storeByteImm (.offset .rsi 1) 97, .storeByteImm (.offset .rsi 2) 110, .jmp ".emit",
    .label ".inf",
      .lea .rsi (.offset .rsp 61), .storeByteImm (.offset .rsi 0) 105,
      .storeByteImm (.offset .rsi 1) 110, .storeByteImm (.offset .rsi 2) 102,
    .label ".sign",
      .test .rdi .rdi, .jcc .ns ".emit", .unary .dec .rsi, .storeByteImm (.offset .rsi 0) 45,
    .label ".emit",
      .lea .rdx (.offset .rsp 64), .alu .sub .rdx .rsi, .mov .rdi .rsi, .mov .rsi .rdx,
      .call "__aim_str_from_bytes", .aluImm .add .rsp 64, .ret]

end Endmark.Routine

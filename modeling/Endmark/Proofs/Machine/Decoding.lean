import Endmark.Proofs.Machine.Encoding
import Endmark.Proofs.Number.Bytes

/-!
# Instructions read back from their bytes

Whatever follows the bytes of an instruction, decoding finds the instruction, with the
distance in its field as its target, and what follows.  So no encoding starts with another
one, and code determines its instructions once it is known which symbols are meant.
-/

namespace Endmark.Machine

open Option
open Number
open Inst

variable {m : Mem σ} {i : Inst σ}

namespace Decoding

open Encoding (Operand Form fields rex dispSize dispMode scaleBits?)

/-! ### Numbers -/

theorem number?_append (h : bytes.length = size) {rest : List UInt8} :
  number? size (bytes ++ rest) = some (signed bytes, rest)
  := by
  subst h
  simp [number?]

/-- A number that fits in its field is read back. -/
theorem number?_littleEndianInt (hsize : 0 < size) (h : fitsSigned (8 * size) n) :
  number? size (littleEndianInt size n ++ rest) = some (n, rest)
  := by
  rw [number?_append length_littleEndianInt, signed_littleEndianInt hsize h]

theorem signed_replicate_zero :
  signed (.replicate size 0) = 0
  := by
  have hzero : ofLittleEndian (.replicate size 0) = 0 := by
    induction size with
    | zero => rfl
    | succ size ih =>
      rw [List.replicate_succ, ofLittleEndian, ih]
      rfl
  rw [signed, hzero]
  simp

/-- A field that is still empty holds the distance zero. -/
theorem number?_zero :
  number? size (.replicate size 0 ++ rest) = some (0, rest)
  := by
  rw [number?_append List.length_replicate, signed_replicate_zero]

theorem fitsSigned_toInt32 {i : Int32} :
  fitsSigned 32 i.toInt
  := by
  rw [fitsSigned_iff]
  exact ⟨i.le_toInt, i.toInt_lt⟩

theorem fitsSigned_toInt64 {i : Int64} :
  fitsSigned 64 i.toInt
  := by
  rw [fitsSigned_iff]
  exact ⟨i.le_toInt, i.toInt_lt⟩

/-- A byte is read back, whatever sign it is read with. -/
theorem number?_byte (b : UInt8) (rest : List UInt8) :
  ∃ n, number? 1 (b :: rest) = some (n, rest) ∧ (n % 256).toNat.toUInt8 = b
  := by
  have hlength : [b].length = 1 := rfl
  refine ⟨_, number?_append hlength, ?_⟩
  have hbytes : signed [b] = (b.toNat : Int).bmod 256 := by
    simp [signed, ofLittleEndian]
  have hlt := b.toNat_lt
  have hmod : (b.toNat : Int).bmod 256 % 256 = b.toNat % 256 :=
    Int.bmod_emod (m := 256)
  rw [hbytes, hmod, Int.emod_eq_of_lt (by omega) (by omega)]
  simp

/-! ### Fields and displacements -/

@[simp]
theorem toNat_fields (high middle low : Nat) :
  (fields high middle low).toNat / 64 = high % 4 ∧
    (fields high middle low).toNat / 8 % 8 = middle % 8 ∧
    (fields high middle low).toNat % 8 = low % 8
  := by
  have hbyte : (fields high middle low).toNat = high % 4 * 64 + middle % 8 * 8 + low % 8 := by
    rw [fields]
    simp only [UInt8.toNat_ofNat']
    omega
  omega

theorem dispMode_dispSize_lt (base : Reg) (disp : Int32) :
  dispMode (dispSize base disp) < 3
  := by
  unfold dispSize
  split
  · decide
  · split <;> decide

/-- Without a byte for it there is no displacement, and then the base is not taken for a place
relative to the next instruction. -/
theorem not_dispMode_dispSize_zero (base : Reg) (disp : Int32) :
  ¬ (dispMode (dispSize base disp) = 0 ∧ base.low = 5)
  := by
  unfold dispSize
  split
  · rename_i hzero
    exact fun h => hzero.2 h.2
  · split <;> simp [dispMode]

/-- A displacement is read back. -/
theorem displacement?_address (base : Reg) (disp : Int32) (rest : List UInt8) :
  displacement? (dispMode (dispSize base disp))
    (littleEndianInt (dispSize base disp) disp.toInt ++ rest) = some (disp, rest)
  := by
  unfold dispSize
  split
  · rename_i hzero
    rw [hzero.1]
    rfl
  · split
    · rename_i hfits
      simp only [dispMode, displacement?]
      rw [number?_littleEndianInt (by decide) hfits]
      simp
    · simp only [dispMode, displacement?]
      rw [number?_littleEndianInt (by decide) fitsSigned_toInt32]
      simp

end Decoding

/-! ### The parts of an instruction -/

namespace Encoding

open Decoding (Head)

/-- The head of an instruction with these parts. -/
def Form.head (f : Form σ) : Head :=
  ⟨f.lead.head?, f.wide, 8 * (f.reg / 8), 8 * (f.operand.codes.1 / 8), 8 * (f.operand.codes.2 / 8)⟩

/-- The bytes up to the opcode. -/
def Form.opening (f : Form σ) : List UInt8 :=
  let extension := rex f.wide f.reg f.operand.codes.1 f.operand.codes.2
  f.lead ++ (if extension ≠ 0x40 ∨ f.forceRex then [extension.toUInt8] else []) ++ f.opcode

/-- The operand with what stands for an address replaced. -/
def Operand.map {τ : Type} (f : σ → τ) : Operand σ → Operand τ
  | .reg code => .reg code
  | .mem m => .mem (m.map f)

/-- May the byte be a lead byte or an extension byte? -/
def isHeadByte (b : UInt8) : Bool :=
  b == 0x66 || b == 0xF2 || b == 0xF3 || b &&& 0xF0 == 0x40

/-- The parts are those of an instruction: its codes are those of registers, and it can be
told where its opcode starts. -/
structure Form.Regular (f : Form σ) : Prop where
  reg : f.reg < 16
  operand : ∀ code, f.operand = .reg code → code < 16
  lead : f.lead = [] ∨ f.lead = [0x66] ∨ f.lead = [0xF2]
  opcode : ∃ b rest, f.opcode = b :: rest ∧ isHeadByte b = false

end Encoding

namespace Decoding

open Encoding

theorem head_of_extension {lead : List UInt8} (hlead : lead = [] ∨ lead = [0x66] ∨ lead = [0xF2])
    (hreg : reg / 8 < 2) (hindex : index / 8 < 2) (hrm : rm / 8 < 2) :
  head (lead ++ (rex wide reg index rm).toUInt8 :: rest) =
    (⟨lead.head?, wide, 8 * (reg / 8), 8 * (index / 8), 8 * (rm / 8)⟩, rest)
  := by
  unfold rex
  generalize reg / 8 = r at *
  generalize index / 8 = x at *
  generalize rm / 8 = m at *
  interval_cases r <;> interval_cases x <;> interval_cases m <;> cases wide <;>
    obtain rfl | rfl | rfl := hlead <;> rfl

theorem head_of_opcode {lead : List UInt8} (hlead : lead = [] ∨ lead = [0x66] ∨ lead = [0xF2])
    (hb : isHeadByte b = false) :
  head (lead ++ b :: rest) = (⟨lead.head?, false, 0, 0, 0⟩, b :: rest)
  := by
  simp only [isHeadByte, Bool.or_eq_false_iff, beq_eq_false_iff_ne] at hb
  obtain ⟨⟨⟨hb₁, hb₂⟩, hb₃⟩, hextension⟩ := hb
  obtain rfl | rfl | rfl := hlead
  · simp [head, lead, hb₁, hb₂, hb₃, hextension]
  · simp [head, lead, hextension]
  · simp [head, lead, hextension]

@[simp]
theorem code_lt {r : Reg} :
  r.code < 16
  := by
  cases r <;> decide

variable {f : Form σ}

theorem codes_lt (h : f.Regular) :
  f.operand.codes.1 < 16 ∧ f.operand.codes.2 < 16
  := by
  cases hoperand : f.operand with
  | reg code => exact ⟨Nat.succ_pos 15, h.operand code hoperand⟩
  | mem m =>
    cases m with
    | rip target => exact ⟨Nat.succ_pos 15, Nat.succ_pos 15⟩
    | base base index disp =>
      refine ⟨?_, code_lt⟩
      cases index with
      | none => exact Nat.succ_pos 15
      | some p => apply code_lt

@[simp]
theorem low_mod (r : Reg) :
  r.low % 8 = r.low
  := Nat.mod_mod r.code 8

theorem ofCode?_split (r : Reg) :
  Reg.ofCode? (8 * (r.code / 8) + r.low) = some r
  := by
  rw [Reg.low, Nat.div_add_mod, Reg.ofCode?_code]

theorem scaleBits?_eq_some (h : scaleBits? scale = some bits) :
  bits < 4 ∧ .pow 2 bits = scale
  := by
  unfold scaleBits? at h
  split at h <;> cases h <;> decide

/-- An index register is told from none by its fourth bit. -/
theorem index_code {r : Reg} (h : r ≠ .rsp) :
  8 * (r.code / 8) + r.low ≠ 4
  := by
  cases r <;> first | exact absurd rfl h | decide

theorem operands?_reg (hreg : h.reg = 8 * (reg / 8)) (hbase : h.base = 8 * (code / 8)) :
  operands? h (fields 3 reg code :: rest) = some (reg, .reg code, rest)
  := by
  simp [operands?, hreg, hbase, Nat.div_add_mod]

theorem operands?_rip (hreg : h.reg = 8 * (reg / 8)) :
  operands? h (fields 0 reg 5 :: [0, 0, 0, 0] ++ rest) = some (reg, .mem (.rip 0), rest)
  := by
  have hfield : number? 4 (0 :: 0 :: 0 :: 0 :: rest) = some (0, rest) := number?_zero
  simp [operands?, hreg, Nat.div_add_mod, hfield]

/-- A base and an index with a byte of their own are read back. -/
theorem scaled?_index (hscale : scaleBits? scale = some bits)
    (hr : r ≠ .rsp) (hindex : h.index = 8 * (r.code / 8)) (hbase : h.base = 8 * (base.code / 8))
    (hzero : ¬ (mode = 0 ∧ base.low = 5)) (hdisp : displacement? mode bytes = some (disp, rest)) :
  scaled? h mode (fields bits r.low base.low :: bytes) =
    some (.base base (some (r, scale)) disp, rest)
  := by
  obtain ⟨hbits, rfl⟩ := scaleBits?_eq_some hscale
  simp [scaled?, Nat.mod_eq_of_lt hbits, hzero, hbase, hindex, ofCode?_split, hdisp, index_code hr]

/-- A base that can only be given by a byte of its own is read back. -/
theorem scaled?_base (hlow : base.low = 4) (hindex : h.index = 0)
    (hbase : h.base = 8 * (base.code / 8)) (hdisp : displacement? mode bytes = some (disp, rest)) :
  scaled? h mode (0x24 :: bytes) = some (.base base none disp, rest)
  := by
  have hofCode := ofCode?_split base
  rw [hlow] at hofCode
  simp [scaled?, hindex, hbase, hofCode, hdisp]

/-- The registers and the displacement of a memory operand are read back. -/
theorem operands?_base (haddress : address reg base index disp = .ok bytes)
    (hreg : h.reg = 8 * (reg / 8)) (hindex : h.index = 8 * ((index.map (·.1.code)).getD 0 / 8))
    (hbase : h.base = 8 * (base.code / 8)) :
  operands? h (bytes ++ rest) = some (reg, .mem (.base base index disp), rest)
  := by
  have hmode := dispMode_dispSize_lt base disp
  have hzero := not_dispMode_dispSize_zero base disp
  have hdisp := displacement?_address base disp rest
  unfold address at haddress
  simp only at haddress
  generalize dispMode (dispSize base disp) = mode at *
  have hmod : mode % 4 = mode := by omega
  have hmode' : mode ≠ 3 := by omega
  cases index with
  | some p =>
    simp only at haddress
    split at haddress
    · cases haddress
    · rename_i hr
      split at haddress
      · rename_i bits hbits
        cases haddress
        have hscaled := scaled?_index hbits hr hindex hbase hzero hdisp
        simp [operands?, hmod, hmode', hreg, Nat.div_add_mod, hscaled]
      · cases haddress
  | none =>
    simp only at haddress
    split at haddress
    · rename_i hlow
      cases haddress
      have hscaled := scaled?_base hlow hindex hbase hdisp
      simp [operands?, hmod, hmode', hreg, Nat.div_add_mod, hscaled]
    · rename_i hlow
      cases haddress
      simp [operands?, hmod, hmode', hreg, Nat.div_add_mod, hlow, hzero, hbase, ofCode?_split, hdisp]

/-- The head of an instruction is read back, whether it has an extension byte or not. -/
theorem head_opening (hf : f.Regular) :
  head (f.opening ++ tail) = (f.head, f.opcode ++ tail)
  := by
  obtain ⟨hindex, hrm⟩ := codes_lt hf
  have hreg := hf.reg
  simp only [Form.opening]
  split
  · rw [List.append_assoc, List.append_assoc]
    exact head_of_extension hf.lead (by omega) (by omega) (by omega)
  · rename_i hplain
    rw [not_or] at hplain
    obtain ⟨b, more, hopcode, hb⟩ := hf.opcode
    have hrex := hplain.1
    unfold rex at hrex
    have hwide : f.wide = false := by
      cases hwide : f.wide with
      | false => rfl
      | true =>
        rw [hwide, Bool.toNat_true] at hrex
        omega
    have hzero : f.head = ⟨f.lead.head?, false, 0, 0, 0⟩ := by
      simp only [Form.head, hwide, Head.mk.injEq, true_and]
      omega
    rw [List.append_nil, hzero, hopcode, List.append_assoc]
    exact head_of_opcode hf.lead hb

/-- Instructions made of parts are read back part by part, whatever follows. -/
theorem head_encode (hf : f.Regular) (h : f.encode = .ok e) :
  ∃ tail, head (e.bytes ++ rest) = (f.head, f.opcode ++ tail) ∧
    operands? f.head tail = some (f.reg, f.operand.map fun _ => 0, f.imm ++ rest)
  := by
  obtain ⟨lead, wide, forceRex, opcode, reg, operand, imm⟩ := f
  cases operand with
  | reg code =>
    cases h
    refine ⟨fields 3 reg code :: (imm ++ rest), ?_, operands?_reg rfl rfl⟩
    rw [← head_opening hf, List.append_assoc]
    rfl
  | mem m =>
    cases m with
    | rip target =>
      cases h
      refine ⟨fields 0 reg 5 :: [0, 0, 0, 0] ++ (imm ++ rest), ?_, operands?_rip rfl⟩
      rw [← head_opening hf, List.append_assoc, List.append_assoc, List.append_assoc]
      rfl
    | base base index disp =>
      simp only [Form.encode] at h
      cases haddress : address reg base index disp with
      | error fault =>
        rw [haddress] at h
        cases h
      | ok bytes =>
        rw [haddress] at h
        cases h
        refine ⟨bytes ++ (imm ++ rest), ?_, operands?_base haddress rfl rfl rfl⟩
        rw [← head_opening hf, List.append_assoc, List.append_assoc]
        rfl

/-! ### Whole instructions -/

/-- An instruction is found when what comes after its head is found. -/
theorem decode?_eq {i : Inst Int} (hhead : head bytes = (h, body))
    (hbody : body? h body = some (i, rest)) (hwide : i.isWide = h.wide) :
  decode? bytes = some (i, rest)
  := by
  simp [decode?, hhead, hbody, hwide]

section

variable {lead : List UInt8} {e : Encoded σ} {i : Inst Int}

/-- An instruction made of parts is found when its operands are. -/
theorem decode?_form
    (he : Form.encode ⟨lead, wide, forceRex, b :: more, reg, operand, imm⟩ = .ok e)
    (hreg : reg < 16) (hcode : ∀ code, operand = .reg code → code < 16)
    (hlead : lead = [] ∨ lead = [0x66] ∨ lead = [0xF2]) (hb : isHeadByte b = false)
    (hwide : i.isWide = wide)
    (hi : ∀ h c tail, h.lead = lead.head? →
      operands? h (c :: tail) = some (reg, operand.map fun _ => 0, imm ++ rest) →
      body? h (b :: more ++ c :: tail) = some (i, rest)) :
  decode? (e.bytes ++ rest) = some (i, rest)
  := by
  obtain ⟨tail, hhead, ho⟩ := head_encode ⟨hreg, hcode, hlead, b, more, rfl, hb⟩ he
  cases tail with
  | nil => cases ho
  | cons c tail => exact decode?_eq hhead (hi _ c tail rfl ho) hwide

theorem decode?_reg
    (he : Form.encode (σ := σ) ⟨lead, wide, forceRex, b :: more, reg, .reg code, imm⟩ = .ok e)
    (hi : ∀ h c tail, h.lead = lead.head? →
      operands? h (c :: tail) = some (reg, .reg code, imm ++ rest) →
        body? h (b :: more ++ c :: tail) = some (i, rest))
    (hreg : reg < 16 := by simp) (hcode : code < 16 := by simp)
    (hlead : lead = [] ∨ lead = [0x66] ∨ lead = [0xF2] := by decide)
    (hb : isHeadByte b = false := by decide) (hwide : i.isWide = wide := by rfl) :
  decode? (e.bytes ++ rest) = some (i, rest)
  := by
  apply decode?_form he hreg _ hlead hb hwide hi
  rintro _ ⟨⟩
  exact hcode

theorem decode?_mem (he : Form.encode ⟨[], wide, forceRex, b :: more, reg, .mem m, imm⟩ = .ok e)
    (hi : ∀ h c tail, h.lead = none →
      operands? h (c :: tail) = some (reg, .mem (m.map fun _ => 0), imm ++ rest) →
        body? h (b :: more ++ c :: tail) = some (i, rest)) (hreg : reg < 16 := by simp)
    (hb : isHeadByte b = false := by decide) (hwide : i.isWide = wide := by rfl) :
  decode? (e.bytes ++ rest) = some (i, rest)
  := decode?_form he hreg nofun (.inl rfl) hb hwide hi

end

theorem body?_first (hlead : h.lead = none) (hb : b ≠ 0x0F) :
  body? h (b :: tail) = first? h b tail
  := by
  cases tail with
  | nil => simp [body?, hlead]
  | cons c tail => simp [body?, hlead, hb]

end Decoding

namespace Inst

/-- Is it a label between instructions? -/
def isLabel : Inst σ → Bool
  | label _ => true
  | _ => false

open Decoding Encoding

attribute [local simp] immediate? Reg.ofCode?_code

/-! ### Instructions with a number -/

/-- An immediate is read back in each of its widths. -/
theorem decode?_movImm (he : (movImm d imm : Inst σ).encode short = .ok e) :
  decode? (e.bytes ++ rest) = some (.movImm d imm, rest)
  := by
  simp only [encode] at he
  split at he
  · rename_i hfits
    have hn : number? 4 (littleEndianInt 4 imm.toInt ++ rest) = some (imm.toInt, rest) :=
      number?_littleEndianInt (by decide) hfits
    apply decode?_reg he
    intro h c tail hlead ho
    simp [body?, first?, hlead, ho, hn]
  · cases he
    have hnumber : number? 8 (littleEndianInt 8 imm.toInt ++ rest) = some (imm.toInt, rest) :=
      number?_littleEndianInt (by decide) fitsSigned_toInt64
    rw [List.cons_append, List.cons_append]
    generalize littleEndianInt 8 imm.toInt ++ rest = tail at hnumber
    have hhead : head ((0x48 + d.code / 8).toUInt8 :: opcodeWith 0xB8 d.low :: tail) =
        (⟨none, true, 0, 0, 8 * (d.code / 8)⟩, opcodeWith 0xB8 d.low :: tail) := by
      cases d <;> rfl
    apply decode?_eq hhead _ rfl
    rw [body?_first rfl (by cases d <;> decide)]
    have hfirst : first? ⟨none, true, 0, 0, 8 * (d.code / 8)⟩ (opcodeWith 0xB8 d.low) tail =
        (number? 8 tail).bind fun p => some (.movImm d (.ofInt p.1), p.2) := by
      cases d <;> rfl
    rw [hfirst, hnumber]
    simp

theorem number?_imm32 {imm : Int32} :
  number? 4 (imm32 imm ++ rest) = some (imm.toInt, rest)
  := number?_littleEndianInt (by decide) fitsSigned_toInt32

/-- The number of an operation is read back in whichever size it has. -/
theorem exists_aluImmediate (imm : Int32) (rest : List UInt8) :
  ∃ b bytes size, aluImmediate imm = (b, bytes) ∧ isHeadByte b = false ∧
    number? size (bytes ++ rest) = some (imm.toInt, rest) ∧
      ∀ h c tail, h.lead = none → body? h (b :: c :: tail) = aluImmediate? h size (c :: tail)
  := by
  unfold aluImmediate
  split
  · rename_i hfits
    refine ⟨0x83, _, 1, rfl, rfl, number?_littleEndianInt (by decide) hfits, ?_⟩
    exact fun _ c tail hlead => body?_first hlead (by decide)
  · refine ⟨0x81, _, 4, rfl, rfl, number?_imm32, ?_⟩
    exact fun _ c tail hlead => body?_first hlead (by decide)

theorem code_lt_of_aluOp :
  op.code < 16 ∧ aluOp? (op.code % 8) = some op
  := by
  cases op <;> decide

theorem decode?_aluImm (he : (aluImm op d imm : Inst σ).encode short = .ok e) :
  decode? (e.bytes ++ rest) = some (.aluImm op d imm, rest)
  := by
  obtain ⟨hcode, hop⟩ := code_lt_of_aluOp
  obtain ⟨b, bytes, size, himm, hb, hn, hbody⟩ := exists_aluImmediate imm rest
  simp only [encode, himm] at he
  refine decode?_reg he ?_ hcode code_lt (.inl rfl) hb
  intro h c tail hlead ho
  simp [hbody h c tail hlead, aluImmediate?, ho, hn, hop]

theorem decode?_aluStoreImm (he : (aluStoreImm op m imm).encode short = .ok e) :
  decode? (e.bytes ++ rest) = some (.aluStoreImm op (m.map fun _ => 0) imm, rest)
  := by
  obtain ⟨hcode, hop⟩ := code_lt_of_aluOp
  obtain ⟨b, bytes, size, himm, hb, hn, hbody⟩ := exists_aluImmediate imm rest
  simp only [encode, himm] at he
  refine decode?_mem he ?_ hcode hb
  intro h c tail hlead ho
  simp [hbody h c tail hlead, aluImmediate?, ho, hn, hop]

/-! ### Jumps and the stack -/

variable {target : σ}

theorem decode?_branch
    (hhead : ∀ tail, head (opcode ++ tail) = (⟨none, false, 0, 0, 0⟩, opcode ++ tail))
    (hbody : ∀ tail, body? ⟨none, false, 0, 0, 0⟩ (opcode ++ tail) = branch? size f tail)
    (hwide : (f 0).isWide = false) :
  decode? ((branch opcode target size).bytes ++ rest) = some (f 0, rest)
  := by
  rw [branch, List.append_assoc]
  apply decode?_eq (hhead _) _ hwide
  rw [hbody, branch?, number?_zero]
  rfl

theorem decode?_jcc (he : (jcc c target).encode short = .ok e) {rest : List UInt8} :
  decode? (e.bytes ++ rest) = some (.jcc c 0, rest)
  := by
  cases he
  cases short <;> cases c <;> exact decode?_branch (fun _ => rfl) (fun _ => rfl) rfl

theorem decode?_jmp (he : (jmp target).encode short = .ok e) :
  decode? (e.bytes ++ rest) = some (.jmp 0, rest)
  := by
  cases he
  cases short <;> exact decode?_branch (fun _ => rfl) (fun _ => rfl) rfl

theorem decode?_push {s : Reg} :
  decode? (stack 0x50 s ++ rest) = some (.push s, rest)
  := by
  cases s <;> cases rest <;> rfl

theorem decode?_pop :
  decode? (stack 0x58 d ++ rest) = some (.pop d, rest)
  := by
  cases d <;> cases rest <;> rfl

/-! ### All instructions -/

@[local simp]
theorem xmm_code_lt (x : Xmm) :
  x.code < 16
  := x.index.isLt

@[local simp]
theorem xmm?_code (x : Xmm) :
  xmm? x.code = some x
  := by
  simp [xmm?, Xmm.code]

attribute [local simp] body? first? second? either? registers? memory? map
  opcodeWith Cond.code cond? Cond.all AluOp.code aluOp? AluOp.all
  ShiftOp.code ShiftOp.all UnaryOp.code UnaryOp.opcode UnaryOp.all SseOp.opcode SseOp.all

/-- An encoded instruction is read back, with what follows it.  Its field is still empty, so
that its target is the distance zero. -/
theorem decode?_encode (he : i.encode short = .ok e) (hlabel : i.isLabel = false) :
  decode? (e.bytes ++ rest) = some (i.map fun _ => 0, rest)
  := by
  cases i with
  | label name => cases hlabel
  | movImm d imm => exact decode?_movImm he
  | aluImm op d imm => exact decode?_aluImm he
  | aluStoreImm op m imm => exact decode?_aluStoreImm he
  | mov | test | movByte | imul | movqTo | cvtsi2sd | movqFrom | cvttsd2si | cvtsd2si | ucomisd =>
    apply decode?_reg he
    intro h c tail hlead ho
    simp [hlead, ho]
  | cmov op | alu op | shiftCl op | unary op | setcc op | sse op =>
    cases op
    all_goals
      apply decode?_reg he
      intro h c tail hlead ho
      simp [hlead, ho, number?]
  | load | lea | store | storeByte | loadByte =>
    apply decode?_mem he
    intro h c tail hlead ho
    simp [hlead, ho]
  | aluLoad op | aluStore op =>
    cases op
    all_goals
      apply decode?_mem he
      intro h c tail hlead ho
      simp [hlead, ho]
  | storeImm m imm =>
    apply decode?_mem he
    intro h c tail hlead ho
    simp [hlead, ho, number?_imm32]
  | storeByteImm m imm =>
    obtain ⟨n, hn, himm⟩ := number?_byte imm rest
    apply decode?_mem he
    intro h c tail hlead ho
    simp [hlead, ho, hn, himm]
  | shift op d count =>
    obtain ⟨n, hn, hcount⟩ := number?_byte count rest
    cases op
    all_goals
      apply decode?_reg he
      intro h c tail hlead ho
      simp [hlead, ho, hn, hcount]
  | push s =>
    cases he
    apply decode?_push
  | pop d =>
    cases he
    apply decode?_pop
  | jmp target => exact decode?_jmp he
  | jcc c target => exact decode?_jcc he
  | call target =>
    cases he
    exact decode?_branch (fun _ => rfl) (fun _ => rfl) rfl
  | cqo | ret | syscall | nop | repMovsb | repStosb =>
    cases he
    cases rest <;> rfl

end Inst

/-! ### What bytes and fields tell -/

theorem Mem.target?_map {f : σ → τ} (m : Mem σ) :
  (m.map f).target? = m.target?.map f
  := by
  cases m <;> rfl

theorem Mem.map_map_of_target? {g : τ → σ} (h : ∀ t ∈ m.target?, g (f t) = t) :
  (m.map f).map g = m
  := by
  cases m with
  | base base index disp => rfl
  | rip target => exact congrArg rip (h target rfl)

namespace Inst

theorem reference?_map {f : σ → τ} {i : Inst σ} :
  (i.map f).reference? = i.reference?.map f
  := by
  cases i with
  | load _ m | store m _ | storeImm m _ | storeByte m _ | storeByteImm m _ | loadByte _ m
  | lea _ m | aluLoad _ _ m | aluStore _ m _ | aluStoreImm _ m _ => exact m.target?_map
  | _ => rfl

/-- An instruction is known by its form and by the symbol that it refers to. -/
theorem map_map_of_reference? {g : τ → σ} (h : ∀ t ∈ i.reference?, g (f t) = t)
    (hlabel : i.isLabel = false) :
  (i.map f).map g = i
  := by
  cases i with
  | label name => cases hlabel
  | load _ m | store m _ | storeImm m _ | storeByte m _ | storeByteImm m _ | loadByte _ m
  | lea _ m | aluLoad _ _ m | aluStore _ m _ | aluStoreImm _ m _ =>
    have hm : (m.map f).map g = m := Mem.map_map_of_target? h
    simp [map, hm]
  | jmp target | jcc _ target | call target =>
    simp [map, h target rfl]
  | _ => rfl

theorem eq_of_map_eq [Inhabited σ] (hi : i.isLabel = false) (hj : j.isLabel = false)
    (hmap : (i.map fun _ => (0 : Int)) = j.map fun _ => 0)
    (hreference : i.reference? = j.reference?) :
  i = j
  := by
  let g : Int → σ := fun _ => i.reference?.getD default
  have hg {k : Inst σ} (hk : k.reference? = i.reference?) : ∀ t ∈ k.reference?, g 0 = t := by
    intro t ht
    rw [hk] at ht
    simp [g, mem_def.mp ht]
  rw [← map_map_of_reference? (f := fun _ => 0) (g := g) (hg rfl) hi, hmap,
    map_map_of_reference? (hg hreference.symm) hj]

/-- The bytes and the field of an instruction in one of its forms.  Labels have none. -/
def Encodes (i : Inst σ) (e : Encoded σ) : Prop :=
  i.isLabel = false ∧ ∃ short, i.encode short = .ok e

variable {j : Inst σ}

theorem Encodes.decode? (h : i.Encodes e) (rest : List UInt8) :
  decode? (e.bytes ++ rest) = some (i.map fun _ => 0, rest)
  := by
  obtain ⟨hlabel, short, he⟩ := h
  apply decode?_encode he hlabel

theorem Encodes.reference? (h : i.Encodes e) :
  i.reference? = e.fixup.map (·.target)
  := by
  obtain ⟨_, short, he⟩ := h
  exact (encode_refers he).1.symm

theorem Encodes.bytes_ne_nil (h : i.Encodes e) :
  e.bytes ≠ []
  := by
  intro hnil
  have hdecode := h.decode? []
  rw [hnil] at hdecode
  cases hdecode

/-- Where two encodings start the same code, they have the same bytes and the same form. -/
theorem Encodes.of_append_eq (hi : i.Encodes e) (hj : j.Encodes d)
    (h : e.bytes ++ rest = d.bytes ++ more) :
  e.bytes = d.bytes ∧ rest = more ∧ (i.map fun _ => (0 : Int)) = j.map fun _ => 0
  := by
  have hdecode := hi.decode? rest
  rw [h, hj.decode? more] at hdecode
  simp only [some.injEq, Prod.mk.injEq] at hdecode
  obtain ⟨hmap, rfl⟩ := hdecode
  exact ⟨List.append_cancel_right h, rfl, hmap.symm⟩

end Inst

/-- The bytes of instructions one after the other, the first of them at an offset, and their
fields, each at its offset in all of the bytes. -/
def streamFrom : Nat → List (Encoded σ) → List UInt8 × List (Fixup σ)
  | _, [] => ([], [])
  | offset, e :: rest =>
    let (bytes, fixups) := streamFrom (offset + e.bytes.length) rest
    let field := e.fixup.map fun f => { f with offset := offset + f.offset }
    (e.bytes ++ bytes, field.toList ++ fixups)

/-- Fields that stand first among those of two codes belong to the first instructions, if both
of these have one or none. -/
theorem eq_of_fields_append {g : Option (Fixup σ)} (hsome : f.isSome = g.isSome)
    (h : f.toList ++ fs = g.toList ++ gs) :
  f = g ∧ fs = gs
  := by
  cases f <;> cases g <;> simp_all

/-- A stream of bytes comes from one list of instructions. -/
theorem eq_of_streamFrom_eq [Inhabited σ] {es ds : List (Encoded σ)}
    (hi : List.Forall₂ Encodes is es) (hj : List.Forall₂ Encodes js ds)
    (h : streamFrom offset es = streamFrom offset ds) :
  is = js
  := by
  induction hi generalizing js ds offset with
  | nil =>
    cases hj with
    | nil => rfl
    | cons hfirst hrest =>
      have hbytes := congrArg Prod.fst h
      simp [streamFrom, hfirst.bytes_ne_nil] at hbytes
  | @cons i e is es hi _ ih =>
    cases hj with
    | nil =>
      have hbytes := congrArg Prod.fst h
      simp [streamFrom, hi.bytes_ne_nil] at hbytes
    | @cons j d js ds hj hrest =>
      simp only [streamFrom, Prod.mk.injEq] at h
      obtain ⟨hbytes, hfields⟩ := h
      obtain ⟨hsame, hmore, hmap⟩ := hi.of_append_eq hj hbytes
      have hreferences : i.reference?.isSome = j.reference?.isSome := by
        have hmapped := congrArg reference? hmap
        rw [reference?_map, reference?_map] at hmapped
        simpa using congrArg isSome hmapped
      rw [hi.reference?, hj.reference?] at hreferences
      obtain ⟨hfield, hfields⟩ := eq_of_fields_append (by simpa using hreferences) hfields
      have htarget := congrArg (Option.map (·.target)) hfield
      simp only [map_map] at htarget
      have hfirst : i = j := by
        apply eq_of_map_eq hi.1 hj.1 hmap
        rw [hi.reference?, hj.reference?]
        apply htarget
      rw [hsame] at hmore hfields
      rw [hfirst, ih hrest (Prod.ext hmore hfields)]

/-- No encoding starts with another one, bytes and field tell the instruction, and so code
with its fields tells the instructions that it consists of. -/
theorem encodings_determine_instructions :
  (∀ (i j : Inst String) (e d : Encoded String), i.Encodes e → j.Encodes d →
    (e.bytes <+: d.bytes → e.bytes = d.bytes) ∧
      (e.bytes = d.bytes → e.fixup = d.fixup → i = j)) ∧
  ∀ (is js : List (Inst String)) (es ds : List (Encoded String)), List.Forall₂ Encodes is es →
    List.Forall₂ Encodes js ds → streamFrom 0 es = streamFrom 0 ds → is = js
  := by
  constructor
  · intro i j e d hi hj
    constructor
    · rintro ⟨rest, hrest⟩
      have happend : e.bytes ++ rest = d.bytes ++ [] := by
        rw [hrest, List.append_nil]
      apply (hi.of_append_eq hj happend).1
    · intro hbytes hfixup
      have hmap := (hi.of_append_eq hj (congrArg (· ++ []) hbytes)).2.2
      apply Inst.eq_of_map_eq hi.1 hj.1 hmap
      rw [hi.reference?, hj.reference?, hfixup]
  · intro is js es ds hi hj h
    apply eq_of_streamFrom_eq hi hj h

/-- A base whose code asks for a displacement and an index that is told from none only by its
extension bit, a short jump, and a place relative to the next instruction with a number behind
it. -/
theorem clearing_determined :
  (∃ es, List.Forall₂ Encodes [.storeByte (.base .r13 (some (.r12, 4)) 0) .rsi, .jcc .ne "more",
      .aluStoreImm .and (.rip "g.flags") (-2)] es ∧ streamFrom 0 es =
    ([0x43, 0x88, 0x74, 0xA5, 0, 0x75, 0, 0x48, 0x83, 0x25, 0, 0, 0, 0, 0xFE],
      [⟨6, "more", -1, 1⟩, ⟨10, "g.flags", -5, 4⟩])) ∧
  ∀ js ds, List.Forall₂ Encodes js ds → streamFrom 0 ds =
    ([0x43, 0x88, 0x74, 0xA5, 0, 0x75, 0, 0x48, 0x83, 0x25, 0, 0, 0, 0, 0xFE],
      [⟨6, "more", -1, 1⟩, ⟨10, "g.flags", -5, 4⟩]) →
    js = [.storeByte (.base .r13 (some (.r12, 4)) 0) .rsi, .jcc .ne "more",
      .aluStoreImm .and (.rip "g.flags") (-2)]
  := by
  have hes : List.Forall₂ Encodes [.storeByte (.base .r13 (some (.r12, 4)) 0) .rsi, .jcc .ne "more",
      .aluStoreImm .and (.rip "g.flags") (-2)]
      [⟨[0x43, 0x88, 0x74, 0xA5, 0], none⟩, ⟨[0x75, 0], some ⟨1, "more", -1, 1⟩⟩,
        ⟨[0x48, 0x83, 0x25, 0, 0, 0, 0, 0xFE], some ⟨3, "g.flags", -5, 4⟩⟩] :=
    .cons ⟨rfl, false, rfl⟩ (.cons ⟨rfl, true, rfl⟩ (.cons ⟨rfl, false, rfl⟩ .nil))
  constructor
  · exact ⟨_, hes, rfl⟩
  · intro js ds hds hstream
    exact (encodings_determine_instructions.2 _ _ _ _ hes hds (hstream.trans rfl).symm).symm

end Endmark.Machine

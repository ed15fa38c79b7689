import Endmark.Machine.Inst

/-!
# Reading assembly

One instruction a line, with the destination first; labels end with a colon, and comments
start with a semicolon, `#` or `//`.  Names of instructions and registers may be written in
capitals, symbols keep their case.
-/

namespace Endmark.Machine

/-- How many bytes a memory operand is said to have. -/
inductive Width where
  | byte
  | qword
deriving DecidableEq, Repr

/-- What is wrong with a line. -/
inductive LineFault where
  | operandSize (text : String)
  | unterminatedMemory (text : String)
  | operand (text : String)
  | scaledIndex (term : String)
  | scale (term : String)
  | index (inner : String)
  | subtracted (term : String)
  | tooManyRegisters (inner : String)
  | memoryTerm (term : String)
  | symbolAddress (name : String)
  | noSymbol
  | displacement (value : Int)
  | noBase (inner : String)
  | immediate (value : Int)
  | unsupportedOperands (name : String)
  | unknownInstruction (name : String)
deriving DecidableEq, Repr

def LineFault.message : LineFault → String
  | .operandSize text => s!"operand size in `{text}` is not supported"
  | .unterminatedMemory text => s!"unterminated memory operand `{text}`"
  | .operand text => s!"cannot parse operand `{text}`"
  | .scaledIndex term => s!"invalid scaled index `{term}`"
  | .scale term => s!"invalid scale in `{term}`"
  | .index inner => s!"invalid index in `[{inner}]`"
  | .subtracted term => s!"register `{term}` cannot be subtracted"
  | .tooManyRegisters inner => s!"too many registers in `[{inner}]`"
  | .memoryTerm term => s!"cannot parse `{term}` in memory operand"
  | .symbolAddress name => s!"symbol `{name}` can only be addressed rip-relative"
  | .noSymbol => "rip-relative operand needs a symbol"
  | .displacement value => s!"displacement {value} does not fit in 32 bits"
  | .noBase inner => s!"memory operand `[{inner}]` has no base register"
  | .immediate value => s!"immediate {value} does not fit in 32 bits"
  | .unsupportedOperands name => s!"unsupported operands for `{name}`"
  | .unknownInstruction name => s!"unknown instruction `{name}`"

namespace Asm

def isSymbolChar (c : Char) : Bool :=
  Text.isAlphanumeric c || c == '_' || c == '.' || c == '$'

def isSymbol (cs : List Char) : Bool :=
  !cs.isEmpty && cs.all isSymbolChar

/-- A line without its comment. -/
def dropComment : List Char → List Char
  | [] | ';' :: _ | '#' :: _ | '/' :: '/' :: _ => []
  | c :: cs => c :: dropComment cs

/-! ### Operands -/

/-- The parts of a text between commas outside of brackets, where `depth` brackets are open. -/
def splitFrom : Nat → List Char → List (List Char)
  | _, [] => [[]]
  | depth, c :: cs =>
    if c == ',' && depth == 0 then
      [] :: splitFrom 0 cs
    else
      let inner := if c == '[' then depth + 1 else if c == ']' then depth - 1 else depth
      match splitFrom inner cs with
      | part :: others => (c :: part) :: others
      | [] => [[c]]

/-- The operands, at the commas outside of brackets. -/
def splitOperands (cs : List Char) : List (List Char) :=
  if cs.isEmpty then [] else (splitFrom 0 cs).map Text.trim

/-- An integer without its sign: hexadecimal, binary, a character between quotes, or decimal,
where a second sign may stand. -/
def magnitude? (cs : List Char) : Option Int :=
  let wrapped (radix : Nat) (digits : List Char) :=
    (Number.readUnsigned radix Number.wordCount (digits.filter (· != '_'))).map fun n =>
      (Int64.ofNat n).toInt
  match cs with
  | '0' :: 'x' :: digits | '0' :: 'X' :: digits => wrapped 16 digits
  | '0' :: 'b' :: digits => wrapped 2 digits
  | _ =>
    let quoted := match cs with
      | ['\'', c, '\''] => if c.toNat < 128 then some (Int.ofNat c.toNat) else none
      | _ => none
    match quoted with
    | some value => some value
    | none => (Number.readInt64 10 (cs.filter (· != '_'))).map (·.toInt)

def int? (cs : List Char) : Option Int64 :=
  match cs with
  | '-' :: rest => (magnitude? (Text.trim rest)).map fun n => Int64.ofInt (-n)
  | _ => (magnitude? cs).map Int64.ofInt

/-- What stands in an instruction. -/
inductive Operand where
  | reg (r : Reg)
  | byteReg (r : Reg)
  | xmm (x : Xmm)
  | imm (value : Int64)
  | mem (mem : Mem String) (width : Option Width)
  | symbol (name : String)
deriving DecidableEq, Repr

/-- The terms of a sum, each with whether it is subtracted, given whether the first one is
and the characters of it that were read, the last one first. -/
def termsFrom (negative : Bool) (read : List Char) : List Char → List (Bool × List Char)
  | [] => close
  | c :: cs =>
    if c == '+' || c == '-' then close ++ termsFrom (c == '-') [] cs
    else termsFrom negative (c :: read) cs
where
  /-- The term that was read, unless it is blank. -/
  close : List (Bool × List Char) :=
    let term := Text.trim read.reverse
    if term.isEmpty then [] else [(negative, term)]

/-- What the terms of an address add up to. -/
structure Sum where
  base : Option Reg := none
  index : Option (Reg × Nat) := none
  disp : Int := 0
  symbol : Option String := none
  rip : Bool := false

/-- The register with the given name, in small letters. -/
def regNamed? (cs : List Char) : Option Reg :=
  Reg.ofName? (String.ofList (Text.trim cs))

/-- Adds a register with its scale. -/
def Sum.addScaled (s : Sum) (inner : String) (negative : Bool) (term : String)
    (before after : List Char) : Except LineFault Sum := do
  let (reg, scale) ← match regNamed? before, regNamed? after with
    | some r, none => .ok (r, after)
    | none, some r => .ok (r, before)
    | _, _ => .error (.scaledIndex term)
  match Number.readUnsigned 10 256 (Text.trim scale) with
  | none => .error (.scale term)
  | some n =>
    if negative || s.index.isSome then .error (.index inner)
    else .ok { s with index := some (reg, n) }

/-- The sum with a register: the first is the base, the second the index. -/
def Sum.addReg (s : Sum) (inner : String) (negative : Bool) (term : String) (r : Reg) :
    Except LineFault Sum :=
  if negative then .error (.subtracted term)
  else if s.base.isNone then .ok { s with base := some r }
  else if s.index.isNone then .ok { s with index := some (r, 1) }
  else .error (.tooManyRegisters inner)

/-- Adds a term between the brackets. -/
def Sum.add (inner : String) (s : Sum) (negative : Bool) (term : List Char) :
    Except LineFault Sum :=
  let lower := Text.lower term
  let text := String.ofList term
  if lower = "rip".toList then
    .ok { s with rip := true }
  else
    match Text.cut? '*' lower with
    | some (before, after) => s.addScaled inner negative text before after
    | none =>
      match Reg.ofName? (String.ofList lower) with
      | some r => s.addReg inner negative text r
      | none =>
        match int? term with
        | some v => .ok { s with disp := if negative then s.disp - v.toInt else s.disp + v.toInt }
        | none =>
          if term.all isSymbolChar && !negative && s.symbol.isNone then
            .ok { s with symbol := some text }
          else
            .error (.memoryTerm text)

def Sum.addAll (inner : String) : Sum → List (Bool × List Char) → Except LineFault Sum
  | s, [] => .ok s
  | s, (negative, term) :: rest => do
    let s ← s.add inner negative term
    s.addAll inner rest

/-- The memory operand that a sum is.  A lone register that is not scaled is the base. -/
def Sum.mem (s : Sum) (inner : String) : Except LineFault (Mem String) :=
  match s.symbol with
  | some name =>
    if s.base.isSome || s.index.isSome || s.disp ≠ 0 then .error (.symbolAddress name)
    else .ok (.rip name)
  | none =>
    if s.rip then
      .error .noSymbol
    else if !Number.fitsSigned 32 s.disp then
      .error (.displacement s.disp)
    else
      match s.base, s.index with
      | some base, index => .ok (.base base index (.ofInt s.disp))
      | none, some (r, 1) => .ok (.base r none (.ofInt s.disp))
      | none, _ => .error (.noBase inner)

/-- The memory operand with the given text between brackets. -/
def readMem (inner : List Char) : Except LineFault (Mem String) := do
  let text := String.ofList inner
  let s ← Sum.addAll text {} (termsFrom false [] inner)
  s.mem text

/-- The words before a memory operand that give its width. -/
def widthWords : List (List Char × Width) :=
  [("qword ptr".toList, .qword), ("byte ptr".toList, .byte), ("qword".toList, .qword),
    ("byte".toList, .byte)]

/-- The width that a text starts with and the rest of the text, if a bracket follows. -/
def widthOf? (cs : List Char) : Option (Width × List Char) :=
  widthWords.findSome? fun (word, width) =>
    let rest := cs.drop word.length
    if word.isPrefixOf (Text.lower cs) && (Text.trimLeft rest).head? == some '[' then
      some (width, Text.trim rest)
    else
      none

/-- The text between an opening and a closing bracket. -/
def inBrackets? (cs : List Char) : Option (List Char) :=
  match cs with
  | '[' :: rest => if rest.getLast? == some ']' then some rest.dropLast else none
  | _ => none

/-- An operand without brackets. -/
def readPlain (cs : List Char) : Except LineFault Operand :=
  let name := String.ofList (Text.lower cs)
  match Reg.ofName? name with
  | some r => .ok (.reg r)
  | none =>
    match Reg.ofByteName? name with
    | some r => .ok (.byteReg r)
    | none =>
      match Xmm.ofName? name with
      | some x => .ok (.xmm x)
      | none =>
        match int? cs with
        | some v => .ok (.imm v)
        | none =>
          if isSymbol cs then .ok (.symbol (String.ofList cs))
          else .error (.operand (String.ofList cs))

/-- An operand, with its width in front of a place in memory. -/
def readOperand (cs : List Char) : Except LineFault Operand :=
  let lower := Text.lower cs
  let (width, body) := match widthOf? cs with
    | some (width, body) => (some width, body)
    | none => (none, cs)
  if "dword".toList.isPrefixOf lower || "word".toList.isPrefixOf lower then
    .error (.operandSize (String.ofList cs))
  else if body.head? == some '[' then
    match inBrackets? body with
    | some inner => (readMem inner).map (.mem · width)
    | none => .error (.unterminatedMemory (String.ofList cs))
  else
    readPlain cs

/-! ### Instructions -/

/-- An immediate number of four bytes. -/
def imm32 (v : Int64) : Except LineFault Int32 :=
  if Number.fitsSigned 32 v.toInt then .ok (.ofInt v.toInt) else .error (.immediate v.toInt)

/-- An operation that sets the flags. -/
def alu (op : AluOp) : List Operand → Except LineFault (Inst String)
  | [.reg d, .reg s] => .ok (.alu op d s)
  | [.reg d, .imm i] => (imm32 i).map (.aluImm op d)
  | [.reg d, .mem m _] => .ok (.aluLoad op d m)
  | [.mem m _, .reg s] => .ok (.aluStore op m s)
  | [.mem m (some .qword), .imm i] => (imm32 i).map (.aluStoreImm op m)
  | _ => .error (.unsupportedOperands op.name)

def shift (name : String) (op : ShiftOp) : List Operand → Except LineFault (Inst String)
  | [.reg r, .imm n] =>
    if 0 ≤ n.toInt ∧ n.toInt < 64 then .ok (.shift op r n.toInt.toNat.toUInt8)
    else .error (.unsupportedOperands name)
  | [.reg r, .byteReg .rcx] => .ok (.shiftCl op r)
  | _ => .error (.unsupportedOperands name)

/-- The instructions that are no family. -/
def fixedNames : List String :=
  ["mov", "movabs", "movzx", "lea", "imul", "test", "push", "pop", "jmp", "call", "cqo", "ret",
    "syscall", "nop", "rep", "movq", "ucomisd", "cvtsi2sd", "cvttsd2si", "cvtsd2si"]

def mov? : List Operand → Option (Except LineFault (Inst String))
  | [.reg d, .reg s] => some (.ok (.mov d s))
  | [.reg d, .imm i] => some (.ok (.movImm d i))
  | [.reg d, .mem m none] | [.reg d, .mem m (some .qword)] => some (.ok (.load d m))
  | [.mem m none, .reg s] | [.mem m (some .qword), .reg s] => some (.ok (.store m s))
  | [.mem m (some .qword), .imm i] => some ((imm32 i).map (.storeImm m))
  | [.mem m none, .byteReg s] | [.mem m (some .byte), .byteReg s] => some (.ok (.storeByte m s))
  | [.mem m (some .byte), .imm i] => some (.ok (.storeByteImm m i.toUInt64.toUInt8))
  | _ => none

/-- The instruction with a name of its own, its operands, and the text after the name in
small letters. -/
def fixed? (name : String) (rest : String) (operands : List Operand) :
    Option (Except LineFault (Inst String)) :=
  match name, operands with
  | "mov", _ => mov? operands
  | "movabs", [.reg d, .imm i] => some (.ok (.movImm d i))
  | "movzx", [.reg d, .mem m (some .byte)] => some (.ok (.loadByte d m))
  | "movzx", [.reg d, .byteReg s] => some (.ok (.movByte d s))
  | "lea", [.reg d, .mem m _] => some (.ok (.lea d m))
  | "imul", [.reg d, .reg s] => some (.ok (.imul d s))
  | "test", [.reg a, .reg b] => some (.ok (.test a b))
  | "push", [.reg r] => some (.ok (.push r))
  | "pop", [.reg r] => some (.ok (.pop r))
  | "jmp", [.symbol t] => some (.ok (.jmp t))
  | "call", [.symbol t] => some (.ok (.call t))
  | "cqo", [] => some (.ok .cqo)
  | "ret", [] => some (.ok .ret)
  | "syscall", [] => some (.ok .syscall)
  | "nop", [] => some (.ok .nop)
  | "rep", _ =>
    if rest = "movsb" then some (.ok .repMovsb)
    else if rest = "stosb" then some (.ok .repStosb)
    else none
  | "movq", [.xmm x, .reg r] => some (.ok (.movqTo x r))
  | "movq", [.reg r, .xmm x] => some (.ok (.movqFrom r x))
  | "ucomisd", [.xmm a, .xmm b] => some (.ok (.ucomisd a b))
  | "cvtsi2sd", [.xmm x, .reg r] => some (.ok (.cvtsi2sd x r))
  | "cvttsd2si", [.reg r, .xmm x] => some (.ok (.cvttsd2si r x))
  | "cvtsd2si", [.reg r, .xmm x] => some (.ok (.cvtsd2si r x))
  | _, _ => none

def condAfter? (start name : String) : Option Cond :=
  (Text.strip? start.toList name.toList).bind fun rest => Cond.ofName? (String.ofList rest)

/-- An instruction whose name ends in a condition. -/
def conditional? (name : String) (operands : List Operand) :
    Option (Except LineFault (Inst String)) :=
  let refused : Except LineFault (Inst String) := .error (.unsupportedOperands name)
  match condAfter? "set" name with
  | some c =>
    match operands with
    | [.byteReg r] => some (.ok (.setcc c r))
    | _ => some refused
  | none =>
    match condAfter? "cmov" name with
    | some c =>
      match operands with
      | [.reg d, .reg s] => some (.ok (.cmov c d s))
      | _ => some refused
    | none =>
      match condAfter? "j" name with
      | some c =>
        match operands with
        | [.symbol t] => some (.ok (.jcc c t))
        | _ => some refused
      | none => none

/-- The instruction with a name, its operands, and the text after the name in small
letters. -/
def select (name rest : String) (operands : List Operand) : Except LineFault (Inst String) :=
  match AluOp.ofName? name, ShiftOp.ofName? name, UnaryOp.ofName? name, SseOp.ofName? name with
  | some op, _, _, _ => alu op operands
  | none, some op, _, _ => shift name op operands
  | none, none, some op, _ =>
    match operands with
    | [.reg r] => .ok (.unary op r)
    | _ => .error (.unsupportedOperands name)
  | none, none, none, some op =>
    match operands with
    | [.xmm d, .xmm s] => .ok (.sse op d s)
    | _ => .error (.unsupportedOperands name)
  | none, none, none, none =>
    match fixed? name rest operands with
    | some result => result
    | none =>
      match conditional? name operands with
      | some result => result
      | none =>
        if fixedNames.contains name then .error (.unsupportedOperands name)
        else .error (.unknownInstruction name)

/-! ### Lines -/

def readOperands : List (List Char) → Except LineFault (List Operand)
  | [] => .ok []
  | cs :: rest => do
    let first ← readOperand cs
    let others ← readOperands rest
    return first :: others

/-- An instruction with its operands. -/
def readInst (line : List Char) : Except LineFault (Inst String) := do
  let name := line.takeWhile (!Text.isBlank ·)
  let rest := Text.trim (line.dropWhile (!Text.isBlank ·))
  let operands ← readOperands (splitOperands rest)
  select (String.ofList (Text.lower name)) (String.ofList (Text.lower rest)) operands

/-- A text does not get longer without the blanks at its ends. -/
theorem length_trim_le (cs : List Char) :
  (Text.trim cs).length ≤ cs.length
  := by
  have hleft : (Text.trimLeft cs).length ≤ cs.length := (List.dropWhile_sublist _).length_le
  have hright : ((Text.trimLeft cs).reverse.dropWhile Text.isBlank).length ≤
      (Text.trimLeft cs).reverse.length := (List.dropWhile_sublist _).length_le
  unfold Text.trim Text.dropLastWhile
  rw [List.length_reverse] at *
  omega

/-- The labels at the start of a line. -/
def takeLabels (line : List Char) : List String × List Char :=
  match _cut : Text.cut? ':' line with
  | none => ([], line)
  | some (before, after) =>
    let name := Text.trim before
    if isSymbol name then
      let (names, rest) := takeLabels (Text.trim after)
      (String.ofList name :: names, rest)
    else
      ([], line)
termination_by line.length
decreasing_by
  have := Text.length_of_cut? _cut
  have := length_trim_le after
  omega

/-- The labels and the instruction of a line. -/
def readLine (line : List Char) : Except LineFault (List (Inst String)) := do
  let (names, rest) := takeLabels (Text.trim (dropComment line))
  let labels := names.map Inst.label
  if rest.isEmpty then
    return labels
  else
    let i ← readInst rest
    return labels ++ [i]

/-- The instructions of lines, the first of which has the given number.  A fault comes with
the number of its line. -/
def readLines : Nat → List (List Char) → Except (Nat × LineFault) (List (Inst String))
  | _, [] => .ok []
  | number, line :: rest => do
    let first ← (readLine line).mapError (number, ·)
    let others ← readLines (number + 1) rest
    return first ++ others

/-- Reads a listing, with the number of the line at fault. -/
def read (text : String) : Except (Nat × LineFault) (List (Inst String)) :=
  readLines 1 (Text.lines text.toList)

end Asm

end Endmark.Machine

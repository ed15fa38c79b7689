import Endmark.Ir.Lexeme

/-!
# Reading the intermediate language

A reader goes through the lexemes of a text from the left to the right.  A fault is reported
at the line of the lexeme that comes next.
-/

namespace Endmark.Ir

/-- The lexemes that are still to be read, and the line of the last one of the text. -/
structure Reader where
  rest : List (Lexeme × Nat)
  lastLine : Nat

/-- Reads the lexemes ahead. -/
abbrev Read := StateT Reader (Except ReadError)

namespace Read

/-- The next lexeme; behind the last one there is nothing but the end of a line. -/
def peek : Read Lexeme := do
  match (← get).rest with
  | (lexeme, _) :: _ => return lexeme
  | [] => return .newline

/-- Passes over the next lexeme. -/
def skip : Read PUnit :=
  modify fun r => { r with rest := r.rest.tail }

/-- Have all lexemes been read? -/
def atEnd : Read Bool := do
  return (← get).rest.isEmpty

/-- Fails at the line of the next lexeme. -/
def fail {α : Type} (fault : Fault) : Read α := do
  let r ← get
  let line := match r.rest with
    | (_, line) :: _ => line
    | [] => r.lastLine
  throw (.fault line fault)

/-- Takes the next lexeme if `f` knows it. -/
def accept {α : Type} (f : Lexeme → Option α) (fault : Lexeme → Fault) : Read α := do
  let lexeme ← peek
  match f lexeme with
  | some a =>
    skip
    return a
  | none => fail (fault lexeme)

/-- Passes over the ends of lines. -/
def skipNewlines : Read PUnit :=
  modify fun r => { r with rest := r.rest.dropWhile (·.1 == .newline) }

def mark (c : Char) : Read PUnit :=
  accept (fun l => if l = .mark c then some ⟨⟩ else none) (.expectedMark c)

/-- Takes a mark if it is next. -/
def mark? (c : Char) : Read Bool := do
  if (← peek) = .mark c then
    skip
    return true
  else
    return false

/-- Reads the end of a line, unless a closing brace comes next. -/
def lineEnd : Read PUnit := do
  match ← peek with
  | .newline => skip
  | .mark '\x7d' => return ⟨⟩
  | found => fail (.expectedLineEnd found)

def word : Read String :=
  accept (fun | .word w => some w | _ => none) .expectedWord

def globalName : Read String :=
  accept (fun | .global g => some g | _ => none) .expectedGlobal

def varName : Read String :=
  accept (fun | .var v => some v | _ => none) .expectedVar

def int : Read Int64 :=
  accept (fun | .int v => some v | _ => none) .expectedInt

def wordType : Read WordType := do
  let name ← word
  match WordType.ofName? name with
  | some ty => return ty
  | none => fail (.unknownType name)

/-- The operand that the name of a global stands for: a string constant is named by its
number. -/
def globalOperand (name : String) : Operand :=
  match Text.strip? "str.".toList name.toList with
  | none => .global name
  | some digits =>
    match Number.readUnsigned 10 Number.wordCount digits with
    | some n => .str n
    | none => .global name

/-- The operand that a lexeme is. -/
def operandOf? : Lexeme → Option Operand
  | .var name => some (.var name)
  | .global name => some (globalOperand name)
  | .int value => some (.int value)
  | .float value => some (.float value)
  | .word w =>
    if w = "true" then some (.bool true) else if w = "false" then some (.bool false) else none
  | _ => none

theorem operandOf?_cases {l : Lexeme} {o : Operand} (h : operandOf? l = some o) :
  (∃ name, l = .var name ∧ o = .var name) ∨ (∃ name, l = .global name ∧ o = globalOperand name) ∨
    (∃ value, o = .int value) ∨ (∃ value, o = .float value) ∨ ∃ value, o = .bool value
  := by
  cases l with
  | var name =>
      cases h
      exact .inl ⟨_, rfl, rfl⟩
  | global name =>
      cases h
      exact .inr (.inl ⟨_, rfl, rfl⟩)
  | int value =>
      cases h
      exact .inr (.inr (.inl ⟨_, rfl⟩))
  | float value =>
      cases h
      exact .inr (.inr (.inr (.inl ⟨_, rfl⟩)))
  | word w =>
      simp only [operandOf?] at h
      split at h
      · cases h
        exact .inr (.inr (.inr (.inr ⟨_, rfl⟩)))
      · split at h
        · cases h
          exact .inr (.inr (.inr (.inr ⟨_, rfl⟩)))
        · cases h
  | _ => cases h

def operand : Read Operand :=
  accept operandOf? .expectedOperand

def place : Read Place :=
  accept (fun | .var v => some (.var v) | .global g => some (.global g) | _ => none)
    .expectedDestination

/-- The parts of a word before and after its last point. -/
def splitLast? (w : List Char) : Option (List Char × List Char) :=
  (Text.cut? '.' w.reverse).map fun (after, before) => (before.reverse, after.reverse)

/-- The name of an instruction and the kind of word that follows its last point. -/
def typedName? (w : String) : Option (String × WordType) :=
  match splitLast? w.toList with
  | none => none
  | some (name, ty) => (WordType.ofName? (String.ofList ty)).map (String.ofList name, ·)

/-- Reads items with commas between them up to a closing parenthesis, where `fuel` is at
least the number of lexemes left. -/
def items {α : Type} (item : Read α) : Nat → Read (List α)
  | 0 => return []
  | fuel + 1 => do
    let first ← item
    if ← mark? ')' then
      return [first]
    else
      mark ','
      let others ← items item fuel
      return first :: others

/-- Reads a list of items in parentheses, after the opening one. -/
def list {α : Type} (item : Read α) : Read (List α) := do
  if ← mark? ')' then
    return []
  else
    items item ((← get).rest.length + 1)

/-- A call behind its keyword. -/
def call (dst : Option Place) : Read Instr := do
  let callee ← globalName
  mark '('
  let args ← list operand
  return .call dst callee args

def raw (dst : Option Place) : Read Instr := do
  let text ← accept (fun | .str s => some s | _ => none) .expectedRawText
  return .raw dst text .nowhere

/-- Reads what follows the name of an instruction with a destination and a kind. -/
def typed (dst : Place) (w name : String) (ty : WordType) : Read Instr := do
  if name = "mov" then
    return .move dst ty (← operand)
  else if name = "load" then
    let base ← operand
    mark ','
    return .load dst ty base (← int)
  else
    match UnOp.ofName? name with
    | some op => return .unary dst op ty (← operand)
    | none =>
      match BinOp.ofName? name with
      | none => fail (.unknownInstruction w)
      | some op =>
        if op.supports ty then
          let lhs ← operand
          mark ','
          return .binary dst op ty lhs (← operand)
        else
          fail (.notDefinedOn name ty)

/-- What stands behind the equals sign. -/
def assignment (dst : Place) : Read Instr := do
  let w ← word
  match w with
  | "call" => call (some dst)
  | "asm" => raw (some dst)
  | "alloc" => return .alloc dst (← operand)
  | _ =>
    match typedName? w with
    | some (name, ty) => typed dst w name ty
    | none => fail (.unknownInstruction w)

/-- Reads an instruction that starts with the word that comes next. -/
def statement (w : String) : Read Instr := do
  match w with
  | "jmp" =>
    skip
    return .jump (← word)
  | "br" =>
    skip
    let cond ← operand
    mark ','
    let ifTrue ← word
    mark ','
    return .branch cond ifTrue (← word)
  | "ret" =>
    skip
    match ← peek with
    | .newline | .mark '\x7d' => return .ret none
    | _ => return .ret (some (← operand))
  | "free" =>
    skip
    return .free (← operand)
  | "call" =>
    skip
    call none
  | "asm" =>
    skip
    raw none
  | _ =>
    match typedName? w with
    | none => fail (.unknownInstruction w)
    | some (name, ty) =>
      if name ≠ "store" then
        fail (.needsDestination w)
      else
        skip
        let base ← operand
        mark ','
        let offset ← int
        mark ','
        return .store ty base offset (← operand)

/-- Does a colon follow the lexeme that comes next? -/
def beforeColon : Read Bool := do
  match (← get).rest with
  | _ :: (.mark ':', _) :: _ => return true
  | _ => return false

/-- Reads an instruction and the end of its line, which may be missing after a label. -/
def instruction : Read Instr := do
  match ← peek with
  | .var _ | .global _ =>
    let dst ← place
    mark '='
    let i ← assignment dst
    lineEnd
    return i
  | .word w =>
    if ← beforeColon then
      skip
      skip
      return .label w
    else
      let i ← statement w
      lineEnd
      return i
  | found => fail (.expectedInstruction found)

def var : Read Var := do
  let name ← varName
  mark ':'
  return ⟨name, ← wordType⟩

/-- Reads the variables and instructions of a function up to the closing brace, where `fuel`
is at least the number of lexemes left. -/
def body (function : String) : Nat → Read (List Var × List Instr)
  | 0 => fail (.missingBrace function)
  | fuel + 1 => do
    skipNewlines
    if ← atEnd then
      fail (.missingBrace function)
    else if ← mark? '\x7d' then
      return ([], [])
    else if (← peek) = .word "var" then
      skip
      let v ← var
      lineEnd
      let (vars, instrs) ← body function fuel
      return (v :: vars, instrs)
    else
      let i ← instruction
      let (vars, instrs) ← body function fuel
      return (vars, i :: instrs)

/-- A function behind its keyword. -/
def function : Read Function := do
  let name ← globalName
  mark '('
  let params ← list var
  accept (fun l => if l = .arrow then some ⟨⟩ else none) fun _ => .expectedArrow
  let result ← wordType
  mark '\x7b'
  let (vars, instrs) ← body name ((← get).rest.length + 1)
  return ⟨name, params, result, vars, instrs, .nowhere⟩

/-- Reads what follows `string`: the number of the constant, which is the next one, and its
text. -/
def stringConstant (next : Nat) : Read String := do
  match ← operand with
  | .str index =>
    if index ≠ next then
      fail (.stringOrder next)
    else
      mark '='
      let found ← peek
      skip
      match found with
      | .str s => return s
      | _ => fail (.expectedString found)
  | _ => fail .expectedStringName

/-- One part of a module. -/
def part (m : Module) : Read Module := do
  match ← word with
  | "entry" =>
    let entry ← globalName
    lineEnd
    return { m with entry }
  | "init" =>
    let init ← globalName
    lineEnd
    return { m with init := some init }
  | "global" =>
    let name ← globalName
    mark ':'
    let ty ← wordType
    lineEnd
    return { m with globals := m.globals ++ [⟨name, ty⟩] }
  | "string" =>
    let s ← stringConstant m.strings.length
    lineEnd
    return { m with strings := m.strings ++ [s] }
  | "func" =>
    let f ← function
    return { m with functions := m.functions ++ [f] }
  | w => fail (.unexpectedWord w)

/-- Reads the parts of a module up to the end, where `fuel` is at least the number of lexemes
left. -/
def parts : Nat → Module → Read Module
  | 0, m => return m
  | fuel + 1, m => do
    skipNewlines
    if ← atEnd then
      return m
    else
      parts fuel (← part m)

/-- Reads instructions up to the end, where `fuel` is at least the number of lexemes left. -/
def instructions : Nat → Read (List Instr)
  | 0 => return []
  | fuel + 1 => do
    skipNewlines
    if ← atEnd then
      return []
    else if (← peek) = .mark '\x7d' then
      fail .unexpectedBrace
    else
      let first ← instruction
      let others ← instructions fuel
      return first :: others

/-- Reads a whole text, with fuel for each of its lexemes. -/
def whole {α : Type} (read : Nat → Read α) (text : String) : Except ReadError α := do
  let ls ← lexemes text
  let lastLine := (ls.getLast?.map (·.2)).getD 1
  let (a, _) ← (read (ls.length + 1)).run ⟨ls, lastLine⟩
  return a

end Read

/-- The module that a text spells.  It starts in `main` unless it says otherwise. -/
def Module.read (text : String) : Except ReadError Module :=
  Read.whole (Read.parts · ⟨[], [], [], "main", none⟩) text

/-- The instructions of a block. -/
def readInstructions (text : String) : Except ReadError (List Instr) :=
  Read.whole Read.instructions text

end Endmark.Ir

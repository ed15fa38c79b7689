import Endmark.Ir.Placeholder
import Endmark.Ir.Reader
import Endmark.Lowering.Basic

/-!
# Raw blocks

A block of machine instructions is kept as text; the names of visible variables between
braces become placeholders.  In a block of the intermediate language a name means the visible
variable of that name, and otherwise a variable of the block.  Those, and the labels of the
block, get the number of the block, so that no two blocks share them.
-/

namespace Endmark.Lowering

open Ir (WordType Operand Place Instr RawPiece)
open Typed (Raw Variable)

/-! ### Machine instructions -/

/-- The placeholder for a variable. -/
def placeholderText : Variable → String
  | .slot name => s!"\x7b%{name}\x7d"
  | .global name => s!"\x7b@{name}\x7d"

/-- A piece of the text with the name of a visible variable replaced. -/
def pieceText (raw : Raw) : RawPiece → String
  | .text t => String.ofList t
  | .group g =>
    match raw.binding? (String.ofList (Text.trim g)) with
    | some var => placeholderText var
    | none => "\x7b" ++ String.ofList g ++ "\x7d"
  | .unclosed rest => "\x7b" ++ String.ofList rest

/-- The text of a block with placeholders for the visible variables that it names. -/
def substituted (raw : Raw) : String :=
  String.join ((Ir.rawPieces raw.payload.toList).map (pieceText raw))

/-! ### Instructions of the intermediate language -/

/-- What stays the same while the names of a block are resolved. -/
structure BlockEnv where
  number : Nat
  raw : Raw
  labels : List String
  globals : List (String × WordType)
  strings : Nat

/-- What is found while the names of a block are resolved. -/
structure BlockState where
  /-- The variables of the block and their kinds, by name. -/
  own : List (String × WordType)
  faults : Array Fault

/-- Finds what the names of a block mean. -/
abbrev Resolve := ReaderT BlockEnv (StateM BlockState)

/-- Inserts a variable by its name; one that is there keeps its kind. -/
def insertOwn (name : String) (ty : WordType) : List (String × WordType) → List (String × WordType)
  | [] => [(name, ty)]
  | (other, held) :: rest =>
    if name < other then (name, ty) :: (other, held) :: rest
    else if name = other then (other, held) :: rest
    else (other, held) :: insertOwn name ty rest

/-- The name that a variable or label of a block has in the function. -/
def ownName (number : Nat) (name : String) : String :=
  s!"{name}.a{number}"

namespace Resolve

/-- Notes a fault and goes on. -/
def fault (f : Fault) : Resolve PUnit :=
  modify fun s => { s with faults := s.faults.push f }

/-- The name in the function for a label of the block. -/
def label (name : String) : Resolve String := do
  let env ← read
  if env.labels.contains name then
    return ownName env.number name
  else
    fault (.undefinedLabel name)
    return name

def global (name : String) : Resolve PUnit := do
  if ((← read).globals.lookup name).isNone then
    fault (.unknownGlobal name)

/-- An operand with the names of the function. -/
def operand (op : Operand) : Resolve Operand := do
  let env ← read
  match op with
  | .var name =>
    match env.raw.binding? name with
    | some var => return (placeOf var).operand
    | none =>
      if ((← get).own.lookup name).isSome then
        return .var (ownName env.number name)
      else
        fault (.undefinedVariable name)
        return .var name
  | .global name =>
    global name
    return op
  | .str index =>
    if env.strings ≤ index then
      fault (.unknownString index)
    return op
  | _ => return op

def operands : List Operand → Resolve (List Operand)
  | [] => return []
  | op :: rest => do
    let first ← operand op
    let others ← operands rest
    return first :: others

/-- The place that is written.  A variable of the block has the kind with which it is written
first. -/
def place (p : Place) (ty : WordType) : Resolve Place := do
  let env ← read
  match p with
  | .var name =>
    match env.raw.binding? name with
    | some var => return placeOf var
    | none =>
      modify fun s => { s with own := insertOwn name ty s.own }
      return .var (ownName env.number name)
  | .global name =>
    global name
    return p

/-- The place that is written, if there is one; it holds an integer. -/
def place? : Option Place → Resolve (Option Place)
  | none => return none
  | some p => do
    let p ← place p .i64
    return some p

/-- Resolves the names of an instruction: what it reads before what it writes. -/
def instr : Instr → Resolve Instr
  | .label name => return .label (ownName (← read).number name)
  | .move dst ty src => do
    let src ← operand src
    let dst ← place dst ty
    return .move dst ty src
  | .binary dst op ty lhs rhs => do
    let lhs ← operand lhs
    let rhs ← operand rhs
    let dst ← place dst (op.resultType ty)
    return .binary dst op ty lhs rhs
  | .unary dst op ty src => do
    let src ← operand src
    let dst ← place dst ty
    return .unary dst op ty src
  | .call dst callee args => do
    let args ← operands args
    let dst ← place? dst
    return .call dst callee args
  | .branch cond ifTrue ifFalse => do
    let cond ← operand cond
    let ifTrue ← label ifTrue
    let ifFalse ← label ifFalse
    return .branch cond ifTrue ifFalse
  | .jump target => do
    let target ← label target
    return .jump target
  | .load dst ty base offset => do
    let base ← operand base
    let dst ← place dst ty
    return .load dst ty base offset
  | .store ty base offset value => do
    let base ← operand base
    let value ← operand value
    return .store ty base offset value
  | .alloc dst size => do
    let size ← operand size
    let dst ← place dst .ptr
    return .alloc dst size
  | .free block => do
    let block ← operand block
    return .free block
  | .ret none => return .ret none
  | .ret (some value) => do
    let value ← operand value
    return .ret (some value)
  | .raw dst text _ => do
    let dst ← place? dst
    return .raw dst text (← read).raw.span

def instrs : List Instr → Resolve (List Instr)
  | [] => return []
  | i :: rest => do
    let first ← instr i
    let others ← instrs rest
    return first :: others

end Resolve

def labelsOf (instrs : List Instr) : List String :=
  instrs.filterMap fun
    | .label name => some name
    | _ => none

/-- What the last instruction with a result writes. -/
def lastWritten? (instrs : List Instr) : Option Place :=
  (instrs.filterMap (·.dst?)).getLast?

namespace Lower

def emitAll : List Instr → Lower PUnit
  | [] => return ⟨⟩
  | i :: rest => do
    emit i
    emitAll rest

def declareOwn (number : Nat) : List (String × WordType) → Lower PUnit
  | [] => return ⟨⟩
  | (name, ty) :: rest => do
    declare (ownName number name) ty
    declareOwn number rest

def reportAll (span : Span) : List Fault → Lower PUnit
  | [] => return ⟨⟩
  | f :: rest => do
    report span f
    reportAll span rest

/-- The instructions of a block, before their names are resolved. -/
def blockInstrs (raw : Raw) : Lower (List Instr) :=
  match Ir.readInstructions raw.payload with
  | .ok instrs => return instrs
  | .error (.fault line fault) => fail raw.span (.malformedBlock line fault)
  | .error .abandoned => throw .abandoned

/-- Appends a block of the intermediate language; gives the instructions as they are
appended. -/
def block (raw : Raw) : Lower (List Instr) := do
  let written ← blockInstrs raw
  let number ← modifyGet fun s => (s.blocks, { s with blocks := s.blocks + 1 })
  let env : BlockEnv :=
    { number, raw
      labels := labelsOf written
      globals := (← read).globals
      strings := (← get).strings.length }
  let (resolved, found) := (Resolve.instrs written).run env |>.run ⟨[], #[]⟩
  if found.faults.isEmpty then
    declareOwn number found.own
    emitAll resolved
    return resolved
  else
    reportAll raw.span found.faults.toList
    throw .reported

/-- A block that is a statement. -/
def rawStmt (raw : Raw) : Lower PUnit := do
  match raw.lang with
  | .asm => emit (.raw none (substituted raw) raw.span)
  | .ailang =>
    let _ ← block raw
    return ⟨⟩

/-- A raw block as a value: the result of machine instructions, or what the last instruction
writes. -/
def rawValue (raw : Raw) : Lower Operand := do
  match raw.lang with
  | .asm =>
    let dst ← temp .i64
    emit (.raw (some (.var dst)) (substituted raw) raw.span)
    return .var dst
  | .ailang =>
    match lastWritten? (← block raw) with
    | some place => return place.operand
    | none => fail raw.span .blockWithoutResult

end Lower

end Endmark.Lowering

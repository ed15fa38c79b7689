import Endmark.Code.Operation
import Endmark.Diagnostic

/-!
# Code of raw text

Placeholders in raw text are replaced by the places of variables and globals, and its labels
are renamed such that no other block has them.
-/

namespace Endmark.Code

open Machine (Inst AsmError)

/-- Why a function has no code. -/
inductive Fault where
  | offset (value : Int)
  | floatOperation (op : Ir.BinOp)
  | undefinedPlaceholders (groups : List String)
  | rawText (error : AsmError)
deriving DecidableEq, Repr

def showGroup (group : String) : String :=
  "`\x7b" ++ group ++ "\x7d`"

def Fault.message : Fault → String
  | .offset value => s!"memory offset {value} does not fit in 32 bits"
  | .floatOperation op => s!"`{op.name}` is not supported on f64"
  | .undefinedPlaceholders groups =>
    "undefined placeholder " ++ ", ".intercalate (groups.map showGroup) ++ " in asm block"
  | .rawText error => s!"in asm block: {error.message}"

namespace Frame

/-- What is written for a variable in a raw text. -/
def variableText? (f : Frame) (name : String) : Option String :=
  match f.function.type? name, f.allocation.location? name with
  | some _, some (.reg r) => some r.name
  | some _, some (.slot k) => some s!"qword ptr {(f.slot k).render}"
  | _, _ => none

def globalText? (f : Frame) (name : String) : Option String :=
  if f.globals.contains name then
    some s!"qword ptr [rip + {globalSymbol name}]"
  else
    match Text.strip? "str.".toList name.toList with
    | none => none
    | some digits =>
      match Number.readUnsigned 10 Number.wordCount digits with
      | some n => if n < f.strings then some (stringSymbol n) else none
      | none => none

/-- The text in place of what stands between braces. -/
def groupText? (f : Frame) (group : List Char) : Option String :=
  match Ir.Placeholder.ofGroup? group with
  | some (.var name) => f.variableText? name
  | some (.global name) => f.globalText? name
  | none => none

/-- A piece of raw text with its placeholder filled in. -/
def pieceText (f : Frame) : Ir.RawPiece → Except String String
  | .text cs => .ok (String.ofList cs)
  | .unclosed rest => .error (String.ofList (Text.trim rest))
  | .group group =>
    match f.groupText? group with
    | some text => .ok text
    | none => .error (String.ofList (Text.trim group))

/-- The raw text with its placeholders replaced. -/
def fillIn (f : Frame) (text : String) : Except Fault String :=
  let pieces := (Ir.rawPieces text.toList).map f.pieceText
  let undefined := pieces.filterMap fun
    | .error group => some group
    | .ok _ => none
  if undefined.isEmpty then
    .ok (String.join (pieces.filterMap (·.toOption)))
  else
    .error (.undefinedPlaceholders undefined)

end Frame

/-- The name of a label of a raw block. -/
def rawLabel (block : Nat) (name : String) : String :=
  s!".raw{block}." ++ String.ofList (name.toList.dropWhile (· == '.'))

/-- The instructions with the labels that they define renamed. -/
def renameLabels (block : Nat) (insts : Insts) : Insts :=
  let defined := insts.filterMap fun
    | .label name => some name
    | _ => none
  insts.map (·.map fun name => if defined.contains name then rawLabel block name else name)

/-- The code of a raw text. -/
def Frame.raw (f : Frame) (block : Nat) (text : String) : Except Fault Insts := do
  let filled ← f.fillIn text
  let insts ← (Machine.readAsm filled).mapError .rawText
  return renameLabels block insts

end Endmark.Code

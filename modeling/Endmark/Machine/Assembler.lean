import Endmark.Machine.Encoding
import Endmark.Machine.Reader

/-!
# Assembling

A jump to a label of its own unit starts in its short form.  As long as some distance does
not fit, the jumps concerned are made long; code only grows by that, so that it ends.  What
is named but not defined in the unit is left to be linked.
-/

namespace Endmark.Machine

/-- Why instructions cannot be assembled. -/
inductive AsmError where
  | line (number : Nat) (fault : LineFault)
  | memory (fault : MemFault)
  | duplicateLabel (name : String)
  | undefinedLabel (name : String)
deriving DecidableEq, Repr

def AsmError.message : AsmError → String
  | .line number fault => s!"line {number}: {fault.message}"
  | .memory fault => s!"invalid memory operand: {fault.message}"
  | .duplicateLabel name => s!"label `{name}` is defined more than once"
  | .undefinedLabel name => s!"undefined label `{name}`"

def readAsm (text : String) : Except AsmError (List (Inst String)) :=
  (Asm.read text).mapError fun (number, fault) => .line number fault

/-- A field that the address of a symbol outside of the unit determines. -/
structure Relocation where
  /-- Where the field is in the code of the unit. -/
  offset : Nat
  symbol : String
  addend : Int
deriving DecidableEq, Repr, Inhabited

/-- The code of a unit, what is left to be linked, and where its labels are. -/
structure Assembled where
  code : List UInt8
  relocations : List Relocation
  labels : List (String × Nat)
deriving DecidableEq, Repr, Inhabited

/-- Labels that start with a point have to be defined in the unit. -/
def isUnitLabel (name : String) : Bool :=
  name.toList.head? == some '.'

namespace Assembler

/-- An instruction and whether it is in its short form. -/
abbrev Item := Inst String × Bool

/-- The bytes of an item. -/
def size (item : Item) : Nat :=
  match item.1.encode item.2 with
  | .ok e => e.bytes.length
  | .error _ => 0

/-- Where each label is, if the first item is at `offset`. -/
def labelsFrom : Nat → List Item → List (String × Nat)
  | _, [] => []
  | offset, item :: rest =>
    let others := labelsFrom (offset + size item) rest
    match item.1 with
    | .label name => (name, offset) :: others
    | _ => others

/-- Does the distance from `here` to the target of a jump fit in its short form? -/
def reaches (labels : List (String × Nat)) (here : Nat) (i : Inst String) : Bool :=
  match i.target?.bind fun t => labels.lookup t with
  | some there => Number.fitsSigned 8 ((there : Int) - here)
  | none => true

/-- The items with those jumps made long whose targets are too far. -/
def widenFrom (labels : List (String × Nat)) : Nat → List Item → List Item
  | _, [] => []
  | offset, item :: rest =>
    let next := offset + size item
    (item.1, item.2 && reaches labels next item.1) :: widenFrom labels next rest

/-- The items with those jumps made long whose targets are too far, once. -/
def widen (items : List Item) : List Item :=
  widenFrom (labelsFrom 0 items) 0 items

/-- The items with jumps made long until all others fit.  Each round but the last makes one
long at least, so that as many rounds as there are items are enough. -/
def relax : Nat → List Item → List Item
  | 0, items => items
  | fuel + 1, items =>
    let wider := widen items
    if wider.map (·.2) = items.map (·.2) then items else relax fuel wider

/-- The items at the start: jumps to labels of the unit are short. -/
def start (labels : List String) (insts : List (Inst String)) : List Item :=
  insts.map fun i => (i, i.isJump && i.target?.any labels.contains)

/-- The first name that is in the list a second time. -/
def duplicate? : List String → List String → Option String
  | _, [] => none
  | seen, name :: rest => if seen.contains name then some name else duplicate? (name :: seen) rest

/-- Writes a field over the bytes at an offset. -/
def patch (bytes : List UInt8) (offset : Nat) (field : List UInt8) : List UInt8 :=
  bytes.take offset ++ field ++ bytes.drop (offset + field.length)

/-- The code of items that start at an offset, and what is left to be linked. -/
def emitFrom (labels : List (String × Nat)) :
    Nat → List Item → Except MemFault (List UInt8 × List Relocation)
  | _, [] => .ok ([], [])
  | offset, item :: rest => do
    let e ← item.1.encode item.2
    let (code, relocations) ← emitFrom labels (offset + e.bytes.length) rest
    match e.fixup with
    | none => return (e.bytes ++ code, relocations)
    | some fixup =>
      let field := offset + fixup.offset
      match labels.lookup fixup.target with
      | some target =>
        let value := Number.littleEndianInt fixup.size ((target : Int) + fixup.addend - field)
        return (patch e.bytes fixup.offset value ++ code, relocations)
      | none => return (e.bytes ++ code, ⟨field, fixup.target, fixup.addend⟩ :: relocations)

end Assembler

open Assembler in
/-- Assembles a unit: its labels are settled, then its bytes are emitted. -/
def assemble (insts : List (Inst String)) : Except AsmError Assembled :=
  let names := insts.filterMap fun
    | .label name => some name
    | _ => none
  match duplicate? [] names with
  | some name => .error (.duplicateLabel name)
  | none =>
    match (insts.filterMap (·.target?)).find? fun t => isUnitLabel t && !names.contains t with
    | some t => .error (.undefinedLabel t)
    | none =>
      let items := relax insts.length (start names insts)
      let labels := labelsFrom 0 items
      match emitFrom labels 0 items with
      | .ok (code, relocations) => .ok ⟨code, relocations, labels⟩
      | .error fault => .error (.memory fault)

end Endmark.Machine

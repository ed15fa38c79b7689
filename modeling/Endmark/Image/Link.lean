import Endmark.Image.Elf

/-!
# Linking

Linking gives every symbol an address and fills in the fields that depend on them.
-/

namespace Endmark

/-- A linked program. -/
structure Image where
  /-- The first segment, with the headers. -/
  text : List UInt8
  dataOffset : Nat
  /-- The second segment, which is left out when it is empty. -/
  data : List UInt8
  symbols : List (String × Nat)
  /-- The address at which the program starts. -/
  entry : Nat
deriving DecidableEq, Repr, Inhabited

namespace Image

/-- The bytes of the file. -/
def bytes (image : Image) : List UInt8 :=
  if image.data.isEmpty then image.text
  else image.text ++ List.replicate (image.dataOffset - image.text.length) 0 ++ image.data

/-- Why a module cannot be linked. -/
inductive Fault where
  | entryStub (error : Machine.AsmError)
  | duplicate (symbol : String)
  | undefined (symbol unit : String)
  | outOfRange (symbol : String)
deriving DecidableEq, Repr

def Fault.message : Fault → String
  | .entryStub error => s!"entry stub: {error.message}"
  | .duplicate symbol => s!"symbol `{symbol}` is defined more than once"
  | .undefined symbol unit => s!"undefined symbol `{symbol}` referenced from `{unit}`"
  | .outOfRange symbol => s!"relocation to `{symbol}` is out of range"

def Fault.report (fault : Fault) : Diagnostic :=
  let kind : Diagnostic.Kind := match fault with
    | .undefined _ _ => .codegen
    | _ => .emit
  .error kind .nowhere fault.message

/-- All text units of a module: its functions, the routines, and the start of the program. -/
def codeUnits (m : Code.Module) : Except Fault (List CodeUnit) := do
  let functions := m.functions.map fun f => ⟨f.name, f.code, f.relocations⟩
  let a ← (Machine.assemble (Routine.start m.init m.entry)).mapError .entryStub
  let start : CodeUnit := ⟨Routine.startSymbol, a.code, a.relocations⟩
  let own := functions ++ [start]
  match Machine.Assembler.duplicate? [] (own.map (·.name)) with
  | some name => throw (.duplicate name)
  | none => return functions ++ neededRoutines own ++ [start]

/-- Where the words of the runtime are, from an offset on. -/
def wordSymbols (referenced : List String) (offset : Nat) : List (String × Nat) :=
  (Routine.dataWords.filter referenced.contains).zipIdx.map fun (name, k) => (name, offset + 8 * k)

/-- The field of a relocation in a unit at an address: its value, or why it has none. -/
def fieldValue (symbols : List (String × Nat)) (unit : String) (address : Nat)
    (r : Machine.Relocation) : Except Fault Int :=
  match symbols.lookup r.symbol with
  | none => .error (.undefined r.symbol unit)
  | some target =>
    let value := (target : Int) + r.addend - (address + r.offset : Nat)
    if Number.fitsSigned 32 value then .ok value else .error (.outOfRange r.symbol)

/-- A placed unit with its fields filled in, and what is wrong with them. -/
def resolve (symbols : List (String × Nat)) (u : CodeUnit) (offset : Nat) :
    CodeUnit × List Fault :=
  u.relocations.foldl
    (fun (u, faults) r =>
      match fieldValue symbols u.name (baseAddress + offset) r with
      | .ok value =>
        let field := Number.littleEndianInt 4 value
        ({ u with code := Machine.Assembler.patch u.code r.offset field }, faults)
      | .error fault => (u, faults ++ [fault]))
    (u, [])

/-- The addresses of text units and of data, or a symbol that has two. -/
def addresses (placed : List (CodeUnit × Nat)) (dataOffset : Nat) (data : List (String × Nat)) :
    Except Fault (List (String × Nat)) :=
  let text := placed.map fun (u, offset) => (u.name, baseAddress + offset)
  let ordered := data.mergeSort fun a b => decide (a.1 ≤ b.1)
  match ordered.find? fun d => (text.lookup d.1).isSome with
  | some (name, _) => .error (.duplicate name)
  | none =>
    .ok (text ++ ordered.map fun (name, offset) => (name, baseAddress + dataOffset + offset))

/-- Headers for text and data, filled up to where units start. -/
def headers (entry start textSize dataOffset dataSize : Nat) : List UInt8 :=
  let bytes :=
    if dataSize = 0 then fileHeader entry 1 ++ segmentHeader textFlags 0 textSize
    else
      fileHeader entry 2 ++ segmentHeader textFlags 0 textSize ++
        segmentHeader dataFlags dataOffset dataSize
  bytes ++ List.replicate (start - bytes.length) 0

/-- Links a compiled module, or says why not. -/
def linkUnits (m : Code.Module) (units : List CodeUnit) : Except (List Fault) Image := do
  let words := wordSymbols (references units) m.data.length
  let data := m.data ++ List.replicate (8 * words.length) 0
  let start := alignUp textAlign (headerSize (if data.isEmpty then 1 else 2))
  let placed := placeUnits start units
  let textSize := textEnd start placed
  let dataOffset := alignUp pageSize textSize
  let symbols ← (addresses placed dataOffset (m.symbols ++ words)).mapError ([·])
  let resolved := placed.map fun (u, offset) => (resolve symbols u offset, offset)
  let faults := resolved.flatMap (·.1.2)
  if !faults.isEmpty then
    throw faults
  let entry := (symbols.lookup Routine.startSymbol).getD 0
  let text := headers entry start textSize dataOffset data.length ++
    textFrom start (resolved.map fun (r, offset) => (r.1, offset))
  return ⟨text, if data.isEmpty then text.length else dataOffset, data, symbols, entry⟩

/-- Links a compiled module, or reports why not. -/
def link (m : Code.Module) : Except (List Diagnostic) Image :=
  match codeUnits m with
  | .error fault => .error [fault.report]
  | .ok units => (linkUnits m units).mapError (·.map Fault.report)

end Image

end Endmark

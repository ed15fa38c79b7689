import Endmark.Code.Function

/-!
# Code of modules

A compiled module has the code of its functions and the data of its globals and strings,
with fields left for the addresses that are not known yet.
-/

namespace Endmark.Code

open Machine (Inst Relocation AsmError)

/-- A compiled function. -/
structure Function where
  name : String
  insts : Insts
  code : List UInt8
  /-- What is left to be linked, from the start of the code. -/
  relocations : List Relocation
deriving DecidableEq, Repr, Inhabited

/-- The compiled functions with their data. -/
structure Module where
  functions : List Function
  data : List UInt8
  /-- Where each symbol is in the data. -/
  symbols : List (String × Nat)
  entry : String
  init : Option String
deriving DecidableEq, Repr, Inhabited

/-! ### Data -/

/-- The number of bytes that fill up to a multiple of eight. -/
def padding (size : Nat) : Nat :=
  (8 - size % 8) % 8

/-- The bytes of a string constant: its length, its text, and zeros up to a multiple of
eight. -/
def stringData (s : String) : List UInt8 :=
  let text := Text.bytes s
  Number.littleEndian 8 text.length ++ text ++ List.replicate (padding text.length) 0

def putSymbol (name : String) (offset : Nat) : List (String × Nat) → List (String × Nat)
  | [] => [(name, offset)]
  | entry :: rest =>
    if entry.1 = name then (name, offset) :: rest else entry :: putSymbol name offset rest

/-- The parts of the data: a word for each global, then the strings. -/
def dataParts (m : Ir.Module) : List (String × List UInt8) :=
  m.globals.map (fun g => (globalSymbol g.name, List.replicate 8 0)) ++
    m.strings.zipIdx.map fun (s, k) => (stringSymbol k, stringData s)

/-- The symbols of parts that start at an offset, after those given. -/
def symbolsFrom : Nat → List (String × Nat) → List (String × List UInt8) → List (String × Nat)
  | _, symbols, [] => symbols
  | offset, symbols, (name, bytes) :: rest =>
    symbolsFrom (offset + bytes.length) (putSymbol name offset symbols) rest

/-! ### Functions -/

/-- Compiles a function on its own. -/
def compileFunction (m : Ir.Module) (f : Ir.Function) : Except (List Diagnostic) Function := do
  let frame : Frame :=
    ⟨f, Allocation.ofFunction Allocation.registers f, m.globals.map (·.name), m.strings.length⟩
  let insts ← frame.code
  match Machine.assemble insts with
  | .ok a => return ⟨f.name, insts, a.code, a.relocations⟩
  | .error e => throw [.error .codegen f.span s!"in function `{f.name}`: {e.message}"]

/-- The values of all results, or all that is wrong with them. -/
def gather {α : Type} : List (Except (List Diagnostic) α) → Except (List Diagnostic) (List α)
  | [] => .ok []
  | .ok a :: rest => (gather rest).map (a :: ·)
  | .error ds :: rest =>
    match gather rest with
    | .ok _ => .error ds
    | .error others => .error (ds ++ others)

/-- Compiles a module, which must define its entry. -/
def compile (m : Ir.Module) : Except (List Diagnostic) Module :=
  if m.functions.any (·.name == m.entry) then do
    let functions ← gather (m.functions.map (compileFunction m))
    let parts := dataParts m
    return ⟨functions, parts.flatMap (·.2), symbolsFrom 0 [] parts, m.entry, m.init⟩
  else
    .error [.error .codegen .nowhere s!"entry function `{m.entry}` is not defined"]

/-! ### Listing -/

def listLine (function : String) : Inst String → String
  | .label name => if name = function then "" else name ++ ":\n"
  | i => "    " ++ i.render ++ "\n"

def Function.listing (f : Function) : String :=
  s!"\n{f.name}:\n" ++ String.join (f.insts.map (listLine f.name))

def groups (fuel : Nat) (bytes : List UInt8) : List (List UInt8) :=
  match fuel with
  | 0 => []
  | fuel + 1 => if bytes.isEmpty then [] else bytes.take 8 :: groups fuel (bytes.drop 8)

/-- A word of data in a listing. -/
def listWord (bytes : List UInt8) : String :=
  "0x" ++ String.ofList (Text.hexDigits (Number.ofLittleEndian bytes))

/-- The listing of data with the given symbols, in the order of their offsets. -/
def listData (data : List UInt8) : List (String × Nat) → String
  | [] => ""
  | (name, offset) :: rest =>
    let stop := match rest with
      | (_, next) :: _ => next
      | [] => data.length
    let bytes := (data.drop offset).take (stop - offset)
    let words := (groups bytes.length bytes).map listWord
    s!"{name}:\n    .quad " ++ ", ".intercalate words ++ "\n" ++ listData data rest

/-- The listing of a module. -/
def Module.listing (m : Module) : String :=
  let ordered := m.symbols.mergeSort fun a b =>
    a.2 < b.2 || (a.2 == b.2 && decide (a.1 ≤ b.1))
  "    .text\n" ++ String.join (m.functions.map Function.listing) ++
    if m.data.isEmpty then "" else "\n    .data\n" ++ listData m.data ordered

end Endmark.Code

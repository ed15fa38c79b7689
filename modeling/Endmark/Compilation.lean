import Endmark.Image.Link
import Endmark.Library.Bundled
import Endmark.Lowering.Module
import Endmark.Tree.Statements
import Endmark.Typed.Infer

/-!
# Compilation

A source and the units of a library are parsed, resolved and typed, lowered, compiled to
machine code and linked.  The first stage that reports an error is the last one; warnings go
along and are noted once the program is lowered.
-/

namespace Endmark

namespace Compilation

/-- Why nothing is compiled. -/
inductive Error where
  /-- Errors in the sources, with the warnings before them. -/
  | faults (reports : List Diagnostic) (files : Files)
  | library (fault : Library.Fault)
  | unreadable (fault : Folder.Fault)
  | unwritable (path : String) (fault : Folder.Fault)
  /-- All work was given up. -/
  | abandoned

def Error.message : Error → String
  | .faults reports files => Diagnostic.renderAll reports files
  | .library (.missing root) => s!"library directory was not found at {root}"
  | .library (.unreadable fault) | .unreadable fault => s!"failed to read source: {fault.message}"
  | .unwritable path fault => s!"failed to write {path}: {fault.message}"
  | .abandoned => ""

/-- What is worth a note even if the compilation goes on. -/
inductive Notice where
  /-- Inference stopped before it settled. -/
  | unsettled
  | warning (report : String)
deriving DecidableEq, Repr

end Compilation

/-- A compilation, which makes notes in order. -/
abbrev Compilation := ExceptT Compilation.Error (StateM (Array Compilation.Notice))

namespace Compilation

def note (n : Notice) : Compilation PUnit :=
  modify (·.push n)

/-- The result of a stage, or the reports before it and its own. -/
def stage {α : Type} (before : List Diagnostic) (files : Files) :
    Except (List Diagnostic) α → Compilation α
  | .ok a => return a
  | .error reports => throw (.faults (before ++ reports) files)

/-- Where the library comes from. -/
inductive LibraryRoot where
  | none
  | bundled
  | folder (root : String)
deriving DecidableEq, Repr, Inhabited

/-- The units of the library. -/
def library (d : Folder) : LibraryRoot → Compilation (List LibraryUnit)
  | .none => return []
  | .bundled => return Library.bundled
  | .folder root =>
    match Library.load d root with
    | .ok units => return units
    | .error fault => throw (.library fault)

def unitName (u : LibraryUnit) : String :=
  s!"stdlib/{u.path.render}"

/-- The source and then the units of the library. -/
def filesOf (name : String) (source : List UInt8) (units : List LibraryUnit) : Files :=
  units.foldl (fun (fs : Files) u => fs.add (unitName u) u.source) (Files.empty.add name source)

/-- The report of a statement in a unit of the library. -/
def strayStatement (span : Span) : Diagnostic :=
  { kind := .parse
    severity := .error
    message := "library units may only contain function definitions"
    span
    notes := ["top-level statements belong in the main source"] }

/-- The statements in a unit, of which a library may have none. -/
def strayStatements (u : Tree.Unit) : List Diagnostic :=
  u.items.filterMap fun
    | .function _ => none
    | .statement s => some (strayStatement s.span)

/-- A lowered program, with what later stages report on. -/
structure Lowered where
  ir : Ir.Module
  library : List LibraryUnit
  warnings : List Diagnostic
  files : Files

/-- Parses all files and checks that the units of the library hold functions only. -/
def parse (files : Files) : Compilation Tree.Program := do
  let parsed := files.files.toList.zipIdx.map fun (f, k) => Tree.parse (some k) f.source
  let units := parsed.map (·.unit)
  let stray := units.tail.flatMap strayStatements
  let reports := parsed.flatMap (·.diagnostics) ++ stray
  match units with
  | main :: libraries =>
    if Diagnostic.anyError reports then throw (.faults reports files)
    else return ⟨main, libraries⟩
  | [] => throw (.faults reports files)

/-- Resolves names and infers types; gives the warnings, too. -/
def typed (files : Files) (program : Tree.Program) :
    Compilation (Typed.Module × List Diagnostic) := do
  let inferred := Typed.infer program
  if !inferred.settled then
    note .unsettled
  match inferred.module with
  | some m => return (m, inferred.diagnostics)
  | none => throw (.faults inferred.diagnostics files)

def noteWarnings (files : Files) : List Diagnostic → Compilation PUnit
  | [] => return ⟨⟩
  | d :: rest => do
    note (.warning (d.render files))
    noteWarnings files rest

/-- Reads, checks and lowers a program with its library. -/
def lowered (d : Folder) (root : LibraryRoot) (name : String) (source : List UInt8) :
    Compilation Lowered := do
  let units ← library d root
  let files := filesOf name source units
  let program ← parse files
  let (module, warnings) ← typed files program
  match Lowering.lower module with
  | .error .abandoned => throw .abandoned
  | .error (.faults reports) => throw (.faults (warnings ++ reports) files)
  | .ok ir =>
    noteWarnings files warnings
    return ⟨ir, units, warnings, files⟩

/-- The intermediate representation as text. -/
def irText (d : Folder) (root : LibraryRoot) (name : String) (source : List UInt8) :
    Compilation String := do
  return (← lowered d root name source).ir.render

/-- The code of a lowered program. -/
def code (l : Lowered) : Compilation Code.Module :=
  stage l.warnings l.files (Code.compile l.ir)

/-- The listing of a program. -/
def listing (d : Folder) (root : LibraryRoot) (name : String) (source : List UInt8) :
    Compilation String := do
  let l ← lowered d root name source
  return (← code l).listing

/-- A program, the library it was compiled with, and the warnings. -/
structure Product where
  image : Image
  library : List LibraryUnit
  warnings : List Diagnostic
  files : Files

def Product.warningText (p : Product) : String :=
  Diagnostic.renderAll p.warnings p.files

/-- The image of a program. -/
def program (d : Folder) (root : LibraryRoot) (name : String) (source : List UInt8) :
    Compilation Product := do
  let l ← lowered d root name source
  let compiled ← code l
  let image ← stage l.warnings l.files (Image.link compiled)
  return ⟨image, l.library, l.warnings, l.files⟩

def fileProgram (d : Folder) (root : LibraryRoot) (path : String) : Compilation Product :=
  match d.readText path with
  | .ok source => program d root path source
  | .error fault => throw (.unreadable fault)

/-- The folder with a program written to a file. -/
def saveImage (d : Folder) (path : String) (image : Image) : Compilation Folder :=
  match d.writeProgram path image.bytes with
  | .ok d => return d
  | .error fault => throw (.unwritable path fault)

/-- The result, with the notices on the way to it. -/
def outcome {α : Type} (c : Compilation α) : Except Error α × List Notice :=
  let (result, notes) := (ExceptT.run c).run #[]
  (result, notes.toList)

end Compilation

end Endmark

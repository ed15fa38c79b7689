import Endmark.Command.Basic
import Endmark.Process.Run

/-!
# Commands

A command reads a source, compiles it and writes what is asked for; a program can be run
then.  What is shown, what is reported and the files afterwards depend on nothing but the
command, the files before and the standard input.
-/

namespace Endmark.Command

/-- Why a command fails: what it was doing, and the causes, each one that of the one before
it. -/
structure Failure where
  context : String
  causes : List String
deriving DecidableEq, Repr

/-- Puts lines below the first one further to the right. -/
def hang (indent : Nat) (text : String) : String :=
  let pad := String.ofList (List.replicate indent ' ')
  s!"\n{pad}".intercalate ((Text.pieces (· == '\n') text.toList).map String.ofList)

/-- A cause as it is shown among several. -/
def numbered (k : Nat) (cause : String) : String :=
  let digits := toString k
  let pad := String.ofList (List.replicate (5 - digits.length) ' ')
  s!"{pad}{digits}: {hang 7 cause}"

def renderCauses : List String → List String
  | [cause] => [s!"    {hang 4 cause}"]
  | causes => causes.zipIdx.map fun (cause, k) => numbered k cause

def Failure.render (f : Failure) : String :=
  let causes :=
    if f.causes.isEmpty then ""
    else "\n\nCaused by:\n" ++ "\n".intercalate (renderCauses f.causes)
  s!"Error: {f.context}{causes}\n"

/-- What a command has shown and done so far. -/
structure Progress where
  folder : Folder
  input : List UInt8
  /-- The bytes that are shown, and those that are reported. -/
  output : List UInt8 := []
  errors : List UInt8 := []

/-- How a command fails. -/
inductive Stop where
  | failed (failure : Failure)
  /-- All work was given up. -/
  | abandoned

/-- Runs a command. -/
abbrev Execution := ExceptT Stop (StateM Progress)

namespace Execution

def print (bytes : List UInt8) : Execution PUnit :=
  modify fun p => { p with output := p.output ++ bytes }

def report (bytes : List UInt8) : Execution PUnit :=
  modify fun p => { p with errors := p.errors ++ bytes }

def note (level origin text : String) : Execution PUnit :=
  report (Text.bytes s!"[{level} {origin}] {hang 4 text}\n")

/-- Notes the course of the command, if that is asked for. -/
def info (c : Command) (text : String) : Execution PUnit :=
  if c.verbosity = 0 then return ⟨⟩ else note "INFO " "aimacro" text

def fail {α : Type} (context : String) (causes : List String) : Execution α :=
  throw (.failed ⟨context, causes⟩)

/-- The result of an operation on files, or a failure with it as the cause. -/
def files {α : Type} (context : String) : Except Folder.Fault α → Execution α
  | .ok a => return a
  | .error fault => fail context [fault.message]

/-- Notes what a compilation found worth a note. -/
def notices : List Compilation.Notice → Execution PUnit
  | [] => return ⟨⟩
  | .unsettled :: rest => do
    note "WARN " "aimacro_core::typecheck"
      s!"type inference stopped after {Typed.maxPasses} passes without settling"
    notices rest
  | .warning text :: rest => do
    note "WARN " "aimacro_core::compiler" text
    notices rest

def causes (e : Compilation.Error) : List String :=
  match e with
  | .library (.unreadable fault) | .unreadable fault | .unwritable _ fault =>
    [e.message, fault.message]
  | _ => [e.message]

def compile {α : Type} (name : String) (c : Compilation α) : Execution α := do
  let (result, notes) := Compilation.outcome c
  notices notes
  match result with
  | .ok a => return a
  | .error .abandoned => throw .abandoned
  | .error e => fail s!"failed to compile {name}" (causes e)

/-- Makes the folders above a path. -/
def makeParent (path : String) : Execution PUnit := do
  let parent := Path.parent path
  if !parent.isEmpty then
    let folder ← files s!"failed to create directory {parent}" ((← get).folder.makeFolders parent)
    modify ({ · with folder })

/-- Writes a text to a file or a device. -/
def writeText (c : Command) (path text : String) : Execution PUnit := do
  makeParent path
  let folder := (← get).folder
  let context := s!"failed to write output file {path}"
  let p ← files context (folder.target [] path)
  match Folder.device? p with
  | some .output => print (Text.bytes text)
  | some .errors => report (Text.bytes text)
  | some .full => fail context [Folder.Fault.full.message]
  | some _ => pure ⟨⟩
  | none => modify ({ · with folder := folder.putBytes p (Text.bytes text) })
  info c s!"wrote {path}"

def writeProgram (c : Command) (path : String) (image : Image) : Execution PUnit := do
  makeParent path
  match (← get).folder.writeProgram path image.bytes with
  | .ok folder => modify ({ · with folder })
  | .error fault => fail (Compilation.Error.unwritable path fault).message [fault.message]
  info c s!"wrote {path}"

/-- What a program is called by: a mere name would be looked for elsewhere. -/
def programName (path : String) : String :=
  if Path.count path = 1 then s!"./{path}" else path

/-- The number of instructions after which a program is stopped. -/
def stepLimit : Nat := 1000000000

/-- Runs a program and shows the status it ends with. -/
def runProgram (path : String) (image : Image) : Execution PUnit := do
  let s ← get
  let program ← files s!"failed to run {programName path}"
    (Folder.Place.path <$> s.folder.place [] path)
  let started := Process.start image (programName path) program s.folder s.input
  let finished := started.run stepLimit
  modify ({ · with folder := finished.world.folder, input := finished.world.input })
  print finished.world.output.reverse
  report finished.world.errors.reverse
  match finished.ending with
  | .exited status => print (Text.bytes s!"Program exited with {status}\n")
  | .killed => fail s!"{programName path} was terminated by a signal" []

/-- All of the standard input, which must be text. -/
def readInput (context : String) : Execution (List UInt8) := do
  let bytes := (← get).input
  modify ({ · with input := [] })
  if (Text.ofBytes? bytes).isNone then
    fail context [Folder.Fault.notText.message]
  return bytes

/-- The source with its name, from a file or from the standard input. -/
def source (c : Command) : Execution (String × List UInt8) := do
  match c.input with
  | some path =>
    let context := s!"failed to read input file {path}"
    let folder := (← get).folder
    match folder.find [] path with
    | .ok (_, .device .input) => return (path, ← readInput context)
    | _ => return (path, ← files context (folder.readText path))
  | none => return ("<stdin>", ← readInput "failed to read source from stdin")

/-- Shows a text or writes it to a file. -/
def deliver (c : Command) (text : String) : Execution PUnit := do
  match c.output with
  | some path => writeText c path text
  | none => print (Text.bytes text)
  if c.run then
    report (Text.bytes "--run is ignored for text outputs\n")

/-- Writes a program and runs it if that is asked for. -/
def deliverProgram (c : Command) (p : Compilation.Product) : Execution PUnit := do
  if !p.warnings.isEmpty then
    report (Text.bytes (p.warningText ++ "\n"))
  let path := c.output.getD "a.out"
  writeProgram c path p.image
  if c.run then
    runProgram path p.image

/-- Compiles what the command names and writes the result. -/
def command (c : Command) : Execution PUnit := do
  let (name, bytes) ← source c
  info c s!"compiling {name}"
  let folder := (← get).folder
  match c.form.getD .program with
  | .program =>
    deliverProgram c (← compile name (Compilation.program folder c.libraryRoot name bytes))
  | .ir => deliver c (← compile name (Compilation.irText folder c.libraryRoot name bytes))
  | .listing => deliver c (← compile name (Compilation.listing folder c.libraryRoot name bytes))

end Execution

/-- What is left of a command: a status, what it has shown and reported, and the files. -/
structure Result where
  status : Nat
  output : List UInt8
  errors : List UInt8
  folder : Folder

/-- Runs a command in a folder. -/
def execute (c : Command) (folder : Folder) (stdin : List UInt8) : Result :=
  match (ExceptT.run (Execution.command c)).run { folder, input := stdin } with
  | (.ok _, p) => ⟨0, p.output, p.errors, p.folder⟩
  | (.error (.failed failure), p) =>
    ⟨1, p.output, p.errors ++ Text.bytes failure.render, p.folder⟩
  | (.error .abandoned, p) => ⟨101, p.output, p.errors, p.folder⟩

end Endmark.Command

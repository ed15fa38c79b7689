import Endmark.Command.Execute

/-!
# The program

Reads the command line and the files it names, executes the command, and writes what that
has shown and the files it has changed.
-/

namespace Endmark.Main

/-- What is at a path, as an entry of the working folder. -/
def entry (text : String) : IO.FS.DirEntry :=
  ⟨".", text⟩

/-- Takes what is at a path into the folder, where it has another path. -/
def probe (d : Folder) (text : String) (p : Path) : IO Folder := do
  match ← (entry text).path.metadata.toBaseIO with
  | .error _ => return d
  | .ok data =>
    match data.type with
    | .dir => return { d with made := p :: d.made }
    | .file =>
      let bytes ← IO.FS.readBinFile (entry text).path
      return { d with files := (p, { bytes := bytes.toList }) :: d.files }
    | _ => return d

/-- Takes what is at a path into the folder, and the folders that lead there. -/
def probeAlong (d : Folder) (text : String) : IO Folder := do
  let start := if Path.isAbsolute text then ["/"] else []
  let (d, _) ← (Path.names text).foldlM
    (fun (d, p) name => do
      if Path.isDots name then
        return (d, if name = ".." then Path.above p else p)
      let there := p ++ [name]
      return (← probe d (Path.render there) there, there)) (d, start)
  return d

partial def probeBelow (d : Folder) (text : String) : IO Folder := do
  let d ← probeAlong d text
  if d.isFolder [] text then
    let entries ← (entry text).path.readDir
    entries.foldlM (fun d e => probeBelow d s!"{text}/{e.fileName}") d
  else
    return d

/-- The files that a command can see: those that it names, and all below the library and, if a
program is run, the working folder. -/
def snapshot (c : Command) : IO Folder := do
  let named := c.input.toList ++ c.output.toList ++ c.library.toList
  let d ← named.foldlM probeAlong .empty
  let roots := c.library.toList ++ (if c.run then ["."] else [])
  roots.foldlM probeBelow d

/-- The rights of a program: all may run it. -/
def programRights : IO.FileRight :=
  { user := { read := true, write := true, execution := true }
    group := { read := true, execution := true }
    other := { read := true, execution := true } }

/-- Writes the files that have changed. -/
def store (before after : Folder) : IO PUnit := do
  for p in after.made.reverse do
    if !before.made.contains p then
      IO.FS.createDirAll p.render
  for (p, _) in before.files do
    if (after.file? p).isNone then
      IO.FS.removeFile p.render
  for (p, file) in after.files do
    if before.file? p ≠ some file then
      IO.FS.writeBinFile p.render ⟨file.bytes.toArray⟩
      if file.executable then
        IO.setAccessRights p.render programRights

partial def readAll (stream : IO.FS.Stream) (sofar : ByteArray) : IO ByteArray := do
  let more ← stream.read 65536
  if more.isEmpty then return sofar else readAll stream (sofar ++ more)

/-- How the program is used. -/
def usage : String :=
  "\n".intercalate
    ["Usage: endmark [OPTIONS]", "",
      "  -i, --input <INPUT>    Source file (reads stdin when omitted)",
      "  -o, --output <OUTPUT>  Output path (defaults to a.out for executables, stdout for text)",
      "      --stdlib <PATH>    Path to the library root (defaults to the bundled library)",
      "      --no-stdlib        Compile without any library units",
      "      --emit <EMIT>      exe, ir or asm",
      "      --run              Run the executable after writing it",
      "  -v, --verbose          Say more (repeatable)", ""]

/-- Executes a command with real files. -/
def perform (c : Command) : IO UInt32 := do
  let stdin ← if c.input.isSome && !c.run then pure .empty else readAll (← IO.getStdin) .empty
  let before ← snapshot c
  let result := c.execute before stdin.toList
  store before result.folder
  (← IO.getStdout).write ⟨result.output.toArray⟩
  (← IO.getStderr).write ⟨result.errors.toArray⟩
  return UInt32.ofNat result.status

end Endmark.Main

def main (args : List String) : IO UInt32 := do
  match Endmark.Command.parse args with
  | .ok c => Endmark.Main.perform c
  | .error .help =>
    IO.print Endmark.Main.usage
    return 0
  | .error .wrong =>
    IO.eprint Endmark.Main.usage
    return 2

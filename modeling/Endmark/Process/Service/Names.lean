import Endmark.Process.Service.Files

/-!
# Files by their names

What is done with files and folders that need not be open.
-/

namespace Endmark.Process.Service

open Machine (wordBytes)

/-- Replaces the folder.  If the file of the program is not in it any more, it is not looked for
again. -/
def setFolder (folder : Folder) : Service UInt64 := do
  let kept (p : Path) := (folder.file? p).isSome
  changeWorld fun w => { w with folder, program := w.program.filter kept }
  return 0

/-- Changes what a text in memory leads to. -/
def changeAt (n address : UInt64) (f : Folder → Path → String → Except Folder.Fault Folder) :
    Service UInt64 := do
  let text ← pathAt address
  let here ← baseOf n text
  setFolder (← files (f (← getWorld).folder here text))

/-- The working folder as the one from which a path leads. -/
def fromHere : UInt64 := (Int64.ofInt hereNumber).toUInt64

def makeFolderAt (n address : UInt64) : Service UInt64 :=
  changeAt n address Folder.makeFolder

/-- Removes a file, or a folder if the bits say so. -/
def removeAt (n address bits : UInt64) : Service UInt64 :=
  changeAt n address (if hasBits bits 0x200 then Folder.removeFolder else Folder.removeFile)

/-- Gives a file or a folder another name. -/
def renameAt (source target : UInt64) : Service UInt64 := do
  let a ← textAt source
  let b ← textAt target
  let w ← getWorld
  let (folder, p, q) ← files (w.folder.rename w.here a b)
  changeWorld (·.withMoved folder p q)
  return 0

/-- Makes a folder the working one. -/
def enterAt (address : UInt64) : Service UInt64 := do
  let text ← pathAt address
  let w ← getWorld
  match ← files (w.folder.find w.here text) with
  | (here, .folder) =>
    changeWorld ({ · with here })
    return 0
  | _ => refuse (.files .notFolder)

/-- Makes an open folder the working one. -/
def enterOpen (n : UInt64) : Service UInt64 := do
  match (← openFile n).2.channel with
  | .folder here =>
    changeWorld ({ · with here })
    return 0
  | _ => refuse (.files .notFolder)

/-! ### Properties -/

/-- What a text in memory leads to. -/
def entryAt (n address : UInt64) : Service Folder.Entry := do
  let text ← pathAt address
  let here ← baseOf n text
  return (← files ((← getWorld).folder.find here text)).2

/-- The kind and the rights of what is at a path. -/
def modeOf : Folder.Entry → UInt64
  | .folder => 0o40755
  | .file file => if file.executable then 0o100755 else 0o100644
  | .device .null | .device .full => 0o20666
  | .device _ => 0o10600

/-- The number of bytes that the properties of a file have. -/
def propertiesSize : Nat := 144

/-- The properties of what is at a path, as they are in memory: those that depend on where the
files are kept are zero. -/
def propertiesOf (entry : Folder.Entry) : List UInt8 :=
  let size := match entry with
    | .file file => file.bytes.length
    | .folder => pageSize
    | .device _ => 0
  let links : UInt64 := if entry = .folder then 2 else 1
  let words : List UInt64 := [0, 0, links, modeOf entry, 0, 0, UInt64.ofNat size,
    UInt64.ofNat pageSize, UInt64.ofNat ((size + 511) / 512)]
  let bytes := words.flatMap wordBytes
  bytes ++ List.replicate (propertiesSize - bytes.length) 0

def propertiesAt (n address target : UInt64) : Service UInt64 := do
  store target (propertiesOf (← entryAt n address))
  return 0

/-- Stores the properties of an open file. -/
def properties (n target : UInt64) : Service UInt64 := do
  let (_, file) ← openFile n
  let w ← getWorld
  let entry : Folder.Entry := match file.channel with
    | .device device => .device device
    | .folder _ => .folder
    | .pipe _ => .device .input
    | .file p => .file ((w.folder.file? p).getD default)
  store target (propertiesOf entry)
  return 0

/-- May something be done with what is at a path?  All may be done, but not every file is a
program. -/
def permitted (n address mode : UInt64) : Service UInt64 := do
  if !onlyBits mode 7 then
    refuse .badArgument
  let entry ← entryAt n address
  let runnable := match entry with
    | .folder => true
    | .file file => file.executable
    | .device _ => false
  if hasBits mode 1 && !runnable then refuse .denied else return 0

def setRightsAt (address rights : UInt64) : Service UInt64 := do
  let text ← pathAt address
  let w ← getWorld
  match ← files (w.folder.find w.here text) with
  | (p, .file file) =>
    setFolder (w.folder.put p { file with executable := hasBits rights 0o111 })
  | _ => return 0

def setRights (n rights : UInt64) : Service UInt64 := do
  let (_, file) ← openFile n
  let w ← getWorld
  match file.channel with
  | .file p =>
    match w.folder.file? p with
    | some file => setFolder (w.folder.put p { file with executable := hasBits rights 0o111 })
    | none => return 0
  | _ => return 0

/-- Sets the rights that new files do not get; gives those from before. -/
def setMask (mask : UInt64) : Service UInt64 := do
  let before := (← getWorld).mask
  changeWorld ({ · with mask := mask &&& 0o777 })
  return before

def linkAt (address size : UInt64) : Service UInt64 := do
  if short size ≤ 0 then
    refuse .badArgument
  let _ ← entryAt fromHere address
  refuse .badArgument

/-- Starts another program; there is none but this one. -/
def startAt (address : UInt64) : Service UInt64 := do
  match ← entryAt fromHere address with
  | .file file => if file.executable then refuse .notProgram else refuse .denied
  | _ => refuse .denied

end Endmark.Process.Service

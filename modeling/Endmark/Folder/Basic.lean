import Endmark.Folder.Path
import Endmark.Text.Utf8

/-!
# Folders

A working folder with all files below it, by their paths, and what is around it: the folders
above, the root, and the devices of the system.  Operations take paths as they are written.
-/

namespace Endmark

/-- A file, and whether its owner may run it. -/
structure File where
  bytes : List UInt8
  executable : Bool := false
deriving DecidableEq, Repr, Inhabited

/-- The files below a folder, and the folders that were made there. -/
structure Folder where
  files : List (Path × File)
  made : List Path
deriving Repr, Inhabited

namespace Folder

/-- Why an operation on files fails. -/
inductive Fault where
  | missing
  | busy
  | present
  | notFolder
  | isFolder
  | invalid
  | full
  | nameTooLong
  | notEmpty
  | notText
deriving DecidableEq, Repr

/-- The number that the system has for a fault. -/
def Fault.code : Fault → Nat
  | .missing => 2
  | .busy => 16
  | .present => 17
  | .notFolder => 20
  | .isFolder => 21
  | .invalid | .notText => 22
  | .full => 28
  | .nameTooLong => 36
  | .notEmpty => 39

def Fault.text : Fault → String
  | .missing => "No such file or directory"
  | .busy => "Device or resource busy"
  | .present => "File exists"
  | .notFolder => "Not a directory"
  | .isFolder => "Is a directory"
  | .invalid => "Invalid argument"
  | .full => "No space left on device"
  | .nameTooLong => "File name too long"
  | .notEmpty => "Directory not empty"
  | .notText => "stream did not contain valid UTF-8"

/-- A fault as it is shown, with its number unless it is about text. -/
def Fault.message : Fault → String
  | .notText => Fault.notText.text
  | fault => s!"{fault.text} (os error {fault.code})"

def empty : Folder :=
  ⟨[], []⟩

/-- The folders on the way to a path. -/
def through (p : Path) : List Path :=
  (List.range p.length).map p.take

def ofFiles (files : List (String × List UInt8)) : Folder :=
  let paths := files.map fun (text, bytes) => (Path.ofString text, bytes)
  ⟨paths.map fun (p, bytes) => (p, { bytes }), paths.flatMap fun (p, _) => through p⟩

def addFolder (d : Folder) (text : String) : Folder :=
  { d with made := Path.ofString text :: d.made }

/-! ### What is at a path -/

/-- What can be read and written and is no file. -/
inductive Device where
  /-- It is empty, and what is written to it is lost. -/
  | null
  /-- Nothing can be written to it. -/
  | full
  /-- The streams of whoever asks for them. -/
  | input
  | output
  | errors
deriving DecidableEq, Repr

inductive Entry where
  | folder
  | file (file : File)
  | device (device : Device)
deriving DecidableEq, Repr

def systemFolders : List Path :=
  [["/"]] ++ ["bin", "dev", "etc", "home", "lib", "opt", "proc", "root", "run", "sbin", "srv",
    "sys", "tmp", "usr", "var"].map fun name => ["/", name]

def device? : Path → Option Device
  | ["/", "dev", "null"] => some .null
  | ["/", "dev", "full"] => some .full
  | ["/", "dev", "stdin"] => some .input
  | ["/", "dev", "stdout"] => some .output
  | ["/", "dev", "stderr"] => some .errors
  | _ => none

def file? (d : Folder) (p : Path) : Option File :=
  d.files.lookup p

/-- Is `q` strictly inside `p`? -/
def isBelow (q p : Path) : Bool :=
  p.isPrefixOf q && p != q

/-- Is anything inside `p`? -/
def isAbove (d : Folder) (p : Path) : Bool :=
  d.made.any (isBelow · p) || d.files.any fun (q, _) => isBelow q p

/-- Is `p` a folder, even with nothing inside? -/
def hasFolder (d : Folder) (p : Path) : Bool :=
  p.all (· == "..") || systemFolders.contains p || d.made.contains p

/-- What is at a path. -/
def entry? (d : Folder) (p : Path) : Option Entry :=
  if d.hasFolder p then some .folder
  else match device? p with
    | some device => some (.device device)
    | none => (d.file? p).map .file

/-! ### Where a path leads -/

def maxName : Nat := 255

/-- The most bytes of a path, with the zero that ends it. -/
def maxPath : Nat := 4096

/-- What is at a path, if its last name can be one. -/
def look (d : Folder) (p : Path) : Except Fault (Option Entry) :=
  if maxName < (p.getLast?.getD "").utf8ByteSize then .error .nameTooLong
  else .ok (d.entry? p)

/-- Goes from a folder along a name to another folder. -/
def enter (d : Folder) (here : Path) (name : String) : Except Fault Path :=
  if name = "." then .ok here
  else if name = ".." then .ok (Path.above here)
  else do
    let there := here ++ [name]
    match ← d.look there with
    | some .folder => return there
    | some _ => throw .notFolder
    | none => throw .missing

/-- Where a text leads, before it is known what is there. -/
inductive Place where
  /-- A folder that is reached by dots, or the root. -/
  | folder (p : Path)
  /-- What has a name in a folder, and whether a slash follows the name. -/
  | named (p : Path) (slash : Bool)
deriving DecidableEq, Repr

def Place.path : Place → Path
  | .folder p | .named p _ => p

/-- Where a path leads to from some folder.  All but its last name must lead to folders. -/
def place (d : Folder) (here : Path) (text : String) : Except Fault Place := do
  if text.isEmpty then
    throw .missing
  if maxPath ≤ text.utf8ByteSize then
    throw .nameTooLong
  let start := if Path.isAbsolute text then ["/"] else here
  match (Path.names text).reverse with
  | [] => return .folder start
  | last :: before =>
    let reached ← before.reverse.foldlM d.enter start
    if Path.isDots last then return .folder (← d.enter reached last)
    else return .named (reached ++ [last]) (Path.endsInSlash text)

/-- What a text leads to, which must be there. -/
def find (d : Folder) (here : Path) (text : String) : Except Fault (Path × Entry) := do
  match ← d.place here text with
  | .folder p => return (p, .folder)
  | .named p slash =>
    match ← d.look p with
    | some .folder => return (p, .folder)
    | some entry => if slash then throw .notFolder else return (p, entry)
    | none => throw .missing

def isFolder (d : Folder) (here : Path) (text : String) : Bool :=
  match d.find here text with
  | .ok (_, .folder) => true
  | _ => false

/-- The path of a file that may be written or made. -/
def target (d : Folder) (here : Path) (text : String) : Except Fault Path := do
  match ← d.place here text with
  | .folder _ | .named _ true => throw .isFolder
  | .named p false =>
    match ← d.look p with
    | some .folder => throw .isFolder
    | _ => return p

/-! ### Reading -/

/-- The bytes of a file that holds text. -/
def readText (d : Folder) (text : String) : Except Fault (List UInt8) := do
  match ← d.find [] text with
  | (_, .folder) => throw .isFolder
  | (_, .device _) => return []
  | (_, .file file) =>
    if (Text.ofBytes? file.bytes).isSome then return file.bytes else throw .notText

/-- The files inside a folder in order, by their paths from it. -/
def filesBelow (d : Folder) (p : Path) : List (Path × File) :=
  (d.files.filterMap fun (q, file) =>
    if isBelow q p then some (q.drop p.length, file) else none).mergeSort
      fun a b => Path.before a.1 b.1

/-! ### Writing -/

/-- Puts a file at a path, in place of the one that was there. -/
def put (d : Folder) (p : Path) (file : File) : Folder :=
  { d with files := (d.files.filter (·.1 != p)) ++ [(p, file)] }

/-- The folder with a file whose bytes are replaced, or a new one. -/
def putBytes (d : Folder) (p : Path) (bytes : List UInt8) : Folder :=
  d.put p { bytes, executable := ((d.file? p).map (·.executable)).getD false }

/-- Makes a folder where there is nothing yet. -/
def makeFolder (d : Folder) (here : Path) (text : String) : Except Fault Folder := do
  match ← d.place here text with
  | .folder _ => throw .present
  | .named p _ =>
    match ← d.look p with
    | some _ => throw .present
    | none => return { d with made := p :: d.made }

/-- The folder with the first of some folders made, each of which is in the next one, and the
others as far as they are missing. -/
def makeAlong (d : Folder) : List String → Except Fault Folder
  | [] => .ok d
  | text :: above =>
    let settled (d : Folder) (fault : Fault) : Except Fault Folder :=
      if d.isFolder [] text then .ok d else .error fault
    match d.makeFolder [] text with
    | .ok d => .ok d
    | .error .missing => do
      let d ← makeAlong d above
      match d.makeFolder [] text with
      | .ok d => return d
      | .error fault => settled d fault
    | .error fault => settled d fault

/-- Makes a folder and all those that lead to it, as far as they are missing. -/
def makeFolders (d : Folder) (text : String) : Except Fault Folder :=
  d.makeAlong (Path.leads text)

/-- Writes a program under another name first and then gives it the name that is asked for,
so that it is there as a whole or not at all. -/
def writeProgram (d : Folder) (text : String) (bytes : List UInt8) : Except Fault Folder := do
  match ← d.place [] text with
  | .folder _ => throw .busy
  | .named p slash =>
    let entry ← d.look p
    if slash then
      throw .notFolder
    if entry = some .folder then
      throw .isFolder
    return d.put p { bytes, executable := true }

/-! ### Removing and renaming -/

/-- Removes what is no folder. -/
def removeFile (d : Folder) (here : Path) (text : String) : Except Fault Folder := do
  match ← d.place here text with
  | .folder _ => throw .isFolder
  | .named p slash =>
    match ← d.look p with
    | some .folder => throw .isFolder
    | some _ =>
      if slash then throw .notFolder
      else return { d with files := d.files.filter (·.1 != p) }
    | none => throw .missing

/-- Removes a folder with nothing inside. -/
def removeFolder (d : Folder) (here : Path) (text : String) : Except Fault Folder := do
  match ← d.place here text with
  | .folder p =>
    if p = ["/"] then throw .busy
    else if (Path.names text).getLast? = some ".." then throw .notEmpty
    else throw .invalid
  | .named p _ =>
    match ← d.look p with
    | some .folder =>
      if d.isAbove p then throw .notEmpty else return { d with made := d.made.filter (· != p) }
    | some _ => throw .notFolder
    | none => throw .missing

/-- Where `p` is after what was at `source` moved to `target`. -/
def moved (source target p : Path) : Path :=
  if source.isPrefixOf p then target ++ p.drop source.length else p

/-- The folder with all at and below a path moved to another, where nothing is left. -/
def move (d : Folder) (source target : Path) : Folder :=
  { files := (d.files.filter fun (q, _) => !target.isPrefixOf q).map fun (q, file) =>
      (moved source target q, file)
    made := (d.made.filter (!target.isPrefixOf ·)).map (moved source target) }

/-- Can a file or a folder be moved to a path where something may be?  The slashes after the
names are those that folders have. -/
def checkMove (d : Folder) (p q : Path) (slashes : Bool) : Except Fault PUnit := do
  match ← d.look p, slashes with
  | none, _ => throw .missing
  | some .folder, _ =>
    let there ← d.look q
    if isBelow q p then
      throw .invalid
    if isBelow p q || (there = some .folder && p ≠ q && d.isAbove q) then
      throw .notEmpty
    if there.any (· ≠ .folder) then
      throw .notFolder
  | some _, true =>
    let _ ← d.look q
    throw .notFolder
  | some _, false =>
    let there ← d.look q
    if isBelow p q then
      throw .notEmpty
    if there = some .folder then
      throw .isFolder

/-- Gives a file or a folder another name; what has that name is replaced.  Gives the paths from
before and after as well. -/
def rename (d : Folder) (here : Path) (source target : String) :
    Except Fault (Folder × Path × Path) := do
  let a ← d.place here source
  let b ← d.place here target
  match a, b with
  | .named p slash, .named q slash' =>
    d.checkMove p q (slash || slash')
    return (if p = q then d else d.move p q, p, q)
  | _, _ => throw .busy

end Folder

end Endmark

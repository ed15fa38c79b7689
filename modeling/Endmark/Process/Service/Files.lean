import Endmark.Process.Service.Transfer

/-!
# Open files

Files are opened, get numbers and are closed.  A new number is the least that is free.
-/

namespace Endmark.Process.Service

/-! ### Numbers -/

/-- Gives an open file the least free number from some number on. -/
def assignFrom (least : Nat) (descriptor : Descriptor) : Service UInt64 := do
  match (← getWorld).freeNumber? least with
  | none => refuse .tooManyFiles
  | some n =>
    changeWorld (·.assign n descriptor)
    return UInt64.ofNat n

/-- Opens a file and gives it the least free number. -/
def install (file : OpenFile) (closing : Bool) : Service UInt64 := do
  let (index, w) := (← getWorld).add file
  changeWorld fun _ => w
  assignFrom 0 { index, closing }

def close (n : UInt64) : Service UInt64 := do
  let _ ← openFile n
  changeWorld (·.close (number n))
  return 0

/-- Gives an open file another number. -/
def duplicate (n : UInt64) : Service UInt64 := do
  let (index, _) ← openFile n
  assignFrom 0 { index }

/-- Gives an open file a certain number. -/
def duplicateTo (n target : UInt64) (closing : Bool) : Service UInt64 := do
  if World.maxFiles ≤ number target then
    refuse .badFile
  let (index, _) ← openFile n
  changeWorld (·.assign (number target) { index, closing })
  return UInt64.ofNat (number target)

/-- Gives an open file a certain number, which it can have already. -/
def renumber (n target : UInt64) : Service UInt64 := do
  let _ ← openFile n
  if number n = number target then return UInt64.ofNat (number n)
  else duplicateTo n target false

/-- The bit that says that a file is closed when another program is started. -/
def closingBit : UInt64 := 0x80000

/-- Gives an open file a certain number other than its own. -/
def renumberOther (n target flags : UInt64) : Service UInt64 := do
  if !onlyBits flags closingBit || number n = number target then
    refuse .badArgument
  duplicateTo n target (hasBits flags closingBit)

/-! ### Opening -/

/-- How a file is to be opened. -/
structure Opening where
  reads : Bool
  writes : Bool
  creates : Bool
  /-- Must the file be a new one? -/
  exclusive : Bool
  truncates : Bool
  folder : Bool
  closing : Bool
  /-- Can a new file be run as a program? -/
  executable : Bool
  status : UInt64

/-- How a file is to be opened, by the bits that say it. -/
def Opening.ofBits (bits rights mask : UInt64) : Opening :=
  { reads := !hasBits bits 1
    writes := (bits &&& 3 == 1) || (bits &&& 3 == 2)
    creates := hasBits bits 0x40
    exclusive := hasBits bits 0x80
    truncates := hasBits bits 0x200
    folder := hasBits bits 0x10000
    closing := hasBits bits closingBit
    executable := hasBits (rights &&& mask.complement) 0o111
    status := (bits.toUInt32.toUInt64 &&& (0x803C0 : UInt64).complement) ||| 0x8000 }

def Opening.file (o : Opening) (channel : Channel) : OpenFile :=
  { channel, reads := o.reads, writes := o.writes, status := o.status }

/-- Opens what is there. -/
def openEntry (o : Opening) (p : Path) (entry : Folder.Entry) : Service UInt64 := do
  if o.creates && o.exclusive then
    refuse (.files .present)
  match entry with
  | .folder =>
    if o.creates || o.writes || o.truncates then
      refuse (.files .isFolder)
    install (o.file (.folder p)) o.closing
  | .device device =>
    if o.folder then
      refuse (.files .notFolder)
    install (o.file (.device device)) o.closing
  | .file _ =>
    if o.folder then
      refuse (.files .notFolder)
    if (o.writes || o.truncates) && some p == (← getWorld).program then
      refuse .running
    if o.truncates then
      changeWorld fun w => { w with folder := w.folder.putBytes p [] }
    install (o.file (.file p)) o.closing

/-- Opens what a text leads to, or makes it. -/
def openPath (o : Opening) (here : Path) (text : String) : Service UInt64 := do
  let d := (← getWorld).folder
  match ← files (d.place here text) with
  | .folder p => openEntry o p .folder
  | .named p slash =>
    if o.creates && slash then
      refuse (.files .isFolder)
    match ← files (d.look p) with
    | some .folder => openEntry o p .folder
    | some entry => if slash then refuse (.files .notFolder) else openEntry o p entry
    | none =>
      if !o.creates then
        refuse (.files .missing)
      changeWorld fun w =>
        { w with folder := w.folder.put p { bytes := [], executable := o.executable } }
      install (o.file (.file p)) o.closing

/-- The number that stands for the working folder. -/
def hereNumber : Int := -100

/-- The folder from which a path leads: the working folder, or one that is open. -/
def baseOf (n : UInt64) (text : String) : Service Path := do
  if Path.isAbsolute text || short n = hereNumber then
    return (← getWorld).here
  match (← openFile n).2.channel with
  | .folder p => return p
  | _ => refuse (.files .notFolder)

/-- Opens the file whose path is in memory. -/
def openAt (n address bits rights : UInt64) : Service UInt64 := do
  let text ← pathAt address
  let here ← baseOf n text
  openPath (.ofBits bits rights (← getWorld).mask) here text

/-! ### Pipes -/

/-- Makes a pipe and stores the numbers of its ends. -/
def pipe (a flags : UInt64) : Service UInt64 := do
  if !onlyBits flags 0x84800 then
    refuse .badArgument
  let before ← getWorld
  let closing := hasBits flags closingBit
  changeWorld fun w => { w with pipes := w.pipes.push [] }
  let channel := Channel.pipe before.pipes.size
  let source ← install ⟨channel, true, false, 0, 0⟩ closing
  let target ← install ⟨channel, false, true, 1, 0⟩ closing
  let (count, memory) := storeFrom (← getMemory) a 0
    ((Machine.wordBytes source).take 4 ++ (Machine.wordBytes target).take 4)
  setMemory memory
  if count < 8 then
    changeWorld fun _ => before
    refuse .badAddress
  return 0

/-! ### Offsets and sizes -/

/-- The number of bytes that a channel leads to. -/
def sizeOf (w : World) : Channel → Nat
  | .file p => (w.bytesAt p).length
  | _ => 0

/-- Sets the offset of an open file. -/
def seek (n distance mode : UInt64) : Service UInt64 := do
  let (index, file) ← openFile n
  if 4 < number mode then
    refuse .badArgument
  if file.channel.isStream then
    refuse .cannotSeek
  if let .device _ := file.channel then
    return 0
  let size := sizeOf (← getWorld) file.channel
  let d := long distance
  let place : Int ← match number mode with
    | 0 => pure d
    | 1 => pure (file.offset + d)
    | 2 => pure (size + d)
    | mode =>
      if d < 0 || size ≤ d then refuse .noPlace
      else pure (if mode = 3 then d else size)
  if place < 0 then
    refuse .badArgument
  changeWorld (·.setFile index { file with offset := place.toNat })
  return UInt64.ofNat place.toNat

/-- Bytes with zeros added or the last ones taken away, so that there are so many. -/
def resized (bytes : List UInt8) (size : Nat) : List UInt8 :=
  bytes.take size ++ List.replicate (size - bytes.length) 0

/-- Gives an open file another size. -/
def resize (n size : UInt64) : Service UInt64 := do
  if long size < 0 then
    refuse .badArgument
  let (_, file) ← openFile n
  match file.channel with
  | .file p =>
    if !file.writes then
      refuse .badArgument
    changeWorld fun w =>
      { w with folder := w.folder.putBytes p (resized (w.bytesAt p) size.toNat) }
    return 0
  | _ => refuse .badArgument

/-- Gives the file at a path another size. -/
def resizeAt (address size : UInt64) : Service UInt64 := do
  if long size < 0 then
    refuse .badArgument
  let text ← pathAt address
  let w ← getWorld
  match ← files (w.folder.find w.here text) with
  | (_, .folder) => refuse (.files .isFolder)
  | (_, .device _) => refuse .badArgument
  | (p, .file file) =>
    if some p == w.program then
      refuse .running
    changeWorld fun w =>
      { w with folder := w.folder.putBytes p (resized file.bytes size.toNat) }
    return 0

/-- Makes sure that all of an open file is kept, which it is. -/
def flush (n : UInt64) : Service UInt64 := do
  let (_, file) ← openFile n
  if file.channel.isStream then refuse .badArgument else return 0

/-! ### Other properties -/

/-- Says whether a file is closed when another program is started. -/
def setClosing (n : UInt64) (closing : Bool) : Service UInt64 := do
  let (index, _) ← openFile n
  changeWorld (·.assign (number n) { index, closing })
  return 0

/-- Gives or sets a property of an open file. -/
def control (n command a : UInt64) : Service UInt64 := do
  let (index, file) ← openFile n
  let closing := (((← getWorld).descriptors.lookup (number n)).map (·.closing)).getD false
  match number command with
  | 0 | 1030 =>
    if World.maxFiles ≤ a.toNat then
      refuse .badArgument
    assignFrom a.toNat { index, closing := number command = 1030 }
  | 1 => return if closing then 1 else 0
  | 2 => setClosing n (hasBits a 1)
  | 3 => return file.status
  | 4 =>
    let status := (file.status &&& appendBit.complement) ||| (a &&& appendBit)
    changeWorld (·.setFile index { file with status })
    return 0
  | 9 => return 0
  | _ => refuse .badArgument

/-- Does what only some files can do; none of those here is a terminal. -/
def command (n command a : UInt64) : Service UInt64 := do
  let (_, file) ← openFile n
  let w ← getWorld
  match number command with
  | 0x5450 => setClosing n false
  | 0x5451 => setClosing n true
  | 0x541B =>
    let size := match file.channel with
      | .device .input => some w.input.length
      | .device .output | .device .errors => some 0
      | .pipe k => some (w.pipes.getD k []).length
      | .file _ => some (sizeOf w file.channel - file.offset)
      | _ => none
    match size with
    | some size =>
      store a ((Machine.wordBytes (UInt64.ofNat size)).take 4)
      return 0
    | none => refuse .notTerminal
  | _ => refuse .notTerminal

/-- What is done only with connections to others, none of which is open. -/
def connection (n : UInt64) : Service UInt64 := do
  let _ ← openFile n
  refuse .notSocket

end Endmark.Process.Service

import Endmark.Process.Fault

/-!
# The world of a process

What a program can reach besides its registers and its memory: the files, those that it has
opened among them, its input, and what it has written.
-/

namespace Endmark.Process

/-- What an open file leads to. -/
inductive Channel where
  | device (device : Folder.Device)
  | file (path : Path)
  | folder (path : Path)
  /-- The pipe with the given number, which the program has made for itself. -/
  | pipe (number : Nat)
deriving DecidableEq, Repr

/-- Do bytes pass through one after the other, so that there are no offsets? -/
def Channel.isStream : Channel → Bool
  | device .input | device .output | device .errors | pipe _ => true
  | _ => false

/-- A file as it was opened, with the place where it goes on. -/
structure OpenFile where
  channel : Channel
  reads : Bool
  writes : Bool
  /-- The bits that say how it has been opened. -/
  status : UInt64 := 0
  offset : Nat := 0
deriving DecidableEq, Repr

/-- The bit that says that all that is written is put at the end. -/
def appendBit : UInt64 := 0x400

/-- Is all that is written put at the end? -/
def OpenFile.appends (f : OpenFile) : Bool :=
  f.status &&& appendBit != 0

/-- What the number of an open file stands for. -/
structure Descriptor where
  /-- The index of the open file, which several numbers can share. -/
  index : Nat
  /-- Is it closed when another program is started? -/
  closing : Bool := false
deriving DecidableEq, Repr

/-- What a program can reach. -/
structure World where
  folder : Folder
  /-- The path of the program, unless its file has been removed. -/
  program : Option Path
  here : Path := []
  /-- The input that has not been read, and how much has been. -/
  input : List UInt8
  taken : Nat := 0
  /-- What has been written, the last bytes first. -/
  output : List UInt8 := []
  errors : List UInt8 := []
  /-- All files that have been opened, and the numbers of those that are open. -/
  opened : Array OpenFile
  descriptors : List (Nat × Descriptor)
  pipes : Array (List UInt8) := #[]
  /-- The rights that new files do not get. -/
  mask : UInt64 := 0o22
  heapStart : Nat
  heapStop : Nat
  /-- What is to be done on signals, where it is not the usual. -/
  actions : List (Nat × List UInt8) := []
  held : UInt64 := 0

namespace World

def start (folder : Folder) (program : Path) (input : List UInt8) (heap : Nat) : World :=
  { folder, program := some program, input
    opened := #[⟨.device .input, true, false, 0, 0⟩, ⟨.device .output, false, true, 1, 0⟩,
      ⟨.device .errors, false, true, 1, 0⟩]
    descriptors := [(0, ⟨0, false⟩), (1, ⟨1, false⟩), (2, ⟨2, false⟩)]
    heapStart := heap
    heapStop := heap }

/-- The most files that can be open. -/
def maxFiles : Nat := 20000

/-- What is open under a number. -/
def file? (w : World) (n : Nat) : Option (Nat × OpenFile) := do
  let descriptor ← w.descriptors.lookup n
  let file ← w.opened[descriptor.index]?
  return (descriptor.index, file)

/-- The world without the file with a number. -/
def close (w : World) (n : Nat) : World :=
  { w with descriptors := w.descriptors.filter (·.1 != n) }

/-- The world with a number for an open file; what had the number is closed. -/
def assign (w : World) (n : Nat) (descriptor : Descriptor) : World :=
  { w.close n with descriptors := (n, descriptor) :: (w.close n).descriptors }

/-- The least free number from `least` on. -/
def freeNumber? (w : World) (least : Nat) : Option Nat :=
  (List.range' least (maxFiles - least)).find? fun n => (w.descriptors.lookup n).isNone

def add (w : World) (file : OpenFile) : Nat × World :=
  (w.opened.size, { w with opened := w.opened.push file })

def setFile (w : World) (index : Nat) (file : OpenFile) : World :=
  { w with opened := w.opened.setIfInBounds index file }

/-- The channel after all at and below a path has been moved to another one. -/
def movedChannel (source target : Path) : Channel → Channel
  | .file p => .file (Folder.moved source target p)
  | .folder p => .folder (Folder.moved source target p)
  | channel => channel

/-- The world with a folder in which all at and below a path has been moved to another one. -/
def withMoved (w : World) (folder : Folder) (source target : Path) : World :=
  let kept := w.program.filter fun program => source = target || !target.isPrefixOf program
  { w with
    folder
    here := Folder.moved source target w.here
    program := kept.map (Folder.moved source target)
    opened := w.opened.map fun file =>
      { file with channel := movedChannel source target file.channel } }

def hasEnd (w : World) (pipe : Nat) (isEnd : OpenFile → Bool) : Bool :=
  w.descriptors.any fun (_, descriptor) =>
    match w.opened[descriptor.index]? with
    | some file => file.channel == .pipe pipe && isEnd file
    | none => false

/-- The bytes of a file, if it is there. -/
def bytesAt (w : World) (p : Path) : List UInt8 :=
  ((w.folder.file? p).map (·.bytes)).getD []

/-- Bytes with others put in their place from an offset on; a gap is filled with zeros. -/
def spliced (old : List UInt8) (offset : Nat) (new : List UInt8) : List UInt8 :=
  let before := old.take offset
  before ++ List.replicate (offset - before.length) 0 ++ new ++ old.drop (offset + new.length)

/-- Writes to what is open. -/
def send (w : World) (channel : Channel) (offset : Nat) (bytes : List UInt8) : World :=
  match channel with
  | .device .output => { w with output := bytes.reverse ++ w.output }
  | .device .errors => { w with errors := bytes.reverse ++ w.errors }
  | .device _ | .folder _ => w
  | .file p =>
    if (w.folder.file? p).isNone || bytes.isEmpty then w
    else { w with folder := w.folder.putBytes p (spliced (w.bytesAt p) offset bytes) }
  | .pipe k => { w with pipes := w.pipes.modify k (· ++ bytes) }

/-- At most so many bytes that can be read from a channel, at an offset where there are some. -/
def waiting (w : World) (channel : Channel) (offset count : Nat) : List UInt8 :=
  match channel with
  | .device .input => w.input.take count
  | .device .full => List.replicate count 0
  | .device _ | .folder _ => []
  | .file p => ((w.bytesAt p).drop offset).take count
  | .pipe k => (w.pipes.getD k []).take count

/-- The world after some bytes have been read from a channel. -/
def receive (w : World) (channel : Channel) (count : Nat) : World :=
  match channel with
  | .device .input => { w with input := w.input.drop count, taken := w.taken + count }
  | .pipe k => { w with pipes := w.pipes.modify k (·.drop count) }
  | _ => w

end World

end Endmark.Process

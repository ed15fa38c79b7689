import Endmark.Process.Basic

/-!
# Reading and writing

Bytes go between memory and open files.  In memory they can be in several pieces.  If a piece
cannot be used up to its end, streams pass on whole pages only, and files all that can be.
-/

namespace Endmark.Process.Service

/-- A piece of memory: its address and its size. -/
abbrev Piece := UInt64 × Nat

/-- The most bytes that are transferred at once. -/
def maxTransfer : Nat := 0x7FFFF000

/-- The most pieces that are used at once. -/
def maxPieces : Nat := 1024

/-- Pieces cut so that they have no more than some number of bytes. -/
def cut : Nat → List Piece → List Piece
  | _, [] => []
  | limit, (a, size) :: rest => (a, min size limit) :: cut (limit - size) rest

/-- The bytes of all pieces. -/
def total (pieces : List Piece) : Nat :=
  pieces.foldl (fun n piece => n + piece.2) 0

/-- The bytes of pieces, as far as they may be loaded. -/
def gather (m : Pages) : List Piece → List UInt8
  | [] => []
  | (a, size) :: rest =>
    let bytes := loadable m a size
    if bytes.length < size then bytes else bytes ++ gather m rest

/-- Stores bytes in pieces as far as that may be done; counts them. -/
def scatter (m : Pages) : List Piece → List UInt8 → Nat × Pages
  | [], _ => (0, m)
  | (a, size) :: rest, bytes =>
    let part := bytes.take size
    let (count, m) := storeFrom m a 0 part
    if count < part.length then
      (count, m)
    else
      let (more, m) := scatter m rest (bytes.drop size)
      (count + more, m)

/-- Checks that pieces are where memory of the program can be. -/
def check (pieces : List Piece) : Service PUnit :=
  if pieces.all fun (a, size) => a.toNat + size ≤ userLimit then return ⟨⟩
  else refuse .badAddress

def piecesAt (a count : UInt64) : Service (List Piece) := do
  if maxPieces < count.toNat then
    refuse .badArgument
  let pieces ← (List.range count.toNat).mapM fun k => do
    let entry := a + UInt64.ofNat (16 * k)
    return (← loadWord entry, ← loadWord (entry + 8))
  if pieces.any fun (_, size) => long size < 0 then
    refuse .badArgument
  return pieces.map fun (a, size) => (a, size.toNat)

/-- What is open under a number, with its index. -/
def openFile (n : UInt64) : Service (Nat × OpenFile) := do
  match (← getWorld).file? (number n) with
  | some found => return found
  | none => refuse .badFile

def seekable (n : UInt64) (offset? : Option UInt64) : Service (Nat × OpenFile) := do
  if offset?.any (long · < 0) then
    refuse .badArgument
  let (index, file) ← openFile n
  if offset?.isSome && file.channel.isStream then
    refuse .cannotSeek
  return (index, file)

/-- What a signal for a pipe without a reader does, and the fault after it. -/
def brokenPipe {α : Type} : Service α := do
  match (← getWorld).actions.lookup 13 with
  | some (1 :: _) => refuse .noReader
  | _ => finish .killed

/-- Writes the bytes in pieces of memory to an open file, at an offset if one is given. -/
def write (n : UInt64) (pieces : Service (List Piece)) (offset? : Option UInt64) :
    Service UInt64 := do
  let (index, file) ← seekable n offset?
  if !file.writes then
    refuse .badFile
  let pieces ← pieces
  check pieces
  let pieces := cut maxTransfer pieces
  let wanted := total pieces
  let w ← getWorld
  match file.channel with
  | .device .null => return UInt64.ofNat wanted
  | .device .full => refuse (.files .full)
  | .pipe k =>
    if !w.hasEnd k (·.reads) then
      brokenPipe
  | _ => pure ⟨⟩
  let bytes := gather (← getMemory) pieces
  let count :=
    if bytes.length < wanted && file.channel.isStream then bytes.length / pageSize * pageSize
    else bytes.length
  if count = 0 && wanted ≠ 0 then
    refuse .badAddress
  let size := match file.channel with
    | .file p => (w.bytesAt p).length
    | _ => 0
  let offset :=
    if file.appends then size else (offset?.map (·.toNat)).getD file.offset
  changeWorld (·.send file.channel offset (bytes.take count))
  if offset?.isNone then
    changeWorld (·.setFile index { file with offset := offset + count })
  return UInt64.ofNat count

/-- How many bytes leave a channel, if some of those that wait there could not be stored. -/
def leaving (w : World) (channel : Channel) (stored : Nat) : Nat :=
  match channel with
  | .device .input => (w.taken + stored) / pageSize * pageSize - w.taken
  | .pipe _ => stored / pageSize * pageSize
  | _ => stored

/-- Reads bytes from an open file into pieces of memory, from an offset on if one is given. -/
def read (n : UInt64) (pieces : Service (List Piece)) (offset? : Option UInt64) :
    Service UInt64 := do
  let (index, file) ← seekable n offset?
  if !file.reads then
    refuse .badFile
  let pieces ← pieces
  check pieces
  let pieces := cut maxTransfer pieces
  let w ← getWorld
  let offset := (offset?.map (·.toNat)).getD file.offset
  let bytes := w.waiting file.channel offset (total pieces)
  match file.channel with
  | .folder _ => refuse (.files .isFolder)
  | .pipe k =>
    if bytes.isEmpty && total pieces ≠ 0 && w.hasEnd k (·.writes) then
      finish .killed
  | _ => pure ⟨⟩
  let (stored, memory) := scatter (← getMemory) pieces bytes
  setMemory memory
  let count := if stored < bytes.length then leaving w file.channel stored else stored
  if count = 0 && !bytes.isEmpty then
    refuse .badAddress
  changeWorld (·.receive file.channel count)
  if offset?.isNone then
    changeWorld (·.setFile index { file with offset := offset + count })
  return UInt64.ofNat count

end Endmark.Process.Service

import Endmark.Image.Layout

/-!
# Headers of an executable

The image is a static executable with one segment for the headers and the text, and one for
the data when there is any.  Offsets in the file are addresses less the base address.
-/

namespace Endmark.Image

open Number (littleEndian)

def fileHeaderSize : Nat := 64

def segmentHeaderSize : Nat := 56

def headerSize (segments : Nat) : Nat :=
  fileHeaderSize + segmentHeaderSize * segments

/-- The header of the file. -/
def fileHeader (entry segments : Nat) : List UInt8 :=
  [0x7F, 0x45, 0x4C, 0x46, 2, 1, 1, 0] ++ List.replicate 8 0 ++
    littleEndian 2 2 ++ littleEndian 2 0x3E ++ littleEndian 4 1 ++ littleEndian 8 entry ++
    littleEndian 8 fileHeaderSize ++ littleEndian 8 0 ++ littleEndian 4 0 ++
    littleEndian 2 fileHeaderSize ++ littleEndian 2 segmentHeaderSize ++
    littleEndian 2 segments ++ List.replicate 6 0

/-- The header of a segment, which is loaded where it is in the file. -/
def segmentHeader (flags offset size : Nat) : List UInt8 :=
  littleEndian 4 1 ++ littleEndian 4 flags ++ littleEndian 8 offset ++
    littleEndian 8 (baseAddress + offset) ++ littleEndian 8 (baseAddress + offset) ++
    littleEndian 8 size ++ littleEndian 8 size ++ littleEndian 8 pageSize

/-- What may be done with the text: it is read and executed. -/
def textFlags : Nat := 5

/-- What may be done with the data: it is read and written. -/
def dataFlags : Nat := 6

end Endmark.Image

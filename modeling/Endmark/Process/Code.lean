import Endmark.Machine.Decoding
import Endmark.Process.Pages

/-!
# Code

The instructions of a program whose text does not change.  Each is decoded when it is run for
the first time.
-/

namespace Endmark.Process

open Machine (Inst)

def maxInstSize : Nat := 15

def decodeSized? (bytes : List UInt8) : Option (Inst Int × UInt64) :=
  (Machine.decode? bytes).map fun (i, rest) => (i, UInt64.ofNat (bytes.length - rest.length))

/-- What is decoded from some bytes and every byte after them, as far as an instruction
reaches. -/
structure Code where
  first : UInt64
  cells : Array (Thunk (Option (Inst Int × UInt64)))

namespace Code

def empty : Code :=
  ⟨0, #[]⟩

/-- Cells with those for some more bytes, in which each says what is decoded there. -/
def withCells (cells : Array (Thunk (Option (Inst Int × UInt64)))) :
    List UInt8 → Array (Thunk (Option (Inst Int × UInt64)))
  | [] => cells
  | b :: rest =>
    withCells (cells.push (Thunk.mk fun _ => decodeSized? ((b :: rest).take maxInstSize))) rest

/-- The code of a text that is mapped from an address on; the rest of its last page holds
zeros. -/
def ofText (first : Nat) (text : List UInt8) : Code :=
  let size := pageCount text.length * pageSize
  ⟨UInt64.ofNat first, withCells #[] (text ++ List.replicate (size - text.length) 0)⟩

/-- The instruction at an address and its size, if the address is one of the code. -/
def find? (c : Code) (a : UInt64) : Option (Option (Inst Int × UInt64)) :=
  (c.cells[(a - c.first).toNat]?).map Thunk.get

/-- Is some of the code on pages from one number up to another? -/
def isOn (c : Code) (first stop : Nat) : Bool :=
  let start := c.first.toNat / pageSize
  start < stop && first < start + pageCount c.cells.size

end Code

end Endmark.Process

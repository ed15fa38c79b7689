import Endmark.Folder.Basic

/-!
# Libraries

A library is a folder of units that programs are compiled with: all files below it whose
names have the extension of sources.
-/

namespace Endmark

/-- A source of the library. -/
structure LibraryUnit where
  path : Path
  source : List UInt8
deriving Repr, Inhabited

namespace Library

def sourceExtension : String := "aim"

/-- Why a library is not loaded. -/
inductive Fault where
  | missing (root : String)
  | unreadable (fault : Folder.Fault)
deriving DecidableEq, Repr

def isUnit (p : Path) : Bool :=
  (p.getLast?.bind Path.extension?) == some sourceExtension

def unitOf (p : Path) (file : File) : Except Fault LibraryUnit :=
  if (Text.ofBytes? file.bytes).isSome then .ok ⟨p, file.bytes⟩
  else .error (.unreadable .notText)

/-- The units of a library, by their paths. -/
def load (d : Folder) (root : String) : Except Fault (List LibraryUnit) :=
  match d.find [] root with
  | .ok (p, .folder) =>
    ((d.filesBelow p).filter (isUnit ·.1)).mapM fun (q, file) => unitOf q file
  | _ => .error (.missing root)

end Library

end Endmark

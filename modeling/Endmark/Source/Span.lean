import Endmark.Text.Utf8

/-!
# Spans

A span is a half-open range of byte offsets in one source file.  What no file holds, such
as code that the compiler adds, has a span in no file.
-/

namespace Endmark

/-- A range of byte offsets in a file given by its number, or in no file. -/
structure Span where
  file : Option Nat
  start : Nat
  stop : Nat
deriving DecidableEq, Repr, Inhabited

namespace Span

def nowhere : Span :=
  ⟨none, 0, 0⟩

/-- Does the span point into no file? -/
def isNowhere (s : Span) : Bool :=
  s.file.isNone

/-- The smallest span that covers both; the first one if they lie in different files. -/
def join (s t : Span) : Span :=
  if s.isNowhere then t
  else if t.isNowhere || t.file != s.file then s
  else ⟨s.file, min s.start t.start, max s.stop t.stop⟩

/-- The number of bytes covered. -/
def length (s : Span) : Nat :=
  s.stop - s.start

/-- Does the span cover no byte? -/
def isEmpty (s : Span) : Bool :=
  s.length == 0

def text (s : Span) (source : List UInt8) : String :=
  Text.slice source s.start s.stop

end Span

end Endmark

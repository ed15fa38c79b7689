import Endmark.Source.Span

/-!
# Source files

The texts of one compilation, numbered in the order in which they were added, and the line
and column of a span.
-/

namespace Endmark

/-- A named source text, held as its bytes, and where its lines start. -/
structure SourceFile where
  name : String
  source : List UInt8
  lineStarts : Array Nat
deriving Repr, Inhabited

/-- A position as it is shown: lines and columns count from one, columns in characters. -/
structure Location where
  file : String
  line : Nat
  column : Nat
deriving DecidableEq, Repr

namespace Location

/-- The file, the line and the column with colons between them. -/
def render (l : Location) : String :=
  s!"{l.file}:{l.line}:{l.column}"

end Location

namespace SourceFile

def lineFeed : UInt8 := 10

/-- The byte that may stand before a line feed. -/
def carriageReturn : UInt8 := 13

def text (f : SourceFile) : String :=
  Text.ofBytes f.source

/-- The offsets after the line feeds of bytes, of which the first one is at `offset`. -/
def startsFrom (offset : Nat) (source : List UInt8) : List Nat :=
  (source.zipIdx offset).filterMap fun (b, i) => if b = lineFeed then some (i + 1) else none

/-- A file with the starts of its lines. -/
def ofSource (name : String) (source : List UInt8) : SourceFile :=
  ⟨name, source, (0 :: startsFrom 0 source).toArray⟩

/-- The index of `x` among numbers that grow, or else that of the first greater one, looked for
from `low` up to `high`. -/
def search (starts : Array Nat) (x low high : Nat) : Except Nat Nat :=
  if low < high then
    let middle := (low + high) / 2
    let start := starts[middle]?.getD 0
    if start = x then .ok middle
    else if start < x then search starts x (middle + 1) high
    else search starts x low middle
  else
    .error low
termination_by high - low

/-- The index of the line that holds an offset. -/
def lineIndex (f : SourceFile) (offset : Nat) : Nat :=
  match search f.lineStarts offset 0 f.lineStarts.size with
  | .ok i => i
  | .error i => i - 1

def lineStart (f : SourceFile) (offset : Nat) : Nat :=
  f.lineStarts[f.lineIndex offset]?.getD 0

/-- The number of a line, from one. -/
def lineAt (f : SourceFile) (offset : Nat) : Nat :=
  f.lineIndex offset + 1

/-- The column of an offset, from one; the first one when the offset is out of bounds or
inside a character. -/
def columnAt (f : SourceFile) (offset : Nat) : Nat :=
  (Text.slice f.source (f.lineStart offset) offset).length + 1

/-- The line that holds an offset, without its line feed and the carriage returns before
it. -/
def lineTextAt (f : SourceFile) (offset : Nat) : List UInt8 :=
  let stop := (f.lineStarts[f.lineIndex offset + 1]?.map (· - 1)).getD f.source.length
  let line := (f.source.take stop).drop (f.lineStart offset)
  (line.reverse.dropWhile (· == carriageReturn)).reverse

end SourceFile

/-- The sources that spans refer to. -/
structure Files where
  files : Array SourceFile
deriving Inhabited

namespace Files

def empty : Files :=
  ⟨#[]⟩

/-- The files with one more, whose number is the former count. -/
def add (fs : Files) (name : String) (source : List UInt8) : Files :=
  ⟨fs.files.push (.ofSource name source)⟩

def size (fs : Files) : Nat :=
  fs.files.size

def file? (fs : Files) (span : Span) : Option SourceFile :=
  span.file.bind (fs.files[·]?)

/-- Where a span begins. -/
def locate? (fs : Files) (span : Span) : Option Location :=
  (fs.file? span).map fun f => ⟨f.name, f.lineAt span.start, f.columnAt span.start⟩

/-- The line in which a span begins. -/
def line? (fs : Files) (span : Span) : Option (List UInt8) :=
  (fs.file? span).map fun f => f.lineTextAt span.start

def text? (fs : Files) (span : Span) : Option String :=
  (fs.file? span).map fun f => span.text f.source

end Files

end Endmark

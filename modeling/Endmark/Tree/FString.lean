import Endmark.Token.Lexer

/-!
# The body of an f-string

A brace opens a field that goes to the matching brace; a doubled brace is text.  Escapes
are left in the text, so that a backslash keeps a brace after it from opening a field.
-/

namespace Endmark.Tree

open Text

/-- A piece of the body of an f-string, with the offset in the body of what it is about. -/
inductive Segment where
  | text (raw : List UInt8)
  /-- What stands between the braces of a field, from the offset on. -/
  | field (offset : Nat) (body : List UInt8)
  /-- A closing brace that closes nothing. -/
  | stray (offset : Nat)
  /-- An opening brace without its closing one; nothing after it is looked at. -/
  | unclosed (offset : Nat)
deriving DecidableEq, Repr

/-- The text read so far as a segment, if there is any. -/
def Segment.flush (raw : List UInt8) (rest : List Segment) : List Segment :=
  if raw.isEmpty then rest else .text raw :: rest

/-- The segments of a body, at most `fuel` steps, from an offset on and after the text
`raw`. -/
def segmentsFrom : Nat → Nat → List UInt8 → List UInt8 → List Segment
  | 0, _, raw, _ => Segment.flush raw []
  | _ + 1, _, raw, [] => Segment.flush raw []
  | fuel + 1, offset, raw, b :: rest =>
    let doubled := rest.head? == some b
    if b == byte '\x7b' then
      if doubled then
        segmentsFrom fuel (offset + 2) (raw ++ [b]) (rest.drop 1)
      else
        Segment.flush raw <|
          match Token.payloadWidth? 0 rest with
          | some width =>
            .field (offset + 1) (rest.take width) ::
              segmentsFrom fuel (offset + width + 2) [] (rest.drop (width + 1))
          | none => [.unclosed offset]
    else if b == byte '\x7d' then
      if doubled then
        segmentsFrom fuel (offset + 2) (raw ++ [b]) (rest.drop 1)
      else
        .stray offset :: segmentsFrom fuel (offset + 1) raw rest
    else if b == byte '\\' then
      segmentsFrom fuel (offset + 1 + (rest.take 1).length) (raw ++ b :: rest.take 1)
        (rest.drop 1)
    else
      segmentsFrom fuel (offset + 1) (raw ++ [b]) rest

def segments (body : List UInt8) : List Segment :=
  segmentsFrom (body.length + 1) 0 [] body

end Endmark.Tree

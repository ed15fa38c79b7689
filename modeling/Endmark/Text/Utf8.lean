/-!
# Texts and their bytes

Positions in a source are offsets into its UTF-8 bytes, so the reader of sources works on
lists of bytes and comes back to texts only for what it cuts out.  A cut that does not fall
on character boundaries spells no text; it counts as the empty one.
-/

namespace Endmark.Text

def bytes (s : String) : List UInt8 :=
  s.toUTF8.data.toList

/-- The text that the bytes spell, if they are well-formed UTF-8. -/
def ofBytes? (b : List UInt8) : Option String :=
  String.fromUTF8? (ByteArray.mk b.toArray)

/-- The text that the bytes spell, empty when they are not well-formed UTF-8. -/
def ofBytes (b : List UInt8) : String :=
  (ofBytes? b).getD ""

/-- The text between two offsets, empty when they are out of order, out of bounds or inside
a character. -/
def slice (b : List UInt8) (start stop : Nat) : String :=
  if start ≤ stop ∧ stop ≤ b.length then ofBytes ((b.take stop).drop start) else ""

def byte (c : Char) : UInt8 :=
  c.toNat.toUInt8

/-- Is the byte one of a character other than its first? -/
def isContinuation (b : UInt8) : Bool :=
  b &&& 0xC0 == 0x80

def isDigitByte (b : UInt8) : Bool :=
  byte '0' ≤ b && b ≤ byte '9'

def isLetterByte (b : UInt8) : Bool :=
  (byte 'a' ≤ b && b ≤ byte 'z') || (byte 'A' ≤ b && b ≤ byte 'Z')

/-! ### Texts of any bytes -/

/-- The character that stands for bytes that spell none. -/
def replacement : Char := '\uFFFD'

/-- How many bytes follow the first byte of a character, and the least and greatest byte that
may come next. -/
def following? (b : UInt8) : Option (Nat × UInt8 × UInt8) :=
  if 0xC2 ≤ b && b ≤ 0xDF then some (1, 0x80, 0xBF)
  else if b = 0xE0 then some (2, 0xA0, 0xBF)
  else if b = 0xED then some (2, 0x80, 0x9F)
  else if 0xE1 ≤ b && b ≤ 0xEF then some (2, 0x80, 0xBF)
  else if b = 0xF0 then some (3, 0x90, 0xBF)
  else if 0xF1 ≤ b && b ≤ 0xF3 then some (3, 0x80, 0xBF)
  else if b = 0xF4 then some (3, 0x80, 0x8F)
  else none

/-- How many of the bytes go on with a character that needs `count` more, the first of them
between two bounds. -/
def continuing : Nat → UInt8 → UInt8 → List UInt8 → Nat
  | count + 1, low, high, b :: rest =>
    if low ≤ b && b ≤ high then continuing count 0x80 0xBF rest + 1 else 0
  | _, _, _, _ => 0

/-- The text of any bytes: what starts like a character and does not end like one, and every
other byte that belongs to no character, is replaced. -/
def ofBytesLossy (bytes : List UInt8) : List Char :=
  match bytes with
  | [] => []
  | b :: rest =>
    if b < 0x80 then
      Char.ofNat b.toNat :: ofBytesLossy rest
    else
      match following? b with
      | none => replacement :: ofBytesLossy rest
      | some (count, low, high) =>
        let found := continuing count low high rest
        let char := if found = count then (ofBytes (b :: rest.take count)).toList else [replacement]
        char ++ ofBytesLossy (rest.drop found)
termination_by bytes.length
decreasing_by all_goals simp only [List.length_cons, List.length_drop]; omega

end Endmark.Text

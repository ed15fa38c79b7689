/-!
# Integers in a radix

Readers for the digits of an integer.  All of them want at least one digit and refuse a
value that is out of the range asked for.
-/

namespace Endmark.Number

/-- The value of a digit below `radix`, letters of either case going on from ten. -/
def digit? (radix : Nat) (c : Char) : Option Nat :=
  let value :=
    if '0' ≤ c ∧ c ≤ '9' then some (c.toNat - '0'.toNat)
    else if 'a' ≤ c ∧ c ≤ 'z' then some (c.toNat - 'a'.toNat + 10)
    else if 'A' ≤ c ∧ c ≤ 'Z' then some (c.toNat - 'A'.toNat + 10)
    else none
  value.filter (· < radix)

/-- The value of the digits `cs` written after digits of value `acc`. -/
def readDigitsFrom (radix acc : Nat) : List Char → Option Nat
  | [] => some acc
  | c :: cs =>
    match digit? radix c with
    | some d => readDigitsFrom radix (acc * radix + d) cs
    | none => none

/-- The value of a row of at least one digit. -/
def readDigits (radix : Nat) (cs : List Char) : Option Nat :=
  if cs.isEmpty then none else readDigitsFrom radix 0 cs

/-- A number below `bound`, with an optional plus sign. -/
def readUnsigned (radix bound : Nat) (cs : List Char) : Option Nat :=
  let digits := match cs with
    | '+' :: rest => rest
    | _ => cs
  (readDigits radix digits).filter (· < bound)

/-- A number from `lo` to `hi`, with an optional sign. -/
def readSigned (radix : Nat) (lo hi : Int) (cs : List Char) : Option Int :=
  let value := match cs with
    | '+' :: rest => (readDigits radix rest).map Int.ofNat
    | '-' :: rest => (readDigits radix rest).map fun n => -Int.ofNat n
    | _ => (readDigits radix cs).map Int.ofNat
  value.filter fun n => lo ≤ n ∧ n ≤ hi

/-- The number of values that a word of 64 bits has. -/
def wordCount : Nat := 0x10000000000000000

/-- The least and the greatest 64-bit signed integer. -/
def minInt64 : Int := -0x8000000000000000

@[inherit_doc minInt64]
def maxInt64 : Int := 0x7FFFFFFFFFFFFFFF

/-- A 64-bit signed integer, with an optional sign. -/
def readInt64 (radix : Nat) (cs : List Char) : Option Int64 :=
  (readSigned radix minInt64 maxInt64 cs).map Int64.ofInt

/-- Does the integer fit in a signed field of `bits` bits? -/
def fitsSigned (bits : Nat) (n : Int) : Bool :=
  let limit : Int := Int.ofNat (Nat.pow 2 (bits - 1))
  n < limit && -limit ≤ n

/-- An integer literal of the source: decimal, or with one of the marks for hexadecimal,
binary and octal, and with underscores anywhere. -/
def literal? (s : String) : Option Int64 :=
  match s.toList.filter (· != '_') with
  | '0' :: 'x' :: cs | '0' :: 'X' :: cs => readInt64 16 cs
  | '0' :: 'b' :: cs | '0' :: 'B' :: cs => readInt64 2 cs
  | '0' :: 'o' :: cs | '0' :: 'O' :: cs => readInt64 8 cs
  | cs => readInt64 10 cs

/-- The least significant `count` bytes of `n`, lowest first. -/
def littleEndian : Nat → Nat → List UInt8
  | 0, _ => []
  | count + 1, n => n.toUInt8 :: littleEndian count (n / 256)

/-- The bytes of `n` in two's complement, lowest first. -/
def littleEndianInt (count : Nat) (n : Int) : List UInt8 :=
  littleEndian count (n % Int.ofNat (Nat.pow 256 count)).toNat

/-- The number that bytes spell, lowest first. -/
def ofLittleEndian : List UInt8 → Nat
  | [] => 0
  | b :: bs => b.toNat + 256 * ofLittleEndian bs

end Endmark.Number

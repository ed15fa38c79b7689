import Endmark.Number.Radix
import Endmark.Number.Binary64

/-!
# Decimal notation of binary numbers

Reading gives the number nearest to a decimal.  Writing gives the fewest digits that read
back, and of those the ones nearest to the value.
-/

namespace Endmark.Number.Binary64

/-! ### Reading -/

/-- The number nearest to `digits * 10 ^ exponent`.  Beyond the first bound no number is so
big, and below the second none is so small, so that no power has to be formed there. -/
def ofDecimal (negative : Bool) (digits : Nat) (exponent : Int) : Binary64 :=
  if digits = 0 then
    zero negative
  else if exponent > 400 then
    infinity negative
  else if exponent < -(Nat.log2 digits : Int) - 1200 then
    zero negative
  else if exponent ≥ 0 then
    round negative (digits * Nat.pow 10 exponent.toNat) 1
  else
    round negative digits (Nat.pow 10 (-exponent).toNat)

/-- The exponent after its mark: an optional sign and at least one digit. -/
def readExponent : List Char → Option Int
  | '+' :: cs => (readDigits 10 cs).map Int.ofNat
  | '-' :: cs => (readDigits 10 cs).map fun n => -Int.ofNat n
  | cs => (readDigits 10 cs).map Int.ofNat

/-- A row of digits, an optional point with more digits, and an optional exponent; at least
one digit stands before the exponent. -/
def readUnsignedDecimal (negative : Bool) (cs : List Char) : Option Binary64 :=
  let (whole, rest) := cs.span Char.isDigit
  let (fraction, rest) := match rest with
    | '.' :: after => after.span Char.isDigit
    | _ => ([], rest)
  let exponent? := match rest with
    | [] => some 0
    | 'e' :: after | 'E' :: after => readExponent after
    | _ => none
  match readDigits 10 (whole ++ fraction), exponent? with
  | some digits, some exponent => some (ofDecimal negative digits (exponent - fraction.length))
  | _, _ => none

/-- The words for the values that have no digits, in any case. -/
def readWord (negative : Bool) (cs : List Char) : Option Binary64 :=
  match String.ofList (cs.map Char.toLower) with
  | "inf" | "infinity" => some (infinity negative)
  | "nan" => some (ofParts negative 0x7FF8000000000000)
  | _ => none

def read (cs : List Char) : Option Binary64 :=
  let (negative, body) := match cs with
    | '-' :: rest => (true, rest)
    | '+' :: rest => (false, rest)
    | _ => (false, cs)
  readUnsignedDecimal negative body <|> readWord negative body

/-! ### Writing -/

/-- The numbers that read as a given one, all scaled by `4 / unit`: its own value, and the
lower and upper end of the interval, which belong to it when its significand is even. -/
structure Basin where
  low : Nat
  value : Nat
  high : Nat
  closed : Bool

/-- The basin of `m * 2 ^ e`, in quarters of its last place.  Below a power of two the
neighbour is half as far, unless both have the least exponent. -/
def basin (m : Nat) (e : Int) : Basin where
  low := if m = hiddenBit ∧ e ≠ -1074 then 4 * m - 1 else 4 * m - 2
  value := 4 * m
  high := 4 * m + 2
  closed := m % 2 = 0

/-- Is `candidate / den` in the basin? -/
def Basin.holds (b : Basin) (den candidate : Nat) : Bool :=
  if b.closed then b.low * den ≤ candidate && candidate ≤ b.high * den
  else b.low * den < candidate && candidate < b.high * den

/-- A quarter of the last place, in units of `10 ^ place`, as a fraction. -/
def quarterIn (e place : Int) : Nat × Nat :=
  let two := e - 2
  (Nat.pow 2 two.toNat * Nat.pow 10 (-place).toNat,
    Nat.pow 2 (-two).toNat * Nat.pow 10 place.toNat)

/-- The multiple of `10 ^ place` that reads back and is nearest to the value, if one of its
two neighbours reads back; of two equally near the greater one. -/
def onGrid? (b : Basin) (e place : Int) : Option Nat :=
  let (num, den) := quarterIn e place
  let below := b.value * num / den
  let above := below + 1
  -- A multiple `c` is `c * den / num` quarters.
  let lower := b.holds num (below * den)
  let upper := b.holds num (above * den)
  let exact := b.value * num
  match lower, upper with
  | true, true =>
    if 2 * exact < (below + above) * den then some below else some above
  | true, false => some below
  | false, true => some above
  | false, false => none

/-- The first grid from `place` downwards that has a multiple which reads back. -/
def firstGrid (b : Basin) (e : Int) : Nat → Int → Nat × Int
  | 0, place => ((b.value * (quarterIn e place).1) / (quarterIn e place).2, place)
  | steps + 1, place =>
    match onGrid? b e place with
    | some digits => (digits, place)
    | none => firstGrid b e steps (place - 1)

def leadingPlace (m : Nat) (e : Int) : Int :=
  -- The factor is a little above the decimal logarithm of two.
  (((Nat.log2 m : Int) + e + 1) * 30103) / 100000 + 1

/-- A whole number without the zeros at its end, and the place its last digit has then. -/
def stripZeros : Nat → Nat → Int → Nat × Int
  | 0, digits, place => (digits, place)
  | steps + 1, digits, place =>
    if digits ≠ 0 ∧ digits % 10 = 0 then stripZeros steps (digits / 10) (place + 1)
    else (digits, place)

/-- The fewest digits that read back as `m * 2 ^ e`, and the place of the last one. -/
def shortest (m : Nat) (e : Int) : Nat × Int :=
  let (digits, place) := firstGrid (basin m e) e 20 (leadingPlace m e)
  stripZeros 20 digits place

/-- Where positional notation ends: from ten to the sixteenth on, and below a tenth of a
thousandth, numbers are written with an exponent. -/
def positionalFrom : Int := -4

@[inherit_doc positionalFrom]
def positionalBelow : Int := 16

/-- The digits with a point after the first `count`; a zero stands where no digit would. -/
def positional (digits : List Char) (count : Int) : List Char :=
  if count ≤ 0 then
    '0' :: '.' :: List.replicate (-count).toNat '0' ++ digits
  else if digits.length ≤ count.toNat then
    digits ++ List.replicate (count.toNat - digits.length) '0' ++ ['.', '0']
  else
    digits.take count.toNat ++ '.' :: digits.drop count.toNat

/-- The digits with a point after the first one, and the exponent. -/
def scientific (digits : List Char) (exponent : Int) : List Char :=
  let mantissa := match digits with
    | first :: second :: rest => first :: '.' :: second :: rest
    | _ => digits
  mantissa ++ 'e' :: (toString exponent).toList

/-- A finite value without its sign. -/
def writeFinite (m : Nat) (e : Int) : List Char :=
  if m = 0 then
    ['0', '.', '0']
  else
    let (value, place) := shortest m e
    let digits := (toString value).toList
    let exponent : Int := place + digits.length - 1
    if positionalFrom ≤ exponent ∧ exponent < positionalBelow then
      positional digits (exponent + 1)
    else
      scientific digits exponent

/-- A number in decimal notation. -/
def write (x : Binary64) : String :=
  let sign := if x.isNegative then ['-'] else []
  match x.magnitude with
  | .notANumber => "NaN"
  | .infinite => String.ofList (sign ++ ['i', 'n', 'f'])
  | .finite m e => String.ofList (sign ++ writeFinite m e)

end Endmark.Number.Binary64

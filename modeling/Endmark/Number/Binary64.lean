/-!
# Binary floating-point numbers

The 64-bit binary format: a sign, eleven bits of exponent and fifty-two of fraction.  A
number is its bits; arithmetic is done on the exact value and rounded once, to the nearest
number of the format and to the even one of two.
-/

namespace Endmark.Number

/-- A number of the 64-bit binary format. -/
structure Binary64 where
  bits : UInt64
deriving DecidableEq, Repr, Inhabited

namespace Binary64

/-- What the bits below the sign stand for. -/
inductive Magnitude where
  | finite (significand : Nat) (exponent : Int)
  | infinite
  | notANumber
deriving DecidableEq, Repr

/-- The weight of the digit in front of the fraction, in units of its last place. -/
def hiddenBit : Nat := 0x10000000000000

def infinityBits : Nat := 0x7FF0000000000000

def signBit : Nat := 0x8000000000000000

/-- Is the sign bit set? -/
def isNegative (x : Binary64) : Bool :=
  signBit ≤ x.bits.toNat

/-- The bits without the sign. -/
def magnitudeBits (x : Binary64) : Nat :=
  x.bits.toNat % signBit

/-- What the bits below the sign stand for. -/
def magnitude (x : Binary64) : Magnitude :=
  let bits := x.magnitudeBits
  if bits > infinityBits then
    .notANumber
  else if bits = infinityBits then
    .infinite
  else
    let field := bits / hiddenBit
    let fraction := bits % hiddenBit
    if field = 0 then .finite fraction (-1074)
    else .finite (hiddenBit + fraction) (Int.ofNat field - 1075)

/-- Is it none of the numbers and infinities? -/
def isNaN (x : Binary64) : Bool :=
  x.magnitudeBits > infinityBits

/-- The number with the given sign and bits below it. -/
def ofParts (negative : Bool) (bits : Nat) : Binary64 :=
  ⟨(bits + if negative then signBit else 0).toUInt64⟩

def zero (negative : Bool) : Binary64 :=
  ofParts negative 0

def infinity (negative : Bool) : Binary64 :=
  ofParts negative infinityBits

/-- The quiet result that is no number, as an operation without a value produces it. -/
def indefinite : Binary64 :=
  ofParts true 0x7FF8000000000000

/-- The quotient rounded to the nearest integer, a half to the even one. -/
def roundDiv (num den : Nat) : Nat :=
  let quotient := num / den
  let twice := 2 * (num % den)
  if twice > den || (twice == den && quotient % 2 == 1) then quotient + 1 else quotient

/-- The exponent of two at which `num / den` has fifty-three bits, but not below the least
one of the format. -/
def scale (num den : Nat) : Int :=
  let guess : Int := (Nat.log2 num : Int) - (Nat.log2 den : Int) - 52
  let low := if guess ≥ 0 then num < den * Nat.pow 2 (guess.toNat + 52)
    else num * Nat.pow 2 (-guess).toNat < den * hiddenBit
  max (if low then guess - 1 else guess) (-1074)

/-- The number nearest to `num / den`, with the given sign.  Carrying into the exponent and
leaving the range for infinity are one addition on the bits. -/
def round (negative : Bool) (num den : Nat) : Binary64 :=
  if num = 0 then
    zero negative
  else
    let exponent := scale num den
    let significand := if exponent ≥ 0 then roundDiv num (den * Nat.pow 2 exponent.toNat)
      else roundDiv (num * Nat.pow 2 (-exponent).toNat) den
    ofParts negative (min ((exponent + 1074).toNat * hiddenBit + significand) infinityBits)

/-- The number nearest to an integer. -/
def ofInt (n : Int) : Binary64 :=
  round (n < 0) n.natAbs 1

/-- The float nearest to `significand * 2 ^ exponent`. -/
def roundScaled (negative : Bool) (significand : Nat) (exponent : Int) : Binary64 :=
  if exponent ≥ 0 then round negative (significand * Nat.pow 2 exponent.toNat) 1
  else round negative significand (Nat.pow 2 (-exponent).toNat)

/-! ### Arithmetic -/

/-- The same payload that is no number, made quiet. -/
def quiet (x : Binary64) : Binary64 :=
  ⟨x.bits ||| 0x8000000000000⟩

/-- The operand that is no number, if there is one, the first before the second. -/
def nanOf? (x y : Binary64) : Option Binary64 :=
  if x.isNaN then some x.quiet else if y.isNaN then some y.quiet else none

/-- A number with its sign. -/
def signed (negative : Bool) (significand : Nat) : Int :=
  if negative then -significand else significand

/-- The sum of two finite values. -/
def addFinite (nx ny : Bool) (mx : Nat) (ex : Int) (my : Nat) (ey : Int) : Binary64 :=
  let low := min ex ey
  let sum :=
    signed nx (mx * Nat.pow 2 (ex - low).toNat) + signed ny (my * Nat.pow 2 (ey - low).toNat)
  if sum = 0 then
    zero (nx && ny)
  else
    roundScaled (sum < 0) sum.natAbs low

/-- The sum, rounded to nearest. -/
def add (x y : Binary64) : Binary64 :=
  match nanOf? x y with
  | some n => n
  | none =>
    match x.magnitude, y.magnitude with
    | .finite mx ex, .finite my ey => addFinite x.isNegative y.isNegative mx ex my ey
    | .infinite, .infinite => if x.isNegative == y.isNegative then x else indefinite
    | .infinite, _ => x
    | _, _ => y

/-- The number with the other sign. -/
def neg (x : Binary64) : Binary64 :=
  ⟨x.bits ^^^ 0x8000000000000000⟩

def sub (x y : Binary64) : Binary64 :=
  match nanOf? x y with
  | some n => n
  | none => add x y.neg

def mul (x y : Binary64) : Binary64 :=
  match nanOf? x y with
  | some n => n
  | none =>
    let negative := x.isNegative != y.isNegative
    match x.magnitude, y.magnitude with
    | .finite mx ex, .finite my ey => roundScaled negative (mx * my) (ex + ey)
    | .finite 0 _, _ | _, .finite 0 _ => indefinite
    | _, _ => infinity negative

/-- The quotient of two finite values. -/
def divFinite (negative : Bool) (mx : Nat) (ex : Int) (my : Nat) (ey : Int) : Binary64 :=
  if my = 0 then
    if mx = 0 then indefinite else infinity negative
  else if ex ≥ ey then
    round negative (mx * Nat.pow 2 (ex - ey).toNat) my
  else
    round negative mx (my * Nat.pow 2 (ey - ex).toNat)

def div (x y : Binary64) : Binary64 :=
  match nanOf? x y with
  | some n => n
  | none =>
    let negative := x.isNegative != y.isNegative
    match x.magnitude, y.magnitude with
    | .finite mx ex, .finite my ey => divFinite negative mx ex my ey
    | .infinite, .infinite => indefinite
    | .infinite, _ => infinity negative
    | _, _ => zero negative

/-- The integer part of the square root, by halving the interval that holds it. -/
def sqrtBetween (n : Nat) : Nat → Nat → Nat → Nat
  | 0, lo, _ => lo
  | steps + 1, lo, hi =>
    let mid := (lo + hi) / 2
    if mid * mid ≤ n then sqrtBetween n steps mid hi else sqrtBetween n steps lo mid

/-- The integer part of the square root. -/
def isqrt (n : Nat) : Nat :=
  sqrtBetween n (Nat.log2 n + 2) 0 (n + 1)

/-- The square root: the significand is widened until the root has more bits than the
format, and a last bit tells whether the root was exact. -/
def sqrt (x : Binary64) : Binary64 :=
  match x.magnitude with
  | .notANumber => x.quiet
  | .infinite => if x.isNegative then indefinite else x
  | .finite m e =>
    if m = 0 then
      x
    else if x.isNegative then
      indefinite
    else
      let shift : Nat := if e % 2 = 0 then 120 else 121
      let wide := m * Nat.pow 2 shift
      let root := isqrt wide
      let sticky := if root * root = wide then 0 else 1
      roundScaled false (2 * root + sticky) ((e - shift) / 2 - 1)

/-- How two numbers compare. -/
inductive Comparison where
  | less
  | equal
  | greater
  | unordered
deriving DecidableEq, Repr

/-- The place of a number among the others: zeros agree, and infinities are at the ends. -/
def rank (x : Binary64) : Int :=
  signed x.isNegative x.magnitudeBits

/-- Compares two floats.  What is no number is unordered. -/
def compare (x y : Binary64) : Comparison :=
  if x.isNaN || y.isNaN then .unordered
  else if x.rank < y.rank then .less
  else if x.rank = y.rank then .equal
  else .greater

/-! ### Integers -/

/-- The integer part of a finite value, `none` otherwise. -/
def truncate? (x : Binary64) : Option Int :=
  match x.magnitude with
  | .finite m e =>
    let size := if e ≥ 0 then m * Nat.pow 2 e.toNat else m / Nat.pow 2 (-e).toNat
    some (signed x.isNegative size)
  | _ => none

/-- The integer nearest to a finite value, a half going to the even one, `none` otherwise. -/
def nearest? (x : Binary64) : Option Int :=
  match x.magnitude with
  | .finite m e =>
    let size := if e ≥ 0 then m * Nat.pow 2 e.toNat else roundDiv m (Nat.pow 2 (-e).toNat)
    some (signed x.isNegative size)
  | _ => none

end Binary64

end Endmark.Number

import Endmark.Machine.State
import Endmark.Number.Binary64

/-!
# Arithmetic of the machine

The results of operations on words and the flags they leave behind.
-/

namespace Endmark.Machine

open Number (Binary64)

def isNegative (v : UInt64) : Bool :=
  v >>> 63 == 1

/-- Is the number of ones in the lowest byte even? -/
def evenParity (v : UInt64) : Bool :=
  let a := v ^^^ v >>> 4
  let b := a ^^^ a >>> 2
  (b ^^^ b >>> 1) &&& 1 == 0

/-- Does a carry come out of the lowest four bits, by two terms and what comes of them? -/
def halfCarry (a b v : UInt64) : Bool :=
  (a ^^^ b ^^^ v) >>> 4 &&& 1 == 1

namespace Flags

/-- The flags of a result, with all carries and overflow as they are. -/
def ofResult (f : Flags) (v : UInt64) : Flags :=
  { f with zero := v == 0, sign := isNegative v, parity := evenParity v }

/-- The flags of a sum.  It overflows if both terms have a sign that it has not. -/
def ofAdd (a b : UInt64) : Flags :=
  let sum := a + b
  ofResult
    { carry := sum < a
      overflow := isNegative ((a ^^^ sum) &&& (b ^^^ sum))
      auxiliary := halfCarry a b sum } sum

/-- The flags of a difference.  It overflows if the signs of the terms differ and it has not
that of the first. -/
def ofSub (a b : UInt64) : Flags :=
  let difference := a - b
  ofResult
    { carry := a < b
      overflow := isNegative ((a ^^^ b) &&& (a ^^^ difference))
      auxiliary := halfCarry a b difference } difference

/-- The flags after a bitwise operation. -/
def ofBits (v : UInt64) : Flags :=
  ofResult {} v

/-- The flags after floats were compared. -/
def ofComparison : Binary64.Comparison → Flags
  | .greater => {}
  | .less => { carry := true }
  | .equal => { zero := true }
  | .unordered => { zero := true, carry := true, parity := true }

end Flags

/-- The result of an operation, which a comparison has not, and its flags. -/
def AluOp.apply (op : AluOp) (a b : UInt64) : Option UInt64 × Flags :=
  match op with
  | add => (some (a + b), .ofAdd a b)
  | or => (some (a ||| b), .ofBits (a ||| b))
  | and => (some (a &&& b), .ofBits (a &&& b))
  | sub => (some (a - b), .ofSub a b)
  | xor => (some (a ^^^ b), .ofBits (a ^^^ b))
  | cmp => (none, .ofSub a b)

/-- The result of a shift by a count below 64 other than zero. -/
def ShiftOp.result (op : ShiftOp) (v count : UInt64) : UInt64 :=
  match op with
  | shl => v <<< count
  | shr => v >>> count
  | sar => (v.toInt64 >>> count.toInt64).toUInt64

/-- The last bit that a shift by a count below 64 other than zero moves out. -/
def ShiftOp.lastOut (op : ShiftOp) (v count : UInt64) : Bool :=
  match op with
  | shl => v >>> (64 - count) &&& 1 == 1
  | shr | sar => v >>> (count - 1) &&& 1 == 1

/-- The result of a shift and its flags.  Only six bits of the count matter, and a shift by
zero changes nothing.  Overflow is that of the first bit by which the word is shifted. -/
def ShiftOp.apply (op : ShiftOp) (v : UInt64) (count : UInt8) (f : Flags) : UInt64 × Flags :=
  let n := count.toUInt64 &&& 63
  if n = 0 then
    (v, f)
  else
    let result := op.result v n
    let carry := op.lastOut v n
    let overflow := match op with
      | shl => isNegative (v ^^^ v <<< 1)
      | shr => isNegative v
      | sar => false
    (result, .ofResult { carry, overflow } result)

/-- The flags of the lower word of a product, by whether it is not all of the product.  That it
is zero is not shown. -/
def Flags.ofProduct (low : UInt64) (lost : Bool) : Flags :=
  { Flags.ofResult { carry := lost, overflow := lost } low with zero := false }

/-- The product of two words as signed numbers, and its flags. -/
def signedProduct (a b : UInt64) : UInt64 × Flags :=
  let product := a * b
  let wide := a.toInt64.toInt * b.toInt64.toInt
  let lost := wide != product.toInt64.toInt
  (product, .ofProduct product lost)

/-- The upper and lower word of the product of two words. -/
def wideProduct (a b : UInt64) : UInt64 × UInt64 :=
  let product := a.toNat * b.toNat
  (UInt64.ofNat (product / Number.wordCount), a * b)

/-- The quotient and remainder of two words by one, if the quotient fits in a word. -/
def divide? (high low divisor : UInt64) : Option (UInt64 × UInt64) :=
  if divisor = 0 then
    none
  else
    let dividend := high.toNat * Number.wordCount + low.toNat
    let quotient := dividend / divisor.toNat
    if quotient < Number.wordCount then
      some (UInt64.ofNat quotient, UInt64.ofNat (dividend % divisor.toNat))
    else
      none

/-- The quotient towards zero and the remainder of two words by one as signed numbers, if the
quotient fits in a word. -/
def divideSigned? (high low divisor : UInt64) : Option (UInt64 × UInt64) :=
  if divisor = 0 then
    none
  else
    let dividend := high.toInt64.toInt * Int.ofNat Number.wordCount + low.toNat
    let d := divisor.toInt64.toInt
    let quotient := dividend.tdiv d
    if Number.fitsSigned 64 quotient then
      some ((Int64.ofInt quotient).toUInt64, (Int64.ofInt (dividend.tmod d)).toUInt64)
    else
      none

/-- The result of an operation on floating-point numbers. -/
def SseOp.apply (op : SseOp) (x y : UInt64) : UInt64 :=
  let result : Binary64 := match op with
    | add => Binary64.add ⟨x⟩ ⟨y⟩
    | sub => Binary64.sub ⟨x⟩ ⟨y⟩
    | mul => Binary64.mul ⟨x⟩ ⟨y⟩
    | div => Binary64.div ⟨x⟩ ⟨y⟩
    | sqrt => Binary64.sqrt ⟨y⟩
  result.bits

/-- A word for an integer if it fits, and the least integer otherwise. -/
def wordOrLeast : Option Int → UInt64
  | some n => if Number.fitsSigned 64 n then (Int64.ofInt n).toUInt64 else 0x8000000000000000
  | none => 0x8000000000000000

end Endmark.Machine

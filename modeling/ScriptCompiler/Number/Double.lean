import ScriptCompiler.Text.Hex

/-!
# Double-precision numbers

The language has one number type, the IEEE 754 double. A number is held by its 64 bits and nothing
else, so equality is equality of bits: the two zeros differ, and a NaN equals itself.

A finite number is `significand * 2 ^ scale` up to sign. `ofRatio` rounds a quotient of naturals to
the nearest such number, a tie going to the even significand, in exact arithmetic; integers and
decimals are read through it.
-/

namespace ScriptCompiler

/-- A double, by its bits: one sign bit, eleven bits of exponent, 52 bits of fraction. -/
structure Double where
  bits : UInt64
deriving DecidableEq

namespace Double

/-- A power of two. -/
def pow2 (n : Nat) : Nat := Nat.pow 2 n

/-- A power of ten. -/
def pow10 (n : Nat) : Nat := Nat.pow 10 n

/-- Positive zero. -/
def zero : Double := ⟨0⟩

/-- The number one. -/
def one : Double := ⟨0x3FF0000000000000⟩

/-- The sign bit is set. -/
def isNegative (d : Double) : Bool := 0x8000000000000000 ≤ d.bits

/-- The biased exponent, eleven bits. -/
def exponentField (d : Double) : Nat := d.bits.toNat / pow2 52 % pow2 11

/-- The fraction, 52 bits. -/
def fraction (d : Double) : Nat := d.bits.toNat % pow2 52

/-- Neither infinite nor a NaN. -/
def isFinite (d : Double) : Bool := d.exponentField < 2047

/-- Not a number: the largest exponent with a fraction. -/
def isNaN (d : Double) : Bool := d.exponentField == 2047 && d.fraction != 0

/-- The integer significand: the fraction, with the leading bit that a normal number implies. -/
def significand (d : Double) : Nat :=
  if d.exponentField = 0 then d.fraction else pow2 52 + d.fraction

/-- The power of two that the significand is scaled by. -/
def scale (d : Double) : Int := max 1 d.exponentField - 1075

/-- The quotient `num / den` rounded to the nearest integer, a tie to the even one. -/
def roundedQuotient (num den : Nat) : Nat :=
  let q := num / den
  let r := num % den
  if 2 * r > den ∨ (2 * r = den ∧ q % 2 = 1) then q + 1 else q

/-- The exponent `e` with `2 ^ e ≤ num / den < 2 ^ (e + 1)`, for positive `num` and `den`. -/
def floorLog2 (num den : Nat) : Int :=
  let e : Int := num.log2 - den.log2
  if num * pow2 (-e).toNat < den * pow2 e.toNat then e - 1 else e

/-- The bits, without a sign, of the double nearest to `num / den`, for a positive `den`. A quotient
beyond the largest finite number gives infinity.

The significand is rounded at the scale that leaves it 53 bits, or at the least scale there is.
Adding it to the exponent field lets a significand that rounds up to `2 ^ 53` carry into the
exponent, which is the right encoding of that number. -/
def magnitudeBits (num den : Nat) : Nat :=
  if num = 0 then 0
  else
    let scale : Int := max (floorLog2 num den - 52) (-1074)
    let m := roundedQuotient (num * pow2 (-scale).toNat) (den * pow2 scale.toNat)
    min ((scale + 1074).toNat * pow2 52 + m) (2047 * pow2 52)

/-- The double nearest to `num / den`, negated when `negative`. -/
def ofRatio (negative : Bool) (num den : Nat) : Double :=
  ⟨UInt64.ofNat (magnitudeBits num den + if negative then pow2 63 else 0)⟩

/-- The double nearest to a natural number. -/
def ofNat (n : Nat) : Double := ofRatio false n 1

/-- The double nearest to an integer. -/
def ofInt (n : Int) : Double := ofRatio (n < 0) n.natAbs 1

/-- The double nearest to `digits * 10 ^ exponent`, `none` when that is beyond the finite range.

A decimal whose leading digit stands beyond the 310th place on either side of the point is settled
by its size alone, so that no power of ten of unbounded size is formed. -/
def ofDecimal? (negative : Bool) (digits : Nat) (exponent : Int) : Option Double :=
  let leading : Int := exponent + (Nat.toDigits 10 digits).length
  if digits = 0 ∨ leading < -330 then some (ofRatio negative 0 1)
  else if leading > 310 then none
  else
    let d := ofRatio negative (digits * pow10 exponent.toNat) (pow10 (-exponent).toNat)
    if d.isFinite then some d else none

/-- The bits as `0x` and sixteen hexadecimal digits. -/
def hexText (d : Double) : String := "0x" ++ Text.hex 16 d.bits.toNat

end Double

end ScriptCompiler

/-!
# Binary64 - The exact value of a double

A finite double stands for the rational number `significand x * 2 ^ scale x`, with the sign kept
apart.  This file reads both off the 64 bits, so that everything that depends on the exact value
(shortest digits, rounding to a whole number, the total order) is integer arithmetic.

Main definitions:

- `Binary64.significand`, `Binary64.scale`: the magnitude of a finite double.
- `Binary64.orderKey`: the total order in which a negative zero stands below a positive one and
  not-a-number above infinity.
- `Binary64.roundNat`: rounding to the nearest whole number, a half going away from zero.
-/

namespace LeadScoring.Binary64

/-! ## Fields of the word -/

/-- The sign bit, set for a negative zero too. -/
def isNegative (x : Float) : Bool :=
  x.toBits.toNat / (1 <<< 63) == 1

/-- The word without its sign bit. -/
def magnitudeBits (x : Float) : Nat :=
  x.toBits.toNat % (1 <<< 63)

/-- The eleven bits of the biased exponent. -/
def exponentField (x : Float) : Nat :=
  magnitudeBits x / (1 <<< 52)

/-- The fifty-two bits below the exponent. -/
def fractionField (x : Float) : Nat :=
  magnitudeBits x % (1 <<< 52)

/-- Neither infinite nor not-a-number: the exponent field is not all ones. -/
def isFinite (x : Float) : Bool :=
  exponentField x != 2047

/-- Not a number: all ones in the exponent and something below it. -/
def isNaN (x : Float) : Bool :=
  exponentField x == 2047 && fractionField x != 0

/-! ## The exact value -/

/-- The integer factor of the magnitude; the leading bit is implicit unless the exponent field is
zero. -/
def significand (x : Float) : Nat :=
  if exponentField x = 0 then fractionField x else (1 <<< 52) + fractionField x

/-- The power of two that scales the significand. -/
def scale (x : Float) : Int :=
  if exponentField x = 0 then -1074 else (exponentField x : Int) - 1075

/-- The gap below the value is half the gap above it exactly at a power of two, except at the
smallest normal one, where the subnormal spacing continues. -/
def hasNarrowLowerGap (x : Float) : Bool :=
  fractionField x == 0 && 1 < exponentField x

/-- The exact value of a finite double; infinities and not-a-number count as zero. -/
def toRat (x : Float) : Rat :=
  if isFinite x then
    let numerator : Int := if isNegative x then -(significand x : Int) else significand x
    if 0 ≤ scale x then mkRat (numerator * (1 <<< (scale x).toNat : Nat)) 1
    else mkRat numerator (1 <<< (-scale x).toNat)
  else mkRat 0 1

/-! ## Order and rounding -/

/-- The position of a double in the total order: magnitudes count up above zero and down below
it. -/
def orderKey (x : Float) : Int :=
  if isNegative x then -(magnitudeBits x : Int) - 1 else magnitudeBits x

/-- The nearest whole number, a half going up.  Negative values and not-a-number give zero and
infinity the largest 64-bit word. -/
def roundNat (x : Float) : Nat :=
  if isNegative x || isNaN x then 0
  else if !isFinite x then (1 <<< 64) - 1
  else if 0 ≤ scale x then min (significand x <<< (scale x).toNat) ((1 <<< 64) - 1)
  else
    let unit := 1 <<< (-scale x).toNat
    (2 * significand x + unit) / (2 * unit)

end LeadScoring.Binary64

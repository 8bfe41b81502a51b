/-!
# Binary floating-point numbers

A number of a binary format is held as its bits: a sign, a biased exponent and a fraction. Nothing
here computes with the machine's floating point; every operation decodes the bits to an exact
value, works on integers, and rounds the exact result once, to the nearest number of the format
and to an even significand when two are equally near.
-/

namespace PropertyBinding

/-- A binary format: one sign bit, `exponentBits` bits of biased exponent and `fractionBits` bits
of fraction. -/
structure FloatFormat where
  exponentBits : Nat
  fractionBits : Nat
  deriving DecidableEq, Repr

namespace FloatFormat

/-- The format of 32 bits. -/
def single : FloatFormat := ⟨8, 23⟩

/-- The format of 64 bits. -/
def double : FloatFormat := ⟨11, 52⟩

/-- The number of bits of a format. -/
def width (f : FloatFormat) : Nat := 1 + f.exponentBits + f.fractionBits

/-- The distance between the biased and the true exponent. -/
def bias (f : FloatFormat) : Nat := (1 <<< (f.exponentBits - 1)) - 1

/-- The exponent of the least positive number, which is a power of two. -/
def minExponent (f : FloatFormat) : Int := 1 - (f.bias : Int) - f.fractionBits

/-- The bits of positive infinity; larger ones, the sign apart, are no numbers. -/
def infinityBits (f : FloatFormat) : Nat := ((1 <<< f.exponentBits) - 1) <<< f.fractionBits

/-- The sign bit. -/
def signBit (f : FloatFormat) : Nat := 1 <<< (f.exponentBits + f.fractionBits)

/-- The bit above the fraction, which a significand has unless its number is below the normal
ones. -/
def leadingBit (f : FloatFormat) : Nat := 1 <<< f.fractionBits

end FloatFormat

/-- A number of a binary format, held as its bits. -/
structure Floating (f : FloatFormat) where
  bits : BitVec f.width
  deriving DecidableEq, Repr

/-- Numbers of 32 bits. -/
abbrev Single := Floating .single

/-- Numbers of 64 bits. -/
abbrev Double := Floating .double

namespace Floating

variable {f : FloatFormat}

/-- The number with this sign and these bits below the sign. -/
def ofMagnitude (negative : Bool) (magnitude : Nat) : Floating f :=
  ⟨BitVec.ofNat _ ((if negative then f.signBit else 0) + magnitude)⟩

/-- Whether the sign bit is set. -/
def isNegative (x : Floating f) : Bool :=
  f.signBit ≤ x.bits.toNat

/-- The bits below the sign. -/
def magnitude (x : Floating f) : Nat :=
  x.bits.toNat % f.signBit

/-- Whether the bits stand for no number. -/
def isNaN (x : Floating f) : Bool := f.infinityBits < x.magnitude

/-- Whether the bits stand for an infinity. -/
def isInfinite (x : Floating f) : Bool := x.magnitude = f.infinityBits

/-- Whether the bits stand for a zero of either sign. -/
def isZero (x : Floating f) : Bool := x.magnitude = 0

/-- Whether the bits stand for a finite number. -/
def isFinite (x : Floating f) : Bool := x.magnitude < f.infinityBits

/-- Some bits that stand for no number. -/
def notANumber : Floating f :=
  ofMagnitude false (f.infinityBits + (1 <<< (f.fractionBits - 1)))

/-- The infinity of this sign. -/
def infinity (negative : Bool) : Floating f := ofMagnitude negative f.infinityBits

/-- The zero of this sign. -/
def zero (negative : Bool) : Floating f := ofMagnitude negative 0

/-- The number of the other sign. -/
def negate (x : Floating f) : Floating f := ofMagnitude (!x.isNegative) x.magnitude

/-- The significand `m` of a finite number, which is `m · 2 ^ x.exponent` up to its sign. -/
def significand (x : Floating f) : Nat :=
  let fraction := x.magnitude % f.leadingBit
  if x.magnitude < f.leadingBit then fraction else f.leadingBit + fraction

/-- The exponent `e` of a finite number, which is `x.significand · 2 ^ e` up to its sign. -/
def exponent (x : Floating f) : Int :=
  f.minExponent + ((x.magnitude / f.leadingBit - 1 : Nat) : Int)

/-- Numerical equality: the two zeros are equal, and what is no number equals nothing. -/
def numericEq (x y : Floating f) : Bool :=
  !x.isNaN && !y.isNaN && (x.bits == y.bits || (x.isZero && y.isZero))

/-! ### Rounding an exact value -/

/-- The integer nearest to `num / den`, the even one of two equally near. -/
def roundHalfEven (num den : Nat) : Nat :=
  let q := num / den
  let twice := 2 * (num % den)
  if twice < den then q
  else if den < twice then q + 1
  else q + q % 2

/-- The exponent of the largest power of two that is at most `num / den`. -/
def floorLog2 (num den : Nat) : Int :=
  let guess : Int := (Nat.log2 num : Int) - Nat.log2 den
  let reached := if 0 ≤ guess then den <<< guess.toNat ≤ num else den ≤ num <<< (-guess).toNat
  if reached then guess else guess - 1

/-- The number of the format nearest to `num / den` with the given sign. A value too large for the
format becomes an infinity. -/
def ofRatio (negative : Bool) (num den : Nat) : Floating f :=
  if num = 0 then zero negative
  else
    let unit := max f.minExponent (floorLog2 num den - f.fractionBits)
    let units :=
      if 0 ≤ unit then roundHalfEven num (den <<< unit.toNat)
      else roundHalfEven (num <<< (-unit).toNat) den
    let magnitude := (unit - f.minExponent).toNat * f.leadingBit + units
    ofMagnitude negative (min magnitude f.infinityBits)

/-- The number nearest to `digits · 10 ^ exponent` with the given sign. Exponents at which every
value overflows, or rounds to zero, are settled before a power is computed. -/
def ofDecimal (negative : Bool) (digits : Nat) (exponent : Int) : Floating f :=
  let reach : Int := (1 <<< f.exponentBits : Nat) + f.fractionBits
  if digits = 0 then zero negative
  else if reach < exponent then infinity negative
  else if exponent + (Nat.toDigits 10 digits).length < -reach then zero negative
  else if 0 ≤ exponent then ofRatio negative (digits * Nat.pow 10 exponent.toNat) 1
  else ofRatio negative digits (Nat.pow 10 (-exponent).toNat)

/-- The number nearest to an integer. -/
def ofInt (n : Int) : Floating f := ofRatio (n < 0) n.natAbs 1

/-- The value of a finite number, its sign apart, as a numerator and a denominator. -/
def ratio (x : Floating f) : Nat × Nat :=
  if 0 ≤ x.exponent then (x.significand <<< x.exponent.toNat, 1)
  else (x.significand, 1 <<< (-x.exponent).toNat)

/-- The number of another format nearest to this one. -/
def convert {g : FloatFormat} (x : Floating f) : Floating g :=
  if x.isNaN then notANumber
  else if x.isInfinite then infinity x.isNegative
  else ofRatio x.isNegative x.ratio.1 x.ratio.2

/-- The product of two finite numbers, rounded once. -/
def mul (x y : Floating f) : Floating f :=
  ofRatio (x.isNegative != y.isNegative) (x.ratio.1 * y.ratio.1) (x.ratio.2 * y.ratio.2)

/-- The quotient of a finite number by a finite number other than zero, rounded once. -/
def div (x y : Floating f) : Floating f :=
  ofRatio (x.isNegative != y.isNegative) (x.ratio.1 * y.ratio.2) (x.ratio.2 * y.ratio.1)

end Floating

end PropertyBinding

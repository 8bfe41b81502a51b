import PropertyBinding.Json
import PropertyBinding.Numeric.Shortest

/-!
# What JSON numbers stand for

A number without fraction and exponent is an integer if it fits into 64 bits; minus zero is not one.
Every other number is read as a floating-point number of 64 bits in a best-effort way: as many
leading digits as fit into 64 bits, rounded, and then multiplied or divided by a power of ten, which
is rounded too. The result can differ from the nearest number in the last bit.
-/

namespace PropertyBinding.JsonNumber

/-- The digits that have been read, as a number of 64 bits, and the power of ten that is due to
digits left out and to digits behind the point. -/
structure Scan where
  significand : Nat
  exponent : Int
  /-- Whether a digit has been left out. -/
  full : Bool

/-- Read a digit in front of the point. From the first one on that does not fit, digits are left
out. -/
def Scan.whole (s : Scan) (c : Char) : Scan :=
  let next := 10 * s.significand + (c.toNat - '0'.toNat)
  if s.full || UInt64.size ≤ next then { s with exponent := s.exponent + 1, full := true }
  else { s with significand := next }

/-- Read a digit behind the point. -/
def Scan.fraction (s : Scan) (c : Char) : Scan :=
  let next := 10 * s.significand + (c.toNat - '0'.toNat)
  if s.full || UInt64.size ≤ next then { s with full := true }
  else { s with significand := next, exponent := s.exponent - 1 }

/-- The digits of a number. -/
def scan (n : JsonNumber) : Scan :=
  n.fraction.foldl Scan.fraction { n.whole.foldl Scan.whole ⟨0, 0, false⟩ with full := false }

/-- A power of ten as a number of 64 bits. -/
def power (exponent : Nat) : Double := .ofDecimal false 1 exponent

/-- A number multiplied by a power of ten. The powers up to 308 are single steps, lower ones are
reached in several; a result that is too large is none. -/
def scale (x : Double) (exponent : Int) : Option Double :=
  if exponent.natAbs ≤ 308 then
    if 0 ≤ exponent then
      let y := x.mul (power exponent.natAbs)
      if y.isInfinite then none else some y
    else some (x.div (power exponent.natAbs))
  else if x.isZero then some x
  else if 0 ≤ exponent then none
  else scale (x.div (power 308)) (exponent + 308)
termination_by exponent.natAbs
decreasing_by omega

/-- The floating-point number that the digits and the exponent stand for. -/
def toScaled? (n : JsonNumber) : Option Double :=
  let s := n.scan
  let exponent := n.exponent.getD 0
  let signed (x : Double) : Double := if n.negative then x.negate else x
  if Int32.maxValue.toInt < exponent.natAbs then
    if s.significand ≠ 0 ∧ 0 < exponent then none else some (signed (.zero false))
  else (scale (.ofRatio false s.significand 1) (s.exponent + exponent)).map signed

/-- The integer that the number stands for, if it is one of 64 bits. -/
def toInt? (n : JsonNumber) : Option Int :=
  if n.fraction ≠ [] ∨ n.exponent.isSome then none
  else
    let magnitude := n.whole.foldl (fun m c => 10 * m + (c.toNat - '0'.toNat)) 0
    if n.negative then
      if 0 < magnitude ∧ Int64.minValue.toInt ≤ -(magnitude : Int) then some (-(magnitude : Int))
      else none
    else if magnitude < UInt64.size then some magnitude else none

/-- The number of 64 bits that the number stands for. -/
def toDouble? (n : JsonNumber) : Option Double :=
  match n.toInt? with
  | some i => some (.ofInt i)
  | none => n.toScaled?

/-- The number of 32 bits that the number stands for. -/
def toSingle? (n : JsonNumber) : Option Single :=
  match n.toInt? with
  | some i => some (.ofInt i)
  | none => n.toScaled?.map Floating.convert

/-- The number for an integer. -/
def ofInt (n : Int) : JsonNumber := ⟨n < 0, Nat.toDigits 10 n.natAbs, [], none⟩

/-! ### Writing floating-point numbers -/

/-- The decimal exponents of the first digit between which no exponent is written. -/
structure Layout where
  least : Int
  greatest : Int

/-- Numbers of 64 bits have an exponent below `0.00001` and from `1e+16` on. -/
def Layout.double : Layout := ⟨-5, 15⟩

/-- Numbers of 32 bits have an exponent below `0.000001` and from `1e+13` on. -/
def Layout.single : Layout := ⟨-6, 12⟩

/-- The form of a decimal number: a point between the digits or zeros around them, or an exponent
behind them. A whole number keeps a fraction of zero. -/
def ofDecimal (layout : Layout) (negative : Bool) (d : Decimal) : JsonNumber :=
  let digits := Nat.toDigits 10 d.digits
  let leading := d.exponent + digits.length - 1
  if leading < layout.least ∨ layout.greatest < leading then
    ⟨negative, digits.take 1, digits.drop 1, some leading⟩
  else if 0 ≤ d.exponent then
    ⟨negative, digits ++ List.replicate d.exponent.toNat '0', ['0'], none⟩
  else
    let places := (-d.exponent).toNat
    let padded := List.replicate (places + 1 - digits.length) '0' ++ digits
    ⟨negative, padded.take (padded.length - places), padded.drop (padded.length - places), none⟩

/-- The shortest form of a finite number that reads back. -/
def ofFloating (layout : Layout) {f : FloatFormat} (x : Floating f) : JsonNumber :=
  ofDecimal layout x.isNegative (x.shortest .toEven)

end PropertyBinding.JsonNumber

import PropertyBinding.Numeric.Floating

/-!
# Shortest decimal digits

The fewest decimal digits that read back as a given binary number. The numbers that round to a
finite number form an interval around it; on the grid of `n`-digit decimals only the two neighbours
of the number need to be tried, and the first `n` with a hit gives the digits. Of two hits the
nearer is taken; what happens when they are equally near is left to the format that prints them.
-/

namespace PropertyBinding

/-- A decimal number `digits · 10 ^ exponent`. -/
structure Decimal where
  digits : Nat
  exponent : Int
  deriving DecidableEq, Repr

/-- Which of two equally near neighbours is taken. -/
inductive Tie where
  | upward
  | toEven
  deriving DecidableEq, Repr

namespace Decimal

/-- The number of decimal digits of a positive integer; zero has one. -/
def digitCount (n : Nat) : Nat := (Nat.toDigits 10 n).length

/-- Integers in proportion to `10 ^ exponent`, so that the exponent is never negative: a factor
for the numerator and one for the denominator. -/
def powerOfTen (exponent : Int) : Nat × Nat :=
  if 0 ≤ exponent then (Nat.pow 10 exponent.toNat, 1) else (1, Nat.pow 10 (-exponent).toNat)

/-- The exponent of the largest power of ten that is at most `num / den`. -/
def floorLog10 (num den : Nat) : Int :=
  let guess : Int := (digitCount num : Int) - digitCount den
  let p := powerOfTen guess
  if den * p.1 ≤ num * p.2 then guess else guess - 1

/-- The same number without trailing zeros among its digits. -/
def normalize (fuel : Nat) (d : Decimal) : Decimal :=
  match fuel with
  | 0 => d
  | fuel + 1 =>
    if d.digits % 10 = 0 ∧ d.digits ≠ 0 then normalize fuel ⟨d.digits / 10, d.exponent + 1⟩ else d

/-- An interval of positive numbers `low / den` to `high / den` around `value / den`. -/
structure Interval where
  low : Nat
  value : Nat
  high : Nat
  den : Nat
  closed : Bool
  deriving DecidableEq, Repr

/-- The neighbour of the interval's value on the grid of multiples of `10 ^ exponent` that lies in
the interval, the nearer one of two. -/
def Interval.onGrid? (i : Interval) (tie : Tie) (exponent : Int) : Option Nat :=
  let p := powerOfTen exponent
  let den := i.den * p.1
  let value := i.value * p.2
  let below := value / den
  let within (a b : Nat) : Bool := a < b || (i.closed && a == b)
  let belowHits := within (i.low * p.2) (below * den)
  let aboveHits := within ((below + 1) * den) (i.high * p.2)
  let twice := 2 * (value % den)
  match belowHits, aboveHits with
  | false, false => none
  | true, false => some below
  | false, true => some (below + 1)
  | true, true =>
    if twice < den then some below
    else if den < twice then some (below + 1)
    else match tie with
      | .upward => some (below + 1)
      | .toEven => some (below + below % 2)

/-- The first hit on the grids `10 ^ exponent`, `10 ^ (exponent - 1)`, … -/
def Interval.firstHit (i : Interval) (tie : Tie) (exponent : Int) : Nat → Decimal
  | 0 => ⟨i.value * (powerOfTen exponent).2 / (i.den * (powerOfTen exponent).1), exponent⟩
  | fuel + 1 =>
    match i.onGrid? tie exponent with
    | some digits => ⟨digits, exponent⟩
    | none => i.firstHit tie (exponent - 1) fuel

end Decimal

namespace Floating

variable {f : FloatFormat}

/-- The interval of numbers that round to a finite number other than zero, its sign apart. Its ends
belong to it if the significand is even. Below a power of two the next number is only half as
far. -/
def interval (x : Floating f) : Decimal.Interval :=
  let m := x.significand
  let narrow := m == f.leadingBit && f.minExponent < x.exponent
  let quarter := x.exponent - 2
  let scale := if 0 ≤ quarter then 1 <<< quarter.toNat else 1
  { low := (4 * m - if narrow then 1 else 2) * scale
    value := 4 * m * scale
    high := (4 * m + 2) * scale
    den := if 0 ≤ quarter then 1 else 1 <<< (-quarter).toNat
    closed := m % 2 == 0 }

/-- The fewest decimal digits that read back as this finite number, its sign apart, and of those
the nearest. -/
def shortest (tie : Tie) (x : Floating f) : Decimal :=
  if x.isZero then ⟨0, 0⟩
  else
    let i := x.interval
    let hit := i.firstHit tie (Decimal.floorLog10 i.value i.den) (f.fractionBits + 1)
    hit.normalize (Decimal.digitCount hit.digits)

end Floating

end PropertyBinding

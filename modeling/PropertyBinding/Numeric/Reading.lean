import PropertyBinding.Numeric.Floating

/-!
# Reading numbers

The strict forms in which numbers are written: an optional sign and ASCII digits for integers; for
floating-point numbers also a fraction, an exponent, and the words for infinity and for what is no
number. Nothing may stand before or after.
-/

namespace PropertyBinding.Numeric

/-- The value of a list of ASCII digits in front of which `start` has been read. -/
def foldDigits (start : Nat) (cs : List Char) : Nat :=
  cs.foldl (fun n c => 10 * n + (c.toNat - '0'.toNat)) start

/-- The value of a non-empty run of ASCII digits. -/
def natural? (cs : List Char) : Option Nat :=
  if cs ≠ [] ∧ cs.all Char.isDigit then some (foldDigits 0 cs) else none

/-- The integer that an optional sign and digits stand for. -/
def integer? : List Char → Option Int
  | '-' :: cs => (natural? cs).map fun n => -(n : Int)
  | '+' :: cs => (natural? cs).map Int.ofNat
  | cs => (natural? cs).map Int.ofNat

/-- The natural number that an optional plus sign and digits stand for. -/
def unsigned? : List Char → Option Nat
  | '+' :: cs => natural? cs
  | cs => natural? cs

/-- The integer of a text, if it lies between the given bounds. -/
def integerWithin? (low high : Int) (cs : List Char) : Option Int :=
  (integer? cs).filter fun n => low ≤ n && n ≤ high

/-- The integer of 32 bits that a text stands for. -/
def int32? (cs : List Char) : Option Int32 :=
  (integerWithin? Int32.minValue.toInt Int32.maxValue.toInt cs).map Int32.ofInt

/-- The integer of 64 bits that a text stands for. -/
def int64? (cs : List Char) : Option Int64 :=
  (integerWithin? Int64.minValue.toInt Int64.maxValue.toInt cs).map Int64.ofInt

/-- The natural number of 64 bits that a text stands for. -/
def uint64? (cs : List Char) : Option UInt64 :=
  ((unsigned? cs).filter (· < UInt64.size)).map UInt64.ofNat

/-- The digits and the exponent of a decimal number without a sign. -/
def decimal? (cs : List Char) : Option (Nat × Int) :=
  let whole := cs.takeWhile Char.isDigit
  let afterWhole := cs.dropWhile Char.isDigit
  let (fraction, afterFraction) :=
    match afterWhole with
    | '.' :: rest => (rest.takeWhile Char.isDigit, rest.dropWhile Char.isDigit)
    | rest => ([], rest)
  let digits := foldDigits 0 (whole ++ fraction)
  if whole = [] ∧ fraction = [] then none
  else match afterFraction with
    | [] => some (digits, -(fraction.length : Int))
    | e :: rest =>
      if e = 'e' ∨ e = 'E' then
        (integer? rest).map fun exponent => (digits, exponent - fraction.length)
      else none

/-- The number without a sign that a text stands for, with the sign applied. -/
def unsignedFloating? {f : FloatFormat} (negative : Bool) (cs : List Char) : Option (Floating f) :=
  let word := cs.map Char.toLower
  if word = "inf".toList ∨ word = "infinity".toList then some (.infinity negative)
  else if word = "nan".toList then some (if negative then .negate .notANumber else .notANumber)
  else (decimal? cs).map fun (digits, exponent) => .ofDecimal negative digits exponent

/-- The floating-point number nearest to what a text stands for. -/
def floating? {f : FloatFormat} : List Char → Option (Floating f)
  | '-' :: cs => unsignedFloating? true cs
  | '+' :: cs => unsignedFloating? false cs
  | cs => unsignedFloating? false cs

end PropertyBinding.Numeric

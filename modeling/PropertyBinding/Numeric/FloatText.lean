import PropertyBinding.Numeric.Shortest

/-!
# The text of a floating-point number

Messages and documents print the shortest digits that read back, always without an exponent. They
differ in whether a whole number keeps a fraction of zero and in the word for what is no number:
those are the fields of a `FloatText`.
-/

namespace PropertyBinding

/-- How a writer lays out the digits of a number. -/
structure FloatText where
  /-- Whether a whole number ends in a point and a zero. -/
  keepsFraction : Bool
  /-- The word for what is no number. -/
  notANumber : String
  deriving DecidableEq, Repr

namespace FloatText

/-- The plain form, which strings and flattened documents use. -/
def plain : FloatText := ⟨false, "NaN"⟩

/-- The form of messages, in which a whole number is still recognisable as a floating-point
number. -/
def pointed : FloatText := ⟨true, "NaN"⟩

/-- The form inside the text of a document value. -/
def document : FloatText := ⟨true, "nan"⟩

/-- The digits of a decimal number written out in full. -/
def writeDecimal (t : FloatText) (d : Decimal) : List Char :=
  let digits := Nat.toDigits 10 d.digits
  if 0 ≤ d.exponent then
    digits ++ List.replicate d.exponent.toNat '0' ++ (if t.keepsFraction then ['.', '0'] else [])
  else
    let places := (-d.exponent).toNat
    let padded := List.replicate (places + 1 - digits.length) '0' ++ digits
    padded.take (padded.length - places) ++ '.' :: padded.drop (padded.length - places)

/-- The text of a number. Of two shortest decimals that are equally near, the larger is taken. -/
def write (t : FloatText) {f : FloatFormat} (x : Floating f) : String :=
  let unsigned :=
    if x.isInfinite then "inf" else String.ofList (t.writeDecimal (x.shortest .upward))
  if x.isNaN then t.notANumber
  else if x.isNegative then "-" ++ unsigned
  else unsigned

end FloatText

end PropertyBinding

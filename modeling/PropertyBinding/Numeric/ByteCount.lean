import PropertyBinding.Numeric.Reading

/-!
# Byte counts

A byte count is a run of ASCII digits and at most one letter for its unit, in either case. Units
are powers of 1024. The count must be below `2 ^ 64`.
-/

namespace PropertyBinding

namespace ByteCount

/-- Why a text is no byte count. -/
inductive Fault where
  /-- It is not digits and a unit, or the digits alone are too large. -/
  | malformed
  /-- The digits are a count of 64 bits, but their multiple is not. -/
  | outOfRange
  deriving DecidableEq, Repr

/-- The power of two that a unit stands for. -/
def unitExponent? : List Char → Option Nat
  | [] => some 0
  | [c] =>
    match c.toUpper with
    | 'B' => some 0
    | 'K' => some 10
    | 'M' => some 20
    | 'G' => some 30
    | 'T' => some 40
    | 'P' => some 50
    | 'E' => some 60
    | _ => none
  | _ => none

/-- The byte count that a text without surrounding blanks stands for. -/
def read (cs : List Char) : Except Fault UInt64 :=
  let digits := cs.takeWhile Char.isDigit
  if digits = [] then .error .malformed
  else match unitExponent? (cs.dropWhile Char.isDigit) with
    | none => .error .malformed
    | some exponent =>
      let amount := Numeric.foldDigits 0 digits
      if UInt64.size ≤ amount then .error .malformed
      else if UInt64.size ≤ amount <<< exponent then .error .outOfRange
      else .ok (UInt64.ofNat (amount <<< exponent))

end ByteCount

end PropertyBinding

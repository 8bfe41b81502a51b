/-!
# Dates and times

A date, a time of day, or both, and the distance of local time from universal time. Fractions of a
second are kept to nine digits; more are cut off.
-/

namespace PropertyBinding

/-- A day of the calendar. -/
structure Date where
  year : Nat
  month : Nat
  day : Nat
  deriving DecidableEq, Repr

/-- A time of day. The second may be a leap second. -/
structure TimeOfDay where
  hour : Nat
  minute : Nat
  second : Nat
  nanosecond : Nat
  deriving DecidableEq, Repr

/-- The distance of local time from universal time. -/
inductive TimeOffset where
  | universal
  | minutes (n : Int)
  deriving DecidableEq, Repr

/-- A date, a time of day, or both, perhaps with an offset. -/
structure Datetime where
  date : Option Date
  time : Option TimeOfDay
  offset : Option TimeOffset
  deriving DecidableEq, Repr

/-- A number in decimal, filled up with zeros to a width. -/
def padded (width n : Nat) : List Char :=
  let digits := Nat.toDigits 10 n
  List.replicate (width - digits.length) '0' ++ digits

/-- The number of days of a month. -/
def Date.daysIn (year month : Nat) : Nat :=
  if month = 2 then
    if year % 4 = 0 ∧ (year % 100 ≠ 0 ∨ year % 400 = 0) then 29 else 28
  else if month ∈ [4, 6, 9, 11] then 30
  else 31

/-- Year, month and day, separated by hyphens. -/
def Date.text (d : Date) : List Char :=
  padded 4 d.year ++ '-' :: padded 2 d.month ++ '-' :: padded 2 d.day

/-- Hour, minute and second, separated by colons, and the fraction of a second without trailing
zeros. -/
def TimeOfDay.text (t : TimeOfDay) : List Char :=
  padded 2 t.hour ++ ':' :: padded 2 t.minute ++ ':' :: padded 2 t.second ++
    if t.nanosecond = 0 then []
    else '.' :: ((padded 9 t.nanosecond).reverse.dropWhile (· = '0')).reverse

/-- The letter for universal time, or a sign, hours and minutes. -/
def TimeOffset.text : TimeOffset → List Char
  | .universal => ['Z']
  | .minutes n =>
    (if n < 0 then '-' else '+') :: padded 2 (n.natAbs / 60) ++ ':' :: padded 2 (n.natAbs % 60)

/-- The date, the letter `T` if a time follows it, the time, and the offset. -/
def Datetime.text (d : Datetime) : List Char :=
  ((d.date.map Date.text).getD []) ++
    (if d.date.isSome ∧ d.time.isSome then ['T'] else []) ++
    ((d.time.map TimeOfDay.text).getD []) ++ ((d.offset.map TimeOffset.text).getD [])

end PropertyBinding

import PropertyBinding.Numeric.Reading
import PropertyBinding.Toml.Datetime

/-!
# Reading dates and times

A date, a time of day, or both with perhaps an offset, written with digits of fixed width. They
are written alike where they stand bare in a document and where they are the text of a string.
-/

namespace PropertyBinding.Toml

/-- Exactly `count` digits between two bounds, and what follows. -/
def digits? (count low high : Nat) (cs : List Char) : Option (Nat × List Char) :=
  let digits := cs.take count
  let n := Numeric.foldDigits 0 digits
  if digits.length = count ∧ digits.all Char.isDigit ∧ low ≤ n ∧ n ≤ high then
    some (n, cs.drop count)
  else none

/-- What follows a character. -/
def after? (c : Char) : List Char → Option (List Char)
  | d :: rest => if c = d then some rest else none
  | [] => none

/-- A date, and what follows. -/
def date? (cs : List Char) : Option (Date × List Char) := do
  let (year, cs) ← digits? 4 0 9999 cs
  let cs ← after? '-' cs
  let (month, cs) ← digits? 2 1 12 cs
  let cs ← after? '-' cs
  let (day, cs) ← digits? 2 1 (Date.daysIn year month) cs
  return (⟨year, month, day⟩, cs)

/-- The nanoseconds of a fraction of a second, and what follows. -/
def nanoseconds (cs : List Char) : Nat × List Char :=
  match cs with
  | '.' :: rest =>
    let digits := rest.takeWhile Char.isDigit
    if digits = [] then (0, cs)
    else (Numeric.foldDigits 0 ((digits ++ List.replicate 9 '0').take 9), rest.drop digits.length)
  | _ => (0, cs)

/-- A time of day, and what follows. -/
def time? (cs : List Char) : Option (TimeOfDay × List Char) := do
  let (hour, cs) ← digits? 2 0 23 cs
  let cs ← after? ':' cs
  let (minute, cs) ← digits? 2 0 59 cs
  let cs ← after? ':' cs
  let (second, cs) ← digits? 2 0 60 cs
  let (nanosecond, cs) := nanoseconds cs
  return (⟨hour, minute, second, nanosecond⟩, cs)

/-- The minutes of hours and minutes that make up a whole text. -/
def offsetMinutes? (cs : List Char) : Option Nat := do
  let (hour, rest) ← digits? 2 0 23 cs
  let rest ← after? ':' rest
  let (minute, rest) ← digits? 2 0 59 rest
  if rest = [] then some (60 * hour + minute) else none

/-- An offset that makes up a whole text; the empty text is none. -/
def offset? : List Char → Option (Option TimeOffset)
  | [] => some none
  | ['Z'] | ['z'] => some (some .universal)
  | '+' :: rest => (offsetMinutes? rest).map fun n => some (.minutes n)
  | '-' :: rest => (offsetMinutes? rest).map fun n => some (.minutes (-n))
  | _ => none

/-- A date or a time that makes up a whole text. -/
def datetime? (cs : List Char) : Option Datetime :=
  match date? cs with
  | some (date, []) => some ⟨some date, none, none⟩
  | some (date, c :: rest) =>
    if c = 'T' ∨ c = 't' ∨ c = ' ' then do
      let (time, rest) ← time? rest
      return ⟨some date, some time, ← offset? rest⟩
    else none
  | none => do
    let (time, rest) ← time? cs
    if rest = [] then some ⟨none, some time, none⟩ else none

end PropertyBinding.Toml

import PropertyBinding.Json

/-!
# Reading JSON

A reader for one JSON text. Nesting is not limited here, and a string that has no text is still
read: whether that matters is left to who uses the tree.
-/

namespace PropertyBinding.Json

/-- The characters that may stand between tokens. -/
def isSpace (c : Char) : Bool := c = ' ' || c = '\n' || c = '\t' || c = '\r'

/-- The text without the blanks in front. -/
def skipSpace (cs : List Char) : List Char := cs.dropWhile isSpace

/-! ### Strings -/

/-- What an escape or a character of a string stands for. -/
inductive StringUnit where
  | char (c : Char)
  | surrogate (n : Nat)
  deriving DecidableEq, Repr

/-- The value of a digit in base sixteen. -/
def hexValue? (c : Char) : Option Nat :=
  if c.isDigit then some (c.toNat - '0'.toNat)
  else if 'a' ≤ c ∧ c ≤ 'f' then some (c.toNat - 'a'.toNat + 10)
  else if 'A' ≤ c ∧ c ≤ 'F' then some (c.toNat - 'A'.toNat + 10)
  else none

/-- The unit with this number. -/
def StringUnit.ofNat (n : Nat) : StringUnit :=
  if 0xD800 ≤ n ∧ n < 0xE000 then .surrogate n else .char (Char.ofNat n)

/-- The character that follows a backslash in an escape of two characters. -/
def simpleEscape? : Char → Option Char
  | '"' => some '"'
  | '\\' => some '\\'
  | '/' => some '/'
  | 'b' => some '\x08'
  | 'f' => some '\x0c'
  | 'n' => some '\n'
  | 'r' => some '\r'
  | 't' => some '\t'
  | _ => none

/-- The units of a string up to its closing quotation mark, and what follows the mark. -/
def readUnits : List Char → Option (List StringUnit × List Char)
  | [] => none
  | '"' :: rest => some ([], rest)
  | '\\' :: 'u' :: a :: b :: c :: d :: rest => do
    let w ← hexValue? a
    let x ← hexValue? b
    let y ← hexValue? c
    let z ← hexValue? d
    let (units, rest) ← readUnits rest
    return (.ofNat (((w * 16 + x) * 16 + y) * 16 + z) :: units, rest)
  | '\\' :: c :: rest => do
    let e ← simpleEscape? c
    let (units, rest) ← readUnits rest
    return (.char e :: units, rest)
  | c :: rest =>
    if c = '\\' ∨ c.toNat < 0x20 then none
    else do
      let (units, rest) ← readUnits rest
      return (.char c :: units, rest)

/-- A quotation mark ends a string. -/
theorem readUnits_quote (rest : List Char) : readUnits ('"' :: rest) = some ([], rest) := by
  rw [readUnits]

/-- The text of units: every high surrogate must be followed by a low one, and the other way
round. -/
def assemble : List StringUnit → Option (List Char)
  | [] => some []
  | .char c :: units => (assemble units).map (c :: ·)
  | .surrogate high :: .surrogate low :: units =>
    if high < 0xDC00 ∧ 0xDC00 ≤ low then
      (assemble units).map
        (Char.ofNat (0x10000 + (high - 0xD800) * 0x400 + (low - 0xDC00)) :: ·)
    else none
  | .surrogate _ :: _ => none

/-- A string behind its opening quotation mark. -/
def readString (cs : List Char) : Option (Option String × List Char) :=
  (readUnits cs).map fun (units, rest) => ((assemble units).map String.ofList, rest)

/-! ### Numbers -/

/-- The value of digits. -/
def digitsValue (cs : List Char) : Nat :=
  cs.foldl (fun n c => 10 * n + (c.toNat - '0'.toNat)) 0

/-- The digits of a fraction, if there is a point, and what follows. -/
def readFraction : List Char → Option (List Char × List Char)
  | '.' :: rest =>
    let digits := rest.takeWhile Char.isDigit
    if digits = [] then none else some (digits, rest.dropWhile Char.isDigit)
  | rest => some ([], rest)

/-- The sign of an exponent, and what follows. -/
def readSign : List Char → Bool × List Char
  | '-' :: rest => (true, rest)
  | '+' :: rest => (false, rest)
  | rest => (false, rest)

/-- The exponent, if there is one, and what follows. -/
def readExponent : List Char → Option (Option Int × List Char)
  | [] => some (none, [])
  | c :: rest =>
    if c = 'e' ∨ c = 'E' then
      let (negative, rest) := readSign rest
      let digits := rest.takeWhile Char.isDigit
      let magnitude : Int := digitsValue digits
      if digits = [] then none
      else some (some (if negative then -magnitude else magnitude), rest.dropWhile Char.isDigit)
    else some (none, c :: rest)

/-- A number without its sign. Digits in front of the point have no leading zero. -/
def readUnsigned (negative : Bool) (cs : List Char) : Option (JsonNumber × List Char) := do
  let whole := cs.takeWhile Char.isDigit
  if whole = [] ∨ (whole.head? = some '0' ∧ whole ≠ ['0']) then none
  let (fraction, rest) ← readFraction (cs.dropWhile Char.isDigit)
  let (exponent, rest) ← readExponent rest
  return (⟨negative, whole, fraction, exponent⟩, rest)

/-- A number. -/
def readNumber : List Char → Option (JsonNumber × List Char)
  | '-' :: rest => readUnsigned true rest
  | cs => readUnsigned false cs

/-! ### Values -/

/-- What follows a word, if the text begins with it. -/
def readWord (word : List Char) (cs : List Char) : Option (List Char) :=
  if word.isPrefixOf cs then some (cs.drop word.length) else none

mutual

/-- A value, and what follows it. -/
def readValue (fuel : Nat) (cs : List Char) : Option (Json × List Char) :=
  match fuel with
  | 0 => none
  | fuel + 1 =>
    match skipSpace cs with
    | 'n' :: rest => (readWord "ull".toList rest).map (.null, ·)
    | 't' :: rest => (readWord "rue".toList rest).map (.bool true, ·)
    | 'f' :: rest => (readWord "alse".toList rest).map (.bool false, ·)
    | '"' :: rest => (readString rest).map fun (text, rest) => (.string text, rest)
    | '[' :: rest =>
      match skipSpace rest with
      | ']' :: rest => some (.array [], rest)
      | rest => (readItems fuel rest).map fun (items, rest) => (.array items, rest)
    | '\x7b' :: rest =>
      match skipSpace rest with
      | '\x7d' :: rest => some (.object [], rest)
      | rest => (readMembers fuel rest).map fun (members, rest) => (.object members, rest)
    | cs => (readNumber cs).map fun (n, rest) => (.number n, rest)

/-- The items of an array up to its closing bracket, and what follows. There is at least one. -/
def readItems (fuel : Nat) (cs : List Char) : Option (List Json × List Char) :=
  match fuel with
  | 0 => none
  | fuel + 1 => do
    let (item, rest) ← readValue fuel cs
    match skipSpace rest with
    | ',' :: rest =>
      let (items, rest) ← readItems fuel rest
      return (item :: items, rest)
    | ']' :: rest => return ([item], rest)
    | _ => none

/-- The members of an object up to its closing brace, and what follows. There is at least one. -/
def readMembers (fuel : Nat) (cs : List Char) :
    Option (List (Option String × Json) × List Char) :=
  match fuel with
  | 0 => none
  | fuel + 1 => do
    match skipSpace cs with
    | '"' :: rest =>
      let (key, rest) ← readString rest
      match skipSpace rest with
      | ':' :: rest =>
        let (value, rest) ← readValue fuel rest
        match skipSpace rest with
        | ',' :: rest =>
          let (members, rest) ← readMembers fuel rest
          return ((key, value) :: members, rest)
        | '\x7d' :: rest => return ([(key, value)], rest)
        | _ => none
      | _ => none
    | _ => none

end

/-- The tree of a JSON text: one value, with blanks around it. -/
def parse? (text : String) : Option Json :=
  match readValue (text.toList.length + 1) text.toList with
  | some (json, rest) => if skipSpace rest = [] then some json else none
  | none => none

end PropertyBinding.Json

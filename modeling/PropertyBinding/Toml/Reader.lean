import PropertyBinding.Toml.OpenTable

/-!
# Reading TOML documents

A reader for documents of version 1.0. Tables may be opened in any order, but none may be opened
twice, and what a dotted key or an inline table has made cannot be opened again by a header.
-/

namespace PropertyBinding.Toml

/-! ### Blanks, comments, line ends -/

/-- Whether the character is a blank within a line. -/
def isWhitespace (c : Char) : Bool := c = ' ' || c = '\t'

/-- The text without the blanks in front. -/
def skipBlanks (cs : List Char) : List Char := cs.dropWhile isWhitespace

/-- Whether the character may stand in a comment or a literal string. -/
def isTextChar (c : Char) : Bool := c = '\t' || (0x20 ≤ c.toNat && c.toNat ≠ 0x7F)

/-- What follows a line end. -/
def newline? : List Char → Option (List Char)
  | '\n' :: rest => some rest
  | '\r' :: '\n' :: rest => some rest
  | _ => none

/-- What follows the rest of a line: blanks, perhaps a comment, and a line end or the end of the
document. -/
def lineRest? (cs : List Char) : Option (List Char) :=
  let rest := match skipBlanks cs with
    | '#' :: comment => comment.dropWhile isTextChar
    | rest => rest
  if rest = [] then some [] else newline? rest

/-- What follows blanks, line ends and whole-line comments. -/
def skipLines (fuel : Nat) (cs : List Char) : List Char :=
  match fuel with
  | 0 => cs
  | fuel + 1 =>
    match skipBlanks cs with
    | '#' :: comment =>
      match newline? (comment.dropWhile isTextChar) with
      | some rest => skipLines fuel rest
      | none => '#' :: comment
    | rest =>
      match newline? rest with
      | some rest => skipLines fuel rest
      | none => rest

/-! ### Strings -/

/-- The value of a digit in base sixteen. -/
def hexValue? (c : Char) : Option Nat :=
  if c.isDigit then some (c.toNat - '0'.toNat)
  else if 'a' ≤ c ∧ c ≤ 'f' then some (c.toNat - 'a'.toNat + 10)
  else if 'A' ≤ c ∧ c ≤ 'F' then some (c.toNat - 'A'.toNat + 10)
  else none

/-- The value of digits in a base up to sixteen. -/
def baseValue? (base : Nat) (cs : List Char) : Option Nat :=
  cs.foldlM (fun n c => do
    let d ← hexValue? c
    if d < base then some (n * base + d) else none) 0

/-- The character with a code point, unless it is a surrogate or too large. -/
def char? (n : Nat) : Option Char :=
  if n.isValidChar then some (Char.ofNat n) else none

/-- The character of an escape behind its backslash, and what follows. -/
def escape? : List Char → Option (Char × List Char)
  | 'b' :: rest => some ('\x08', rest)
  | 't' :: rest => some ('\t', rest)
  | 'n' :: rest => some ('\n', rest)
  | 'f' :: rest => some ('\x0c', rest)
  | 'r' :: rest => some ('\r', rest)
  | '"' :: rest => some ('"', rest)
  | '\\' :: rest => some ('\\', rest)
  | 'u' :: rest => do
    if rest.length < 4 then none
    let n ← baseValue? 16 (rest.take 4)
    return (← char? n, rest.drop 4)
  | 'U' :: rest => do
    if rest.length < 8 then none
    let n ← baseValue? 16 (rest.take 8)
    return (← char? n, rest.drop 8)
  | _ => none

/-- The characters of a string up to the closing quotation mark, and what follows it. -/
def basicString (fuel : Nat) (cs : List Char) : Option (List Char × List Char) :=
  match fuel with
  | 0 => none
  | fuel + 1 =>
    match cs with
    | [] => none
    | '"' :: rest => some ([], rest)
    | '\\' :: rest => do
      let (c, rest) ← escape? rest
      let (text, rest) ← basicString fuel rest
      return (c :: text, rest)
    | c :: rest =>
      if isTextChar c then do
        let (text, rest) ← basicString fuel rest
        return (c :: text, rest)
      else none

/-- The characters of a literal string up to the closing mark, and what follows it. -/
def literalString (cs : List Char) : Option (List Char × List Char) :=
  let text := cs.takeWhile fun c => isTextChar c && c != '\''
  match cs.drop text.length with
  | '\'' :: rest => some (text, rest)
  | _ => none

/-- The end of a string of several lines that stands at a run of marks: a run of three to five
marks ends the string, and those before the last three belong to it. -/
def closing? (mark : Char) (cs : List Char) : Option (List Char × List Char) :=
  let run := (cs.takeWhile (· = mark)).length
  if 3 ≤ run ∧ run ≤ 5 then some (List.replicate (run - 3) mark, cs.drop run) else none

/-- What follows a backslash at the end of a line: the blanks and line ends after it, of which the
first line end must come after blanks alone. -/
def lineContinuation? (fuel : Nat) (cs : List Char) : Option (List Char) := do
  let rest ← newline? (skipBlanks cs)
  return skipEnds fuel rest
where
  /-- What follows blanks and line ends. -/
  skipEnds : Nat → List Char → List Char
    | 0, cs => cs
    | fuel + 1, cs =>
      match newline? (skipBlanks cs) with
      | some rest => skipEnds fuel rest
      | none => skipBlanks cs

/-- The characters of a string of several lines up to its closing marks, and what follows them.
Every line end counts as one line feed. In a literal string a backslash is a character like any
other. -/
def multilineString (literal : Bool) (mark : Char) (fuel : Nat) (cs : List Char) :
    Option (List Char × List Char) :=
  match fuel with
  | 0 => none
  | fuel + 1 =>
    match newline? cs with
    | some rest => do
      let (text, rest) ← multilineString literal mark fuel rest
      return ('\n' :: text, rest)
    | none =>
      match cs with
      | [] => none
      | c :: rest =>
        if c = mark then
          let run := (cs.takeWhile (· = mark)).length
          if run < 3 then do
            let (text, rest) ← multilineString literal mark fuel rest
            return (c :: text, rest)
          else closing? mark cs
        else if c = '\\' ∧ ¬literal then
          match lineContinuation? fuel rest with
          | some rest => multilineString literal mark fuel rest
          | none => do
            let (e, rest) ← escape? rest
            let (text, rest) ← multilineString literal mark fuel rest
            return (e :: text, rest)
        else if isTextChar c then do
          let (text, rest) ← multilineString literal mark fuel rest
          return (c :: text, rest)
        else none

/-- A string of several lines behind its opening marks, where a line end is passed over. -/
def multilineBody (literal : Bool) (mark : Char) (cs : List Char) :
    Option (List Char × List Char) :=
  multilineString literal mark (cs.length + 1) ((newline? cs).getD cs)

/-- A string of any form, and what follows it. -/
def readString : List Char → Option (String × List Char)
  | '"' :: '"' :: '"' :: rest =>
    (multilineBody false '"' rest).map fun (text, rest) => (String.ofList text, rest)
  | '"' :: rest =>
    (basicString (rest.length + 1) rest).map fun (text, rest) => (String.ofList text, rest)
  | '\'' :: '\'' :: '\'' :: rest =>
    (multilineBody true '\'' rest).map fun (text, rest) => (String.ofList text, rest)
  | '\'' :: rest =>
    (literalString rest).map fun (text, rest) => (String.ofList text, rest)
  | _ => none

/-! ### Numbers and words -/

/-- Digits with single underscores between them, without the underscores. -/
def grouped? (isDigit : Char → Bool) : List Char → Option (List Char)
  | [] => none
  | [c] => if isDigit c then some [c] else none
  | c :: '_' :: rest => if isDigit c then (grouped? isDigit rest).map (c :: ·) else none
  | c :: rest => if isDigit c then (grouped? isDigit rest).map (c :: ·) else none

/-- Digits of a decimal integer without a leading zero, without their underscores. -/
def decimalDigits? (cs : List Char) : Option (List Char) :=
  if cs.head? = some '0' ∧ cs ≠ ['0'] then none else grouped? Char.isDigit cs

/-- Whether a sign is a minus, and the text without its sign. -/
def takeSign : List Char → Bool × List Char
  | '-' :: cs => (true, cs)
  | '+' :: cs => (false, cs)
  | cs => (false, cs)

/-- A value of 64 bits with a sign. -/
def int64? (n : Int) : Option Toml :=
  if Int64.minValue.toInt ≤ n ∧ n ≤ Int64.maxValue.toInt then some (.integer (.ofInt n)) else none

/-- Whether the character is a digit in a base up to sixteen. -/
def isBaseDigit (base : Nat) (c : Char) : Bool := (hexValue? c).any (· < base)

/-- An integer in another base behind the letter for the base. -/
def basedInteger? (base : Nat) (cs : List Char) : Option Toml := do
  let digits ← grouped? (isBaseDigit base) cs
  int64? (← baseValue? base digits)

/-- An integer. -/
def integer? : List Char → Option Toml
  | '0' :: 'x' :: cs => basedInteger? 16 cs
  | '0' :: 'o' :: cs => basedInteger? 8 cs
  | '0' :: 'b' :: cs => basedInteger? 2 cs
  | cs => do
    let (negative, cs) := takeSign cs
    let magnitude : Int := Numeric.foldDigits 0 (← decimalDigits? cs)
    int64? (if negative then -magnitude else magnitude)

/-- The digits of an exponent with their sign, as an integer. -/
def exponent? (cs : List Char) : Option Int := do
  let (negative, cs) := takeSign cs
  let magnitude : Int := Numeric.foldDigits 0 (← grouped? Char.isDigit cs)
  return if negative then -magnitude else magnitude

/-- A floating-point number. A positive one must not be too large. -/
def float? (cs : List Char) : Option Toml := do
  let (negative, cs) := takeSign cs
  if cs = "inf".toList then return .float (.infinity negative)
  if cs = "nan".toList then return .float (if negative then .negate .notANumber else .notANumber)
  let mantissa := cs.takeWhile fun c => c ≠ 'e' ∧ c ≠ 'E'
  let scale := cs.drop mantissa.length
  let whole := mantissa.takeWhile (· ≠ '.')
  let point := mantissa.drop whole.length
  if point = [] ∧ scale = [] then none
  let whole ← decimalDigits? whole
  let fraction ← if point = [] then some [] else grouped? Char.isDigit (point.drop 1)
  let exponent ← if scale = [] then some 0 else exponent? (scale.drop 1)
  let x : Double :=
    .ofDecimal negative (Numeric.foldDigits 0 (whole ++ fraction)) (exponent - fraction.length)
  if x.isInfinite && !negative then none else return .float x

/-- Whether a value without quotation marks or brackets ends in front of the character. -/
def endsToken (c : Char) : Bool := c ∈ [' ', '\t', '#', '\n', '\r', ',', ']', '\x7d']

/-- The text of a value without quotation marks or brackets, and what follows. A date and a time
may have one blank between them. -/
def token (cs : List Char) : List Char × List Char :=
  let first := cs.takeWhile fun c => !endsToken c
  let rest := cs.drop first.length
  match rest with
  | ' ' :: c :: more =>
    if (date? first).any (·.2 = []) ∧ c.isDigit then
      let second := (c :: more).takeWhile fun c => !endsToken c
      (first ++ ' ' :: second, (c :: more).drop second.length)
    else (first, rest)
  | _ => (first, rest)

/-- The value that a token stands for. -/
def scalar? (cs : List Char) : Option Toml :=
  if cs = "true".toList then some (.boolean true)
  else if cs = "false".toList then some (.boolean false)
  else ((datetime? cs).map .datetime).or ((integer? cs).or (float? cs))

/-! ### Keys -/

/-- How many parts a key may have, and how many arrays and inline tables may stand within each
other: fewer than this. -/
def nestingLimit : Nat := 80

/-- One part of a key, and what follows. -/
def simpleKey? : List Char → Option (String × List Char)
  | '"' :: rest =>
    (basicString (rest.length + 1) rest).map fun (text, rest) => (String.ofList text, rest)
  | '\'' :: rest => (literalString rest).map fun (text, rest) => (String.ofList text, rest)
  | cs =>
    let part := cs.takeWhile isBareKeyChar
    if part = [] then none else some (String.ofList part, cs.drop part.length)

/-- The parts of a dotted key, with blanks around each, and what follows. -/
def keyParts? (fuel : Nat) (cs : List Char) : Option (List String × List Char) :=
  match fuel with
  | 0 => none
  | fuel + 1 => do
    let (part, rest) ← simpleKey? (skipBlanks cs)
    match skipBlanks rest with
    | '.' :: rest =>
      let (parts, rest) ← keyParts? fuel rest
      return (part :: parts, rest)
    | rest => return ([part], rest)

/-- A key, and what follows. -/
def key? (cs : List Char) : Option (List String × List Char) := do
  let (parts, rest) ← keyParts? (cs.length + 1) cs
  if nestingLimit ≤ parts.length then none
  return (parts, rest)

/-! ### Values -/

mutual

/-- A value, and what follows, with `depth` arrays and inline tables around it. -/
def readValue (fuel depth : Nat) (cs : List Char) : Option (OpenItem × List Char) :=
  match fuel with
  | 0 => none
  | fuel + 1 =>
    match cs with
    | '"' :: _ | '\'' :: _ => (readString cs).map fun (s, rest) => (.value (.string s), rest)
    | '[' :: rest =>
      if nestingLimit ≤ depth + 1 then none
      else (readItems fuel (depth + 1) rest).map fun (items, rest) => (.array items, rest)
    | '\x7b' :: rest =>
      if nestingLimit ≤ depth + 1 then none
      else match skipBlanks rest with
        | '\x7d' :: rest => some (.inlineTable .empty, rest)
        | _ => (readPairs fuel (depth + 1) .empty rest).map fun (t, rest) => (.inlineTable t, rest)
    | cs =>
      let (text, rest) := token cs
      (scalar? text).map fun v => (.value v, rest)

/-- The items of an array up to its closing bracket, and what follows. -/
def readItems (fuel depth : Nat) (cs : List Char) : Option (List OpenItem × List Char) :=
  match fuel with
  | 0 => none
  | fuel + 1 =>
    match skipLines (cs.length + 1) cs with
    | ']' :: rest => some ([], rest)
    | cs => do
      let (item, rest) ← readValue fuel depth cs
      match skipLines (rest.length + 1) rest with
      | ',' :: rest =>
        let (items, rest) ← readItems fuel depth rest
        return (item :: items, rest)
      | ']' :: rest => return ([item], rest)
      | _ => none

/-- The pairs of an inline table up to its closing brace, put into a table, and what follows. -/
def readPairs (fuel depth : Nat) (t : OpenTable) (cs : List Char) :
    Option (OpenTable × List Char) :=
  match fuel with
  | 0 => none
  | fuel + 1 => do
    let (key, rest) ← key? cs
    let rest ← after? '=' rest
    let (item, rest) ← readValue fuel depth (skipBlanks rest)
    let t ← t.insertItem key item
    match skipBlanks rest with
    | ',' :: rest => readPairs fuel depth t rest
    | '\x7d' :: rest => return (t, rest)
    | _ => none

end

/-! ### Documents -/

/-- The table that a header names, with what follows the header's line, or the table with a value
under a key. -/
def readLine (root : OpenTable) (header : List String) (cs : List Char) :
    Option (OpenTable × List String × List Char) :=
  match cs with
  | '[' :: '[' :: rest => do
    let (key, rest) ← key? rest
    let rest ← after? ']' rest
    let rest ← after? ']' rest
    let rest ← lineRest? rest
    let last ← key.getLast?
    let root ← root.descend false (OpenTable.append? last) key.dropLast
    return (root, key, rest)
  | '[' :: rest => do
    let (key, rest) ← key? rest
    let rest ← after? ']' rest
    let rest ← lineRest? rest
    let last ← key.getLast?
    let root ← root.descend false (OpenTable.open? last) key.dropLast
    return (root, key, rest)
  | cs => do
    let (key, rest) ← key? cs
    let rest ← after? '=' rest
    let (item, rest) ← readValue (rest.length + 1) 0 (skipBlanks rest)
    let rest ← lineRest? rest
    let root ← root.descend false (OpenTable.insertItem key item) header
    return (root, header, rest)

/-- The lines of a document, put into its root table. `header` is the path of the table that the
last header has opened. -/
def readLines (fuel : Nat) (root : OpenTable) (header : List String) (cs : List Char) :
    Option OpenTable :=
  match fuel with
  | 0 => none
  | fuel + 1 =>
    match skipBlanks cs with
    | [] => some root
    | '#' :: rest => (lineRest? ('#' :: rest)).bind (readLines fuel root header)
    | cs =>
      match newline? cs with
      | some rest => readLines fuel root header rest
      | none =>
        match readLine root header cs with
        | some (root, header, rest) => readLines fuel root header rest
        | none => none

/-- The entries of the root table of a document. A byte order mark in front is passed over. -/
def parse? (text : String) : Option (Entries Toml) :=
  let cs := match text.toList with
    | '\uFEFF' :: rest => rest
    | cs => cs
  (readLines (cs.length + 1) .empty [] cs).bind OpenTable.closeRoot?

end PropertyBinding.Toml

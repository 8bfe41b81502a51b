import PropertyBinding.Text.CharTables

/-!
# Characters of texts

What the library asks of single characters: which are blank and trimmed away before a scalar is
read, what the lower-case form of a text is, and which characters are escaped between quotation
marks.

Two rules for lower case go beyond a map from character to character: the capital I with a dot
becomes two characters, and a capital sigma at the end of a word becomes a final sigma.
-/

namespace PropertyBinding.Text

/-! ### Blanks -/

/-- Whether the character has the `White_Space` property. -/
def isBlank (c : Char) : Bool :=
  let n := c.toNat
  (0x09 ≤ n && n ≤ 0x0D) || n == 0x20 || n == 0x85 || n == 0xA0 || n == 0x1680 ||
    (0x2000 ≤ n && n ≤ 0x200A) || n == 0x2028 || n == 0x2029 || n == 0x202F || n == 0x205F ||
    n == 0x3000

/-- The text without the blanks at its two ends. -/
def trim (cs : List Char) : List Char :=
  ((cs.dropWhile isBlank).reverse.dropWhile isBlank).reverse

/-- The text of a property name or value without the blanks at its two ends. -/
def trimmed (s : String) : String :=
  String.ofList (trim s.toList)

/-! ### Letter case -/

/-- Whether the character has the property `Lowercase`. -/
def isLower (c : Char) : Bool :=
  if c.toNat < 128 then c.isLower else inRuns lowercaseRuns c.toNat

/-- Whether the character has the property `Uppercase`. -/
def isUpper (c : Char) : Bool :=
  if c.toNat < 128 then c.isUpper else inRuns uppercaseRuns c.toNat

/-- Whether the character is of lower, upper or title case. -/
def isCased (c : Char) : Bool :=
  isLower c || isUpper c || inRuns titlecaseRuns c.toNat

/-- Whether a search for the letter next to a sigma passes over the character. -/
def isCaseIgnorable (c : Char) : Bool :=
  if c.toNat < 128 then c ∈ ['\'', '.', ':', '^', (Char.ofNat 0x60)]
  else inRuns caseIgnorableRuns c.toNat

/-- The distance of a code point to its lower-case form. -/
def lowerDistance (n : Nat) : Int :=
  match lowerings.find? fun run =>
      run.first ≤ n && n ≤ run.last && (n - run.first) % run.step == 0 with
  | some run => run.distance
  | none => 0

/-- The lower-case form of a character wherever it stands. -/
def lowerChar (c : Char) : List Char :=
  if c.toNat < 128 then [c.toLower]
  else if c.toNat = 0x130 then ['i', Char.ofNat 0x307]
  else [Char.ofNat (c.toNat + lowerDistance c.toNat).toNat]

/-- Whether the first character that a search does not pass over is a letter. -/
def letterComesFirst (cs : List Char) : Bool :=
  match cs.dropWhile isCaseIgnorable with
  | [] => false
  | c :: _ => isCased c

/-- The lower-case form of a text that stands behind `before`, which is held in reverse. -/
def lowerAfter (before : List Char) : List Char → List Char
  | [] => []
  | c :: cs =>
    if c.toNat = 0x3A3 then
      (if letterComesFirst before && !letterComesFirst cs then Char.ofNat 0x3C2
        else Char.ofNat 0x3C3) :: lowerAfter (c :: before) cs
    else lowerChar c ++ lowerAfter (c :: before) cs

/-- The lower-case form of a text. -/
def lower (cs : List Char) : List Char :=
  lowerAfter [] cs

/-- The lower-case form of a string. -/
def lowercased (s : String) : String :=
  String.ofList (lower s.toList)

/-! ### Quoted text -/

/-- Whether the character is written in quoted text as it is. -/
def isShown (c : Char) : Bool :=
  if c.toNat < 128 then 0x20 ≤ c.toNat && c.toNat < 0x7F
  else !inRuns unprintableRuns c.toNat && !inRuns graphemeExtendRuns c.toNat &&
    !inRuns fillerRuns c.toNat

/-- The digits of a number in base sixteen, in lower case and without leading zeros. -/
def hexDigits (n : Nat) : List Char := Nat.toDigits 16 n

/-- A character as it stands in quoted text. -/
def quotedChar (c : Char) : List Char :=
  match c with
  | '\t' => ['\\', 't']
  | '\r' => ['\\', 'r']
  | '\n' => ['\\', 'n']
  | '"' => ['\\', '"']
  | '\\' => ['\\', '\\']
  | '\x00' => ['\\', '0']
  | c =>
    if isShown c then [c]
    else "\\u\x7b".toList ++ hexDigits c.toNat ++ ['\x7d']

/-- A string between quotation marks. -/
def quoted (s : String) : String :=
  String.ofList ('"' :: s.toList.flatMap quotedChar ++ ['"'])

end PropertyBinding.Text

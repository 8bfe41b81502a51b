import PropertyBinding.Numeric.FloatText
import PropertyBinding.Toml.Datetime
import PropertyBinding.Value

/-!
# TOML values

The values of TOML documents, the form in which realized values are handed to a target type, and
the text of a value on one line.
-/

namespace PropertyBinding

/-- A TOML value. -/
inductive Toml where
  | string (s : String)
  | integer (n : Int64)
  | float (x : Double)
  | boolean (b : Bool)
  | datetime (d : Datetime)
  | array (items : List Toml)
  /-- The entries of a table, in ascending key order. -/
  | table (entries : List (String × Toml))

namespace Toml

instance : Inhabited Toml := ⟨.boolean false⟩

/-! ### The text of strings and keys -/

/-- The length of the longest run of a character. -/
def longestRun (mark : Char) (current longest : Nat) : List Char → Nat
  | [] => max current longest
  | c :: cs =>
    if c = mark then longestRun mark (current + 1) longest cs
    else longestRun mark 0 (max current longest) cs

/-- Whether the character is a control that only an escape can stand for. -/
def needsEscape (c : Char) : Bool :=
  (c.toNat ≤ 0x1F && c != '\t' && c != '\n') || c.toNat == 0x7F

/-- A number in base sixteen with four capital digits. -/
def hexFour (n : Nat) : List Char :=
  let digits := (Nat.toDigits 16 n).map Char.toUpper
  List.replicate (4 - digits.length) '0' ++ digits

/-- The characters of a string in which escapes are used. Of more than `free` quotation marks in a
row, each next one is escaped; line ends stay if `lines` is set. -/
def escaped (free : Nat) (lines : Bool) (run : Nat) : List Char → List Char
  | [] => []
  | c :: cs =>
    if c = '"' then
      if run < free then '"' :: escaped free lines (run + 1) cs
      else '\\' :: '"' :: escaped free lines 0 cs
    else
      (match c with
        | '\x08' => ['\\', 'b']
        | '\t' => ['\\', 't']
        | '\n' => if lines then ['\n'] else ['\\', 'n']
        | '\x0c' => ['\\', 'f']
        | '\r' => ['\\', 'r']
        | '\\' => ['\\', '\\']
        | c => if needsEscape c then '\\' :: 'u' :: hexFour c.toNat else [c]) ++
        escaped free lines 0 cs

/-- A string on one line, with escapes. -/
def basicText (cs : List Char) : List Char :=
  '"' :: escaped 0 false 0 cs ++ ['"']

/-- A string between three marks. If it has line ends, one more precedes it. -/
def multilineText (mark : Char) (hasLines : Bool) (body : List Char) : List Char :=
  [mark, mark, mark] ++ (if hasLines then ['\n'] else []) ++ body ++ [mark, mark, mark]

/-- The text of a string: the first form that holds it without escapes, of the plain one, the
literal one, and the two of several lines; with escapes if there is none. -/
def stringText (cs : List Char) : List Char :=
  let controls := cs.any needsEscape
  let backslash := cs.contains '\\'
  let hasLines := cs.contains '\n'
  let single := longestRun '\'' 0 0 cs
  let double := longestRun '"' 0 0 cs
  if !controls && !backslash && double == 0 && !hasLines then basicText cs
  else if !controls && single == 0 && !hasLines then '\'' :: cs ++ ['\'']
  else if !controls && !backslash && double ≤ 2 then
    multilineText '"' hasLines (escaped 2 true 0 cs)
  else if !controls && single ≤ 2 then multilineText '\'' hasLines cs
  else if hasLines then multilineText '"' true (escaped 2 true 0 cs)
  else basicText cs

/-- Whether the character may stand in a key without quotation marks. -/
def isBareKeyChar (c : Char) : Bool := c.isAlphanum || c = '-' || c = '_'

/-- The text of a key. -/
def keyText (cs : List Char) : List Char :=
  let controls := cs.any fun c => needsEscape c || c = '\n'
  if cs ≠ [] ∧ cs.all isBareKeyChar then cs
  else if !controls && !cs.contains '\\' && !cs.contains '"' then basicText cs
  else if !controls && !cs.contains '\'' then '\'' :: cs ++ ['\'']
  else basicText cs

/-! ### The text of values -/

/-- Pieces with a comma and a space between them. -/
def joinPieces (pieces : List (List Char)) : List Char :=
  (pieces.intersperse [',', ' ']).flatten

mutual

/-- The text of a value on one line. -/
def text : Toml → List Char
  | .string s => stringText s.toList
  | .integer n => (toString n.toInt).toList
  | .float x => (FloatText.document.write x).toList
  | .boolean b => if b then "true".toList else "false".toList
  | .datetime d => d.text
  | .array items => '[' :: joinPieces (itemTexts items) ++ [']']
  | .table [] => ['\x7b', '\x7d']
  | .table entries => '\x7b' :: ' ' :: joinPieces (entryTexts entries) ++ [' ', '\x7d']

/-- The texts of items. -/
def itemTexts : List Toml → List (List Char)
  | [] => []
  | item :: rest => text item :: itemTexts rest

/-- The texts of entries. -/
def entryTexts : List (String × Toml) → List (List Char)
  | [] => []
  | (key, value) :: rest =>
    (keyText key.toList ++ " = ".toList ++ text value) :: entryTexts rest

end

end Toml

/-! ### From realized values -/

mutual

/-- The form of a realized value that is handed to a target type; absent values have none. Byte
counts that are too large are cut down to the largest integer. -/
def Value.toToml? : Value → Option Toml
  | .bool b => some (.boolean b)
  | .int n => some (.integer n.toInt64)
  | .long n => some (.integer n)
  | .float x => some (.float x.convert)
  | .double x => some (.float x)
  | .string s => some (.string s)
  | .path s => some (.string s)
  | .memorySize n => some (.integer (Int64.ofInt (min n.toNat Int64.maxValue.toInt)))
  | .list items => some (.array (itemsToToml items))
  | .optional none => none
  | .optional (some v) => v.toToml?
  | .unset => none
  | .group g => some (.table (g.toTable))
  | .map entries => some (.table (Entries.sorted (entriesToToml entries)))

/-- The attributes of a group in ascending order, absent values left out. -/
def Group.toTable : Group → Entries Toml
  | ⟨_, fields⟩ => Entries.sorted (entriesToToml fields)

/-- The forms of items, absent values left out. -/
def itemsToToml : List Value → List Toml
  | [] => []
  | v :: vs => v.toToml?.toList ++ itemsToToml vs

/-- The forms of values under keys, absent values left out. -/
def entriesToToml : List (String × Value) → List (String × Toml)
  | [] => []
  | (key, v) :: rest => (v.toToml?.map (key, ·)).toList ++ entriesToToml rest

end

end PropertyBinding

/-!
# JSON

The syntax tree of a JSON text, and its compact form. Numbers keep the digits with which they are
written, so that each reader decides what they stand for. A string whose escapes leave half of a
pair of surrogates alone has no text.
-/

namespace PropertyBinding

/-- A number as it is written. -/
structure JsonNumber where
  negative : Bool
  /-- The digits in front of the point. -/
  whole : List Char
  /-- The digits behind the point. -/
  fraction : List Char
  exponent : Option Int
  deriving DecidableEq, Repr

/-- A JSON syntax tree. -/
inductive Json where
  | null
  | bool (b : Bool)
  | number (n : JsonNumber)
  | string (text : Option String)
  | array (items : List Json)
  | object (members : List (Option String × Json))

namespace Json

instance : Inhabited Json := ⟨.null⟩

/-- The string with this text. -/
def str (s : String) : Json := .string (some s)

/-- The number for an integer. -/
def int (n : Int) : Json := .number ⟨n < 0, Nat.toDigits 10 n.natAbs, [], none⟩

/-- The number for a natural number. -/
def nat (n : Nat) : Json := .int n

/-- The object with these members. -/
def obj (members : List (String × Json)) : Json :=
  .object (members.map fun (key, value) => (some key, value))

/-- The value of the last member with this key. -/
def member? (j : Json) (key : String) : Option Json :=
  match j with
  | .object members => members.reverse.lookup (some key)
  | _ => none

/-! ### Writing -/

/-- Four digits in base sixteen. -/
def hexFour (n : Nat) : List Char :=
  let digits := Nat.toDigits 16 n
  List.replicate (4 - digits.length) '0' ++ digits

/-- A character as it stands between quotation marks. -/
def writeChar (c : Char) : List Char :=
  match c with
  | '"' => ['\\', '"']
  | '\\' => ['\\', '\\']
  | '\x08' => ['\\', 'b']
  | '\x0c' => ['\\', 'f']
  | '\n' => ['\\', 'n']
  | '\r' => ['\\', 'r']
  | '\t' => ['\\', 't']
  | c => if c.toNat < 0x20 then '\\' :: 'u' :: hexFour c.toNat else [c]

/-- A string between quotation marks. One without a text is written as if it were empty. -/
def writeString (text : Option String) : List Char :=
  '"' :: (text.getD "").toList.flatMap writeChar ++ ['"']

/-- A number. -/
def writeNumber (n : JsonNumber) : List Char :=
  (if n.negative then ['-'] else []) ++ n.whole ++
    (if n.fraction = [] then [] else '.' :: n.fraction) ++
    match n.exponent with
    | none => []
    | some e => 'e' :: (if e < 0 then '-' else '+') :: Nat.toDigits 10 e.natAbs

mutual

/-- The compact form of a tree: no blanks. -/
def write : Json → List Char
  | .null => "null".toList
  | .bool true => "true".toList
  | .bool false => "false".toList
  | .number n => writeNumber n
  | .string text => writeString text
  | .array items => '[' :: (writeItems items ++ [']'])
  | .object members => '\x7b' :: (writeMembers members ++ ['\x7d'])

/-- The items of an array, separated by commas. -/
def writeItems : List Json → List Char
  | [] => []
  | [item] => write item
  | item :: next :: rest => write item ++ ',' :: writeItems (next :: rest)

/-- The members of an object, separated by commas. -/
def writeMembers : List (Option String × Json) → List Char
  | [] => []
  | [(key, value)] => writeString key ++ ':' :: write value
  | (key, value) :: next :: rest =>
    writeString key ++ ':' :: (write value ++ ',' :: writeMembers (next :: rest))

end

/-- The compact text of a tree. -/
def compress (j : Json) : String := String.ofList (write j)

end Json

end PropertyBinding

import PropertyBinding.Numeric.ByteCount
import PropertyBinding.Text.Characters
import PropertyBinding.Value
import PropertyBinding.ValueType

/-!
# Reading raw values

Every raw value is a text; the kind of the leaf decides how it is read. Primitives are read
strictly. The empty text is no value for an object that is not a string, and an absent one for an
optional. Lists are cut at the commas that no backslash precedes.
-/

namespace PropertyBinding

/-- Why a text cannot be read. -/
inductive ConversionError where
  | boolean (raw : String)
  | number (type : ValueType) (raw : String)
  | memorySize (raw : String)
  | memorySizeRange (raw : String)
  | enum (raw : String) (names : List String)
  deriving DecidableEq, Repr

/-- The reason in words. -/
def ConversionError.message : ConversionError → String
  | .boolean raw =>
    "invalid boolean: '" ++ raw ++ "' (expected true/false, yes/no, on/off, 1/0)"
  | .number type raw => "invalid " ++ type.name ++ ": '" ++ raw ++ "'"
  | .memorySize raw => "invalid memory size: '" ++ raw ++ "'"
  | .memorySizeRange raw => "memory size out of range: '" ++ raw ++ "'"
  | .enum raw names => "'" ++ raw ++ "' is not one of: " ++ String.intercalate ", " names

namespace Convert

/-- The words for true. -/
def trueWords : List String := ["true", "1", "yes", "y", "on"]

/-- The words for false. -/
def falseWords : List String := ["false", "0", "no", "n", "off"]

/-- The truth value of a text. -/
def boolean (raw : String) : Except ConversionError Bool :=
  let word := String.ofList (Text.lower (Text.trim raw.toList))
  if word ∈ trueWords then .ok true
  else if word ∈ falseWords then .ok false
  else .error (.boolean raw)

/-- The number of a text without its surrounding blanks, as `read` reads it. -/
def number {α : Type} (type : ValueType) (read : List Char → Option α) (raw : String) :
    Except ConversionError α :=
  match read (Text.trim raw.toList) with
  | some n => .ok n
  | none => .error (.number type raw)

/-- The byte count of a text. -/
def memorySize (raw : String) : Except ConversionError UInt64 :=
  match ByteCount.read (Text.trim raw.toList) with
  | .ok n => .ok n
  | .error .malformed => .error (.memorySize raw)
  | .error .outOfRange => .error (.memorySizeRange raw)

/-- The form in which names of an enumeration are compared. -/
def normalizeName (cs : List Char) : List Char :=
  cs.map fun c => if c = '_' then '-' else c.toLower

/-- The declared spelling of the name that a text stands for. -/
def enum (raw : String) (names : List String) : Except ConversionError String :=
  let wanted := normalizeName (Text.trim raw.toList)
  match names.find? fun name => normalizeName name.toList == wanted with
  | some name => .ok name
  | none => .error (.enum raw names)

/-- The items of a text in front of which `current` has been read, before the empty ones are
dropped. -/
def itemsFrom (current : List Char) : List Char → List (List Char)
  | [] => [current]
  | '\\' :: ',' :: cs => itemsFrom (current ++ [',']) cs
  | c :: cs => if c = ',' then current :: itemsFrom [] cs else itemsFrom (current ++ [c]) cs

/-- A character that is neither a comma nor in front of one behind a backslash is one of the item
that is being read. -/
theorem itemsFrom_cons {current cs : List Char} {c : Char} (hc : c ≠ ',')
    (h : c = '\\' → cs.head? ≠ some ',') :
    itemsFrom current (c :: cs) = itemsFrom (current ++ [c]) cs := by
  rw [itemsFrom, if_neg hc]
  rintro rest rfl rfl
  exact h rfl rfl

theorem itemsFrom_comma {current cs : List Char} :
    itemsFrom current (',' :: cs) = current :: itemsFrom [] cs := by
  rw [itemsFrom, if_pos rfl]
  simp

/-- The items of a list text. A comma behind a backslash belongs to its item; empty items are
dropped. -/
def splitList (raw : String) : List String :=
  ((itemsFrom [] raw.toList).filter (· ≠ [])).map String.ofList

/-- Read a text as a value of the type. -/
def scalar (type : ValueType) (raw : String) : Except ConversionError Value :=
  match type with
  | .string => .ok (.string raw)
  | .boolean => (boolean raw).map .bool
  | .integer => (number .integer Numeric.int32? raw).map .int
  | .long => (number .long Numeric.int64? raw).map .long
  | .float => (number .float Numeric.floating? raw).map .float
  | .double => (number .double Numeric.floating? raw).map .double
  | .path => .ok (.path raw)
  | .memorySize => (memorySize raw).map .memorySize
  | .enum names => (enum raw names).map .string

/-- Read a text by the rule of a leaf. -/
def value (kind : LeafKind) (raw : String) : Except ConversionError Value :=
  match kind with
  | .boolean => scalar .boolean raw
  | .int => scalar .integer raw
  | .long => scalar .long raw
  | .float => scalar .float raw
  | .double => scalar .double raw
  | .object type =>
    if type = .string then .ok (.string raw)
    else if raw = "" then .ok .unset
    else scalar type raw
  | .objectList element => ((splitList raw).mapM (scalar element)).map .list
  | .optionalObject element =>
    if raw = "" then .ok (.optional none)
    else (scalar element raw).map fun v => .optional (some v)

end Convert

end PropertyBinding

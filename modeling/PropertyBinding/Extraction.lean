import PropertyBinding.Realized
import PropertyBinding.Text.Characters
import PropertyBinding.Toml

/-!
# Extraction

A root is handed to a target type in the form of a table. Strings are read as whatever scalar the
target wants, and scalars that are wanted as strings are written out; everything else must have the
type that the target names. Absent values are not in the table, so an optional field of a structure
gets none.
-/

namespace PropertyBinding

/-- The types of integers that a target may want. -/
inductive IntegerType where
  | int8
  | int16
  | int32
  | int64
  | int128
  | uint8
  | uint16
  | uint32
  | uint64
  | uint128
  deriving DecidableEq, Repr

namespace IntegerType

/-- The name of the type in messages. -/
def name : IntegerType → String
  | .int8 => "i8"
  | .int16 => "i16"
  | .int32 => "i32"
  | .int64 => "i64"
  | .int128 => "i128"
  | .uint8 => "u8"
  | .uint16 => "u16"
  | .uint32 => "u32"
  | .uint64 => "u64"
  | .uint128 => "u128"

/-- Whether the type has negative numbers. -/
def isSigned : IntegerType → Bool
  | .int8 | .int16 | .int32 | .int64 | .int128 => true
  | _ => false

/-- The number of bits. -/
def width : IntegerType → Nat
  | .int8 | .uint8 => 8
  | .int16 | .uint16 => 16
  | .int32 | .uint32 => 32
  | .int64 | .uint64 => 64
  | .int128 | .uint128 => 128

/-- The least positive number that the type has not. -/
def bound (t : IntegerType) : Nat := 1 <<< (if t.isSigned then t.width - 1 else t.width)

/-- Whether the type has the number. -/
def contains (t : IntegerType) (n : Int) : Bool :=
  (if t.isSigned then -(t.bound : Int) else 0) ≤ n && n < t.bound

/-- The integer that a string stands for, read with 64 bits. The widest types take no strings. -/
def ofText? (t : IntegerType) (cs : List Char) : Option Int :=
  if t.width = 128 then none
  else if t.isSigned then (Numeric.int64? cs).map Int64.toInt
  else (Numeric.uint64? cs).map fun n => (n.toNat : Int)

end IntegerType

/-- A target type. -/
inductive Target where
  | bool
  | integer (type : IntegerType)
  | single
  | double
  | char
  | string
  | unit
  /-- A value that is passed over. -/
  | ignored
  /-- Any value, as it is. -/
  | any
  | option (inner : Target)
  | seq (item : Target)
  | tuple (items : List Target)
  | newtype (inner : Target)
  | map (value : Target)
  | enum (name : String) (variants : List String)
  /-- A structure, which is read by the names of its fields. A derived one may also be given as a
  sequence of its fields in the order of declaration (`positional`). -/
  | struct (name : String) (fields : List (String × Target)) (denyUnknown : Bool)
    (positional : Bool := false)

/-- A value of a target type. -/
inductive Extracted where
  | bool (b : Bool)
  | integer (n : Int)
  | single (x : Single)
  | double (x : Double)
  | text (s : String)
  | unit
  | ignored
  | any (v : Toml)
  | option (inner : Option Extracted)
  | items (values : List Extracted)
  | entries (values : List (String × Extracted))

/-- A document value in words. -/
def Toml.describe : Toml → String
  | .string s => "string " ++ Text.quoted s
  | .integer n => "integer `" ++ toString n.toInt ++ "`"
  | .float x => "floating point `" ++ FloatText.pointed.write x ++ "`"
  | .boolean b => "boolean `" ++ (if b then "true" else "false") ++ "`"
  | .datetime d => "string " ++ Text.quoted (String.ofList d.text)
  | .array _ => "sequence"
  | .table _ => "map"

namespace Target

/-- Whether a field of the type may be missing. -/
def isOption : Target → Bool
  | .option _ => true
  | _ => false

/-- A value of another type than the wanted one. -/
def mismatch {α : Type} (v : Toml) (wanted : String) : Except ExtractFault α :=
  .error (.invalidType v.describe wanted)

/-! ### Scalars -/

/-- A truth value; strings are read. -/
def readBool : Toml → Except ExtractFault Extracted
  | .boolean b => .ok (.bool b)
  | .string s =>
    match Convert.boolean s with
    | .ok b => .ok (.bool b)
    | .error reason => .error (.boolean reason)
  | v => mismatch v "a boolean"

/-- An integer of the type, which must be in range. -/
def ranged (type : IntegerType) (n : Int) : Except ExtractFault Extracted :=
  if type.contains n then .ok (.integer n)
  else .error (.invalidValue ("integer `" ++ toString n ++ "`") type.name)

/-- An integer; strings are read, unless the type is one of the widest. -/
def readInteger (type : IntegerType) : Toml → Except ExtractFault Extracted
  | .integer n => ranged type n.toInt
  | .string s =>
    if type.width = 128 then mismatch (.string s) type.name
    else match type.ofText? (Text.trim s.toList) with
      | some n => ranged type n
      | none => .error (.invalidValue (Toml.describe (.string s)) type.name)
  | v => mismatch v type.name

/-- A floating-point number of 64 bits; integers are converted and strings are read. -/
def readDouble (wanted : String) : Toml → Except ExtractFault Double
  | .integer n => .ok (.ofInt n.toInt)
  | .float x => .ok x
  | .string s =>
    match Numeric.floating? (Text.trim s.toList) with
    | some x => .ok x
    | none => .error (.invalidValue (Toml.describe (.string s)) wanted)
  | v => mismatch v wanted

/-- A floating-point number of 32 bits. Strings are read with 64 bits first. -/
def readSingle : Toml → Except ExtractFault Single
  | .integer n => .ok (.ofInt n.toInt)
  | v => (readDouble "f32" v).map Floating.convert

/-- A string of one character. -/
def readChar : Toml → Except ExtractFault Extracted
  | .string s =>
    match s.toList with
    | [c] => .ok (.text (String.ofList [c]))
    | _ => .error (.invalidValue (Toml.describe (.string s)) "a character")
  | v => mismatch v "a character"

/-- A string; other scalars are written out. -/
def readString : Toml → Except ExtractFault Extracted
  | .string s => .ok (.text s)
  | .integer n => .ok (.text (toString n.toInt))
  | .float x => .ok (.text (FloatText.plain.write x))
  | .boolean b => .ok (.text (if b then "true" else "false"))
  | .datetime d => .ok (.text (String.ofList d.text))
  | v => mismatch v "a string"

/-- The name of a variant. -/
def readVariant (name : String) (variants : List String) : Toml → Except ExtractFault Extracted
  | .string s =>
    if s ∈ variants then .ok (.text s) else .error (.unknownVariant s variants)
  | v => mismatch v ("enum " ++ name)

/-! ### Compound values -/

/-- How a field of a structure is read, and whether it may be missing. -/
structure FieldReader where
  name : String
  isOption : Bool
  read : Toml → Except ExtractFault Extracted

/-- Read the entries of a table that are fields of a structure, in the order of the table. -/
def readEntries (readers : List FieldReader) (denyUnknown : Bool) :
    Entries Toml → Except ExtractFault (Entries Extracted)
  | [] => .ok []
  | (key, v) :: rest =>
    match readers.find? (·.name = key) with
    | some reader => do
      let value ← reader.read v
      let values ← readEntries readers denyUnknown rest
      return (key, value) :: values
    | none =>
      if denyUnknown then .error (.unknownField key (readers.map (·.name)))
      else readEntries readers denyUnknown rest

/-- The fields of a structure in the order of declaration. A missing one must be optional. -/
def arrangeFields (values : Entries Extracted) :
    List FieldReader → Except ExtractFault (Entries Extracted)
  | [] => .ok []
  | reader :: rest =>
    match values.lookup reader.name with
    | some value => (arrangeFields values rest).map ((reader.name, value) :: ·)
    | none =>
      if reader.isOption then (arrangeFields values rest).map ((reader.name, .option none) :: ·)
      else .error (.missingField reader.name)

/-- Read the items of a sequence one after the other, each by the reader at its place. There must be
`size` items, of which `index` have been read. -/
def readPlaces (missing : Nat → Nat → ExtractFault) (size index : Nat) :
    List (Toml → Except ExtractFault Extracted) → List Toml →
      Except ExtractFault (List Extracted)
  | [], [] => .ok []
  | [], surplus => .error (.surplusItems (index + surplus.length) size)
  | _ :: _, [] => .error (missing index size)
  | reader :: readers, v :: vs => do
    let value ← reader v
    let values ← readPlaces missing size (index + 1) readers vs
    return value :: values

mutual

/-- Read a document value as a value of the target type. -/
def read : Target → Toml → Except ExtractFault Extracted
  | .bool, v => readBool v
  | .integer type, v => readInteger type v
  | .single, v => (readSingle v).map .single
  | .double, v => (readDouble "f64" v).map .double
  | .char, v => readChar v
  | .string, v => readString v
  | .unit, v => mismatch v "unit"
  | .ignored, _ => .ok .ignored
  | .any, v => .ok (.any v)
  | .option inner, v => (inner.read v).map fun x => .option (some x)
  | .seq item, v =>
    match v with
    | .array vs => (vs.mapM item.read).map .items
    | v => mismatch v "a sequence"
  | .tuple items, v =>
    match v with
    | .array vs => (readPlaces .missingItems items.length 0 (itemReaders items) vs).map .items
    | v => mismatch v ("a tuple of size " ++ toString items.length)
  | .newtype inner, v => inner.read v
  | .map value, v =>
    match v with
    | .table entries =>
      (entries.mapM fun entry : String × Toml => (value.read entry.2).map (entry.1, ·)).map .entries
    | v => mismatch v "a map"
  | .enum name variants, v => readVariant name variants v
  | .struct name fields denyUnknown positional, v =>
    match v with
    | .table entries => do
      let readers := fieldReaders fields
      let values ← readEntries readers denyUnknown entries
      (arrangeFields values readers).map .entries
    | .array vs =>
      if positional then do
        let readers := fieldReaders fields
        let values ← readPlaces (.missingElements name) fields.length 0 (readers.map (·.read)) vs
        return .entries ((readers.map (·.name)).zip values)
      else mismatch (.array vs) ("struct " ++ name)
    | v => mismatch v ("struct " ++ name)

/-- How the items of a tuple are read. -/
def itemReaders : List Target → List (Toml → Except ExtractFault Extracted)
  | [] => []
  | target :: rest => target.read :: itemReaders rest

/-- How the fields of a structure are read. -/
def fieldReaders : List (String × Target) → List FieldReader
  | [] => []
  | (name, target) :: rest => ⟨name, target.isOption, target.read⟩ :: fieldReaders rest

end

theorem read_integer (type : IntegerType) (v : Toml) :
    (Target.integer type).read v = readInteger type v := by
  rw [read]

end Target

/-- Extract the root of a type as a value of a target type. -/
def RealizedConfig.extract (c : RealizedConfig) (typeName : String) (target : Target) :
    Except BindError Extracted :=
  match c.instanceOf typeName with
  | .error e => .error e
  | .ok g =>
    match target.read (.table g.toTable) with
    | .ok value => .ok value
    | .error fault => .error (.extract typeName fault)

end PropertyBinding

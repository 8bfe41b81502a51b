/-!
# Types of values

The element types of attributes, the primitive attribute types, and the rule by which the raw
text of a leaf is read.
-/

namespace PropertyBinding

/-- The element type of object, list and optional attributes. -/
inductive ValueType where
  | string
  | boolean
  | integer
  | long
  | float
  | double
  | path
  /-- A count of bytes, written as a number and a unit. -/
  | memorySize
  /-- One of a fixed set of names. Reading ignores case and takes a hyphen and an underscore for
  the same; the declared spelling is kept. -/
  | enum (names : List String)
  deriving DecidableEq, Repr

namespace ValueType

/-- Whether the canonical default of the type is zero. -/
def isNumeric : ValueType → Bool
  | .integer | .long | .float | .double => true
  | _ => false

/-- The name of the type in messages. -/
def name : ValueType → String
  | .string => "string"
  | .boolean => "boolean"
  | .integer => "integer"
  | .long => "long"
  | .float => "float"
  | .double => "double"
  | .path => "path"
  | .memorySize => "memory size"
  | .enum _ => "enum"

/-- The default of an object attribute for which none is declared. -/
def canonicalDefault (type : ValueType) : String :=
  if type = .boolean then "false" else if type.isNumeric then "0" else ""

end ValueType

/-- Primitive attribute types. The last three cannot be bound; they exist so that a declaration
that uses them is refused with a precise error. -/
inductive Primitive where
  | boolean
  | int
  | long
  | float
  | double
  | byte
  | short
  | char
  deriving DecidableEq, Repr

/-- The name of a primitive type in messages. -/
def Primitive.name : Primitive → String
  | .boolean => "boolean"
  | .int => "int"
  | .long => "long"
  | .float => "float"
  | .double => "double"
  | .byte => "byte"
  | .short => "short"
  | .char => "char"

/-- The type of the values of a primitive type that can be bound. -/
def Primitive.valueType? : Primitive → Option ValueType
  | .boolean => some .boolean
  | .int => some .integer
  | .long => some .long
  | .float => some .float
  | .double => some .double
  | .byte | .short | .char => none

/-- The rule by which the raw text of a leaf is read. -/
inductive LeafKind where
  | boolean
  | int
  | long
  | float
  | double
  | object (type : ValueType)
  | objectList (element : ValueType)
  | optionalObject (element : ValueType)
  deriving DecidableEq, Repr

/-- The rule for an attribute of a primitive type. -/
def Primitive.leafKind? : Primitive → Option LeafKind
  | .boolean => some .boolean
  | .int => some .int
  | .long => some .long
  | .float => some .float
  | .double => some .double
  | .byte | .short | .char => none

end PropertyBinding

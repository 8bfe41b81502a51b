import PropertyBinding.Entries
import PropertyBinding.Numeric.Floating
import PropertyBinding.Text.Split

/-!
# Realized values

Roots and nested groups are realized as groups, maps as entries in ascending key order, leaves as
scalar, list or optional values. A group is the only value that takes attributes.

Two groups are equal for the program if they have one type and the same attributes, in whatever
order. Numbers are compared as numbers, so that the two zeros are equal and what is no number
differs from itself; paths are compared by their parts.
-/

namespace PropertyBinding

mutual

/-- A realized value. -/
inductive Value where
  | bool (b : Bool)
  | int (n : Int32)
  | long (n : Int64)
  | float (x : Single)
  | double (x : Double)
  | string (s : String)
  | path (s : String)
  | memorySize (n : UInt64)
  | list (items : List Value)
  | optional (inner : Option Value)
  /-- An object leaf without a value: its type is not `string` and its text is empty. -/
  | unset
  | group (g : Group)
  /-- The entries of a map, in ascending key order. -/
  | map (entries : List (String × Value))

/-- A realized group: its declared type, and its attributes in the order in which they were first
put. -/
structure Group where
  typeName : String
  fields : List (String × Value)

end

namespace Group

/-- A group of the type without attributes. -/
def empty (typeName : String) : Group := ⟨typeName, []⟩

/-- The value of an attribute. -/
def get? (g : Group) (ident : String) : Option Value := g.fields.lookup ident

/-- Put a value into an attribute, replacing what was there. -/
def accept (g : Group) (ident : String) (value : Value) : Group :=
  { g with fields := Entries.put ident value g.fields }

end Group

namespace Value

instance : Inhabited Value := ⟨.unset⟩

/-- The truth value of a boolean. -/
def asBool? : Value → Option Bool
  | .bool b => some b
  | _ => none

/-- The number of an integer of either width. -/
def asInt? : Value → Option Int
  | .int n => some n.toInt
  | .long n => some n.toInt
  | _ => none

/-- The number of a floating-point value of either format. -/
def asDouble? : Value → Option Double
  | .float x => some x.convert
  | .double x => some x
  | _ => none

/-- The text of a string. -/
def asString? : Value → Option String
  | .string s => some s
  | _ => none

/-- The text of a path. -/
def asPath? : Value → Option String
  | .path s => some s
  | _ => none

/-- The bytes of a byte count. -/
def asMemorySize? : Value → Option UInt64
  | .memorySize n => some n
  | _ => none

/-- The items of a list. -/
def asList? : Value → Option (List Value)
  | .list items => some items
  | _ => none

/-- The value within an optional that has one. -/
def asPresent? : Value → Option Value
  | .optional inner => inner
  | _ => none

/-- The group of a group value. -/
def asGroup? : Value → Option Group
  | .group g => some g
  | _ => none

/-- The entries of a map. -/
def asMap? : Value → Option (Entries Value)
  | .map entries => some entries
  | _ => none

/-- Whether the value is an object leaf without a value or an optional without one. -/
def isAbsent : Value → Bool
  | .unset | .optional none => true
  | _ => false

end Value

/-! ### Equality of values -/

mutual

/-- Equality of values for the program. -/
def Value.equals : Value → Value → Bool
  | .bool a, .bool b => a == b
  | .int a, .int b => a == b
  | .long a, .long b => a == b
  | .float a, .float b => a.numericEq b
  | .double a, .double b => a.numericEq b
  | .string a, .string b => a == b
  | .path a, .path b => Text.samePath a b
  | .memorySize a, .memorySize b => a == b
  | .list as, .list bs => equalItems as bs
  | .optional none, .optional none => true
  | .optional (some a), .optional (some b) => a.equals b
  | .unset, .unset => true
  | .group a, .group b => a.equals b
  | .map as, .map bs => equalEntries as bs
  | _, _ => false

/-- Equality of groups for the program: one type and the same attributes, in whatever order. -/
def Group.equals : Group → Group → Bool
  | ⟨s, as⟩, ⟨t, bs⟩ => s == t && as.length == bs.length && fieldsWithin as bs

/-- Equality of lists, item by item. -/
def equalItems : List Value → List Value → Bool
  | [], [] => true
  | a :: as, b :: bs => a.equals b && equalItems as bs
  | _, _ => false

/-- Equality of maps, entry by entry. -/
def equalEntries : List (String × Value) → List (String × Value) → Bool
  | [], [] => true
  | (k, a) :: as, (l, b) :: bs => k == l && a.equals b && equalEntries as bs
  | _, _ => false

/-- Whether every attribute has an equal one among others. -/
def fieldsWithin : List (String × Value) → List (String × Value) → Bool
  | [], _ => true
  | (k, a) :: as, bs =>
    (match bs.lookup k with
      | some b => a.equals b
      | none => false) && fieldsWithin as bs

end

end PropertyBinding

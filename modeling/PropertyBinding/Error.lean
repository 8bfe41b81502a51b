import PropertyBinding.Convert

/-!
# Errors

Every failure that the library reports. Schema errors come out of registration; they abort it
before anything is realized. The wording of each error is in one place, `BindError.message`.
-/

namespace PropertyBinding

/-- Why a default cannot be bound. -/
inductive DefaultFault where
  /-- The default does not read as a value of its leaf. -/
  | conversion (reason : ConversionError)
  /-- A list default holds a list or a map. -/
  | nestedList
  /-- The default is a map. -/
  | map
  deriving DecidableEq, Repr

/-- The fault in words. -/
def DefaultFault.message : DefaultFault → String
  | .conversion reason => reason.message
  | .nestedList => "list defaults must hold scalars"
  | .map => "map defaults cannot be bound to a single property"

/-- Why a construction plan does not fit a schema. -/
inductive PlanFault where
  | rootClosed
  | noGroup (typeName field : String)
  | setTwice (field : String)
  | noAttribute (field typeName : String)
  | exitWithoutEnter
  | enterWithoutExit
  | neverSet (field typeName : String)
  deriving DecidableEq, Repr

/-- The fault in words. -/
def PlanFault.message : PlanFault → String
  | .rootClosed => "operation after the root was closed"
  | .noGroup typeName field => "no group " ++ typeName ++ " at '" ++ field ++ "'"
  | .setTwice field => "'" ++ field ++ "' is set twice"
  | .noAttribute field typeName => "no attribute '" ++ field ++ "' in " ++ typeName
  | .exitWithoutEnter => "exit without a matching enter"
  | .enterWithoutExit => "enter without a matching exit"
  | .neverSet field typeName => "'" ++ field ++ "' of " ++ typeName ++ " is never set"

/-- Why a value does not fit a target type. What has been found and what is wanted are described in
words. -/
inductive ExtractFault where
  | invalidType (found wanted : String)
  | invalidValue (found wanted : String)
  /-- More items than a tuple or a structure of `wanted` items takes. -/
  | surplusItems (count wanted : Nat)
  /-- Fewer items than a tuple of `wanted` items takes. -/
  | missingItems (count wanted : Nat)
  /-- Fewer items than a structure of `wanted` fields takes. -/
  | missingElements (name : String) (count wanted : Nat)
  | missingField (field : String)
  | unknownField (field : String) (names : List String)
  | unknownVariant (variant : String) (names : List String)
  | boolean (reason : ConversionError)
  deriving DecidableEq, Repr

namespace ExtractFault

/-- A name between accents. -/
def accented (name : String) : String := "`" ++ name ++ "`"

/-- The names that would have been accepted, and what to say if there are none. -/
def choices (none : String) : List String → String
  | [] => "there are no " ++ none
  | [a] => "expected " ++ accented a
  | [a, b] => "expected " ++ accented a ++ " or " ++ accented b
  | names => "expected one of " ++ String.intercalate ", " (names.map accented)

/-- The fault in words. -/
def message : ExtractFault → String
  | invalidType found wanted => "invalid type: " ++ found ++ ", expected " ++ wanted
  | invalidValue found wanted => "invalid value: " ++ found ++ ", expected " ++ wanted
  | surplusItems count wanted =>
    "invalid length " ++ toString count ++ ", expected " ++ toString wanted ++
      (if wanted = 1 then " element in sequence" else " elements in sequence")
  | missingItems count wanted =>
    "invalid length " ++ toString count ++ ", expected a tuple of size " ++ toString wanted
  | missingElements name count wanted =>
    "invalid length " ++ toString count ++ ", expected struct " ++ name ++ " with " ++
      toString wanted ++ (if wanted = 1 then " element" else " elements")
  | missingField field => "missing field " ++ accented field
  | unknownField field names =>
    "unknown field " ++ accented field ++ ", " ++ choices "fields" names
  | unknownVariant variant names =>
    "unknown variant " ++ accented variant ++ ", " ++ choices "variants" names
  | boolean reason => reason.message

end ExtractFault

/-- A failure of the library. -/
inductive BindError where
  | duplicateRoot (name typeName : String)
  | duplicatePattern (pattern : String)
  | groupAsRoot (typeName : String)
  | rootInheritsParent (typeName : String)
  | unsupportedPrimitive (field : String) (primitive : Primitive)
  | mapKeyNotString (field : String)
  | notParameterized (field shape : String)
  | optionalMapValue (field : String)
  | groupDefault (field : String)
  | invalidDefault (key : String) (fault : DefaultFault)
  | overridableOutsideRuntime (field : String)
  | conversion (key value : String) (reason : ConversionError)
  | sourceParse
  | invalidDefinition (definition : String)
  | unknownRoot (typeName : String)
  | stalePlan
  | planFormat
  | malformedPlan (root : String) (fault : PlanFault)
  | extract (typeName : String) (fault : ExtractFault)
  /-- A map entry is to be made from a template that the definition does not have. This ends the
  program; it is no failure that a caller can handle. -/
  | missingTemplate (index : Nat)
  deriving DecidableEq, Repr

namespace BindError

/-- The error in words. -/
def message : BindError → String
  | duplicateRoot name typeName =>
    "Duplicate configuration root name \"" ++ name ++ "\" (declared by " ++ typeName ++ ")"
  | duplicatePattern pattern => "Duplicate configuration pattern \"" ++ pattern ++ "\""
  | groupAsRoot typeName => "Roots cannot be declared as groups: " ++ typeName
  | rootInheritsParent typeName =>
    "Root cannot inherit parent name because it has no parent: " ++ typeName
  | unsupportedPrimitive field primitive =>
    "Unsupported primitive field type '" ++ primitive.name ++ "' at " ++ field
  | mapKeyNotString field => "Map key must be a string at " ++ field
  | notParameterized field shape => shape ++ " must be parameterized at " ++ field
  | optionalMapValue field => "Optionals are not allowed as a map value type at " ++ field
  | groupDefault field => "Unsupported default value on group field " ++ field
  | invalidDefault key fault => "Invalid default value for '" ++ key ++ "': " ++ fault.message
  | overridableOutsideRuntime field =>
    "Field " ++ field ++ " is runtime-overridable but its root is not read at runtime"
  | conversion key value reason =>
    "Invalid value '" ++ value ++ "' for '" ++ key ++ "': " ++ reason.message
  | sourceParse => "Failed to parse property source"
  | invalidDefinition definition =>
    "Invalid property definition '" ++ definition ++ "' (expected name=value)"
  | unknownRoot typeName => "Unknown root type: " ++ typeName
  | stalePlan => "Construction plan was compiled from a different schema; recompile it"
  | planFormat => "Malformed construction plan"
  | malformedPlan root fault =>
    "Construction plan for " ++ root ++ " does not fit its schema: " ++ fault.message
  | extract typeName fault => "Cannot extract root " ++ typeName ++ ": " ++ fault.message
  | missingTemplate index => "No template of map entries with index " ++ toString index

/-- Whether the error comes out of registration. -/
def isSchemaError : BindError → Bool
  | duplicateRoot .. | duplicatePattern .. | groupAsRoot .. | rootInheritsParent ..
  | unsupportedPrimitive .. | mapKeyNotString .. | notParameterized .. | optionalMapValue ..
  | groupDefault .. | invalidDefault .. | overridableOutsideRuntime .. => true
  | _ => false

end BindError

end PropertyBinding

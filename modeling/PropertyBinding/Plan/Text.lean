import PropertyBinding.Json.Number
import PropertyBinding.Json.Reader
import PropertyBinding.Plan

/-!
# The text of a plan

A plan is stored as JSON. A structure is an object with its fields in order; when read it may also
be an array of them, and members with other keys are passed over. An alternative is an object with
one member, or its name alone if nothing belongs to it; such a name may also be read with a null.
Numbers that are not finite are written as null, which does not read back. Containers may be nested
up to a limit.
-/

namespace PropertyBinding

namespace Phase

/-- The name of a phase in plan text. -/
def planName : Phase → String
  | .buildTime => "BuildTime"
  | .buildAndRunTimeFixed => "BuildAndRunTimeFixed"
  | .runTime => "RunTime"

/-- The phase with this name. -/
def ofPlanName? : String → Option Phase
  | "BuildTime" => some .buildTime
  | "BuildAndRunTimeFixed" => some .buildAndRunTimeFixed
  | "RunTime" => some .runTime
  | _ => none

end Phase

namespace PlanText

/-! ### Writing -/

/-- A floating-point number, or null if it is not finite. -/
def ofFloating (layout : JsonNumber.Layout) {f : FloatFormat} (x : Floating f) : Json :=
  if x.isFinite then .number (.ofFloating layout x) else .null

mutual

/-- A value as an alternative. -/
def ofValue : Value → Json
  | .bool b => .obj [("Bool", .bool b)]
  | .int n => .obj [("Int", .int n.toInt)]
  | .long n => .obj [("Long", .int n.toInt)]
  | .float x => .obj [("Float", ofFloating .single x)]
  | .double x => .obj [("Double", ofFloating .double x)]
  | .string s => .obj [("String", .str s)]
  | .path s => .obj [("Path", .str s)]
  | .memorySize n => .obj [("MemorySize", .nat n.toNat)]
  | .list items => .obj [("List", .array (ofItems items))]
  | .optional none => .obj [("Optional", .null)]
  | .optional (some v) => .obj [("Optional", ofValue v)]
  | .unset => .str "Unset"
  | .group g => .obj [("Group", ofGroup g)]
  | .map entries => .obj [("Map", .object (ofEntries entries))]

/-- A group as a structure. -/
def ofGroup : Group → Json
  | ⟨typeName, fields⟩ =>
    .obj [("type_name", .str typeName), ("fields", .object (ofEntries fields))]

/-- Values as items. -/
def ofItems : List Value → List Json
  | [] => []
  | v :: vs => ofValue v :: ofItems vs

/-- Values under keys as members. -/
def ofEntries : List (String × Value) → List (Option String × Json)
  | [] => []
  | (key, v) :: rest => (some key, ofValue v) :: ofEntries rest

end

/-- An operation as an alternative. -/
def ofOp : PlanOp → Json
  | .enter field typeName =>
    .obj [("Enter", .obj [("field", .str field), ("type_name", .str typeName)])]
  | .set field value => .obj [("Set", .obj [("field", .str field), ("value", ofValue value)])]
  | .exit => .str "Exit"

/-- A compiled root as a structure. -/
def ofRoot (r : RootPlan) : Json :=
  .obj
    [("containing_name", .str r.containingName), ("type_name", .str r.typeName),
      ("phase", .str r.phase.planName), ("ops", .array (r.ops.map ofOp))]

/-- A plan as a structure. -/
def ofPlan (p : Plan) : Json :=
  .obj [("fingerprint", .nat p.fingerprint.toNat), ("roots", .array (p.roots.map ofRoot))]

/-! ### Reading -/

/-- How many containers may stand within each other. -/
def nestingLimit : Nat := 127

/-- The text of a string. -/
def text? : Json → Option String
  | .string text => text
  | _ => none

/-- The integer between two bounds that a number stands for. -/
def integer? (low high : Int) : Json → Option Int
  | .number n => n.toInt?.filter fun i => low ≤ i && i ≤ high
  | _ => none

/-- The number of 64 bits that a number stands for. -/
def double? : Json → Option Double
  | .number n => n.toDouble?
  | _ => none

/-- The number of 32 bits that a number stands for. -/
def single? : Json → Option Single
  | .number n => n.toSingle?
  | _ => none

/-- The keys of members, all of which must have a text. -/
def keyed? (members : List (Option String × Json)) : Option (Entries Json) :=
  members.mapM fun (key, value) => key.map (·, value)

/-- The one value under a key. -/
def single?Of (members : Entries Json) (key : String) : Option Json :=
  match members.filter (·.1 = key) with
  | [(_, value)] => some value
  | _ => none

/-- The fields of a structure: each key once among the members, in whatever order, or the items of
an array. -/
def fields? (keys : List String) : Json → Option (List Json)
  | .object members => do
    let members ← keyed? members
    keys.mapM (single?Of members)
  | .array items => if items.length = keys.length then some items else none
  | _ => none

/-- An alternative: its name, and what belongs to it. A name alone is read as if nothing belonged
to it. -/
def alternative? : Json → Option (String × Option Json)
  | .string (some name) => some (name, none)
  | .object [(some name, content)] => some (name, some content)
  | _ => none

/-- Whether nothing belongs to an alternative. -/
def isUnit : Option Json → Bool
  | none | some .null => true
  | some _ => false

/-- The phase of an alternative. -/
def phase? (j : Json) : Option Phase := do
  let (name, content) ← alternative? j
  if isUnit content then Phase.ofPlanName? name else none

mutual

/-- The value of an alternative, with `depth` more containers allowed. -/
def value? (depth : Nat) (j : Json) : Option Value :=
  match depth, j with
  | _, .string (some "Unset") => some .unset
  | depth + 1, .object [(some name, content)] =>
    match name, content with
    | "Bool", .bool b => some (.bool b)
    | "Int", content =>
      (integer? Int32.minValue.toInt Int32.maxValue.toInt content).map fun i => .int (.ofInt i)
    | "Long", content =>
      (integer? Int64.minValue.toInt Int64.maxValue.toInt content).map fun i => .long (.ofInt i)
    | "Float", content => (single? content).map .float
    | "Double", content => (double? content).map .double
    | "String", content => (text? content).map .string
    | "Path", content => (text? content).map .path
    | "MemorySize", content =>
      (integer? 0 (UInt64.size - 1) content).map fun i => .memorySize (.ofNat i.toNat)
    | "List", .array items => (list? depth items).map .list
    | "Optional", .null => some (.optional none)
    | "Optional", content => (value? depth content).map fun v => .optional (some v)
    | "Unset", .null => some .unset
    | "Group", content => (group? depth content).map .group
    | "Map", .object members =>
      (entries? depth members).map fun entries => .map (Entries.sorted entries)
    | _, _ => none
  | _, _ => none

/-- The items of a list, with `depth` more containers allowed, the list among them. -/
def list? (depth : Nat) (items : List Json) : Option (List Value) :=
  match depth with
  | 0 => none
  | depth + 1 => items.mapM (value? depth)

/-- The values under keys, with `depth` more containers allowed, the one that holds them among
them. -/
def entries? (depth : Nat) (members : List (Option String × Json)) : Option (Entries Value) :=
  match depth with
  | 0 => none
  | depth + 1 => members.mapM fun (key, content) => do
    let key ← key
    let value ← value? depth content
    return (key, value)

/-- The group of a structure, with `depth` more containers allowed, the structure among them. A key
that comes again replaces the value and keeps the position. -/
def group? (depth : Nat) (j : Json) : Option Group :=
  match depth with
  | 0 => none
  | depth + 1 =>
    match fields? ["type_name", "fields"] j with
    | some [typeName, .object members] => do
      let typeName ← text? typeName
      let fields ← entries? depth members
      return ⟨typeName, fields.foldl (fun acc (key, v) => Entries.put key v acc) []⟩
    | _ => none

end

/-- The operation of an alternative, with `depth` more containers allowed. -/
def op? (depth : Nat) (j : Json) : Option PlanOp := do
  let (name, content) ← alternative? j
  match name, content with
  | "Exit", content => if isUnit content then some .exit else none
  | "Enter", some content =>
    match ← fields? ["field", "type_name"] content with
    | [field, typeName] => return .enter (← text? field) (← text? typeName)
    | _ => none
  | "Set", some content =>
    match ← fields? ["field", "value"] content with
    | [field, value] => return .set (← text? field) (← value? (depth - 2) value)
    | _ => none
  | _, _ => none

/-- The compiled root of a structure, with `depth` more containers allowed. -/
def root? (depth : Nat) (j : Json) : Option RootPlan := do
  match ← fields? ["containing_name", "type_name", "phase", "ops"] j with
  | [containingName, typeName, phase, .array ops] =>
    return {
      containingName := ← text? containingName
      typeName := ← text? typeName
      phase := ← phase? phase
      ops := ← ops.mapM (op? (depth - 2)) }
  | _ => none

/-- The plan of a structure. -/
def plan? (j : Json) : Option Plan := do
  match ← fields? ["fingerprint", "roots"] j with
  | [fingerprint, .array roots] =>
    return {
      fingerprint := .ofNat (← integer? 0 (UInt64.size - 1) fingerprint).toNat
      roots := ← roots.mapM (root? (nestingLimit - 2)) }
  | _ => none

end PlanText

/-- The text of a plan. -/
def Plan.toText (p : Plan) : String := (PlanText.ofPlan p).compress

/-- The plan that a text stands for. -/
def Plan.ofText (text : String) : Except BindError Plan :=
  match (Json.parse? text).bind PlanText.plan? with
  | some plan => .ok plan
  | none => .error .planFormat

end PropertyBinding

import PropertyBinding.Realized
import PropertyBinding.Source

/-!
# Loading

A loader walks a source in order. Names outside its namespace are collected; every other name is
looked up in the definitions of its targets, and the first that has a leaf for it gets the value.
An empty raw value restores the default of the leaf. A value that cannot be read ends the pass;
what has been applied before stays applied.
-/

namespace PropertyBinding

/-! ### Writing into a realized graph -/

/-- Write below an attribute of a group, as `write` does with the value of the attribute. -/
def Group.writeBelow (g : Group) (ident : String)
    (write : Value → Except BindError (Value × Bool)) : Except BindError (Group × Bool) :=
  match g.get? ident with
  | none => .ok (g, false)
  | some slot => do
    let (slot, written) ← write slot
    return (g.accept ident slot, written)

/-- Write a value at the end of a path below a slot. Missing map entries on the way are made from
their templates, under the keys that `key` gives for the segments; a template that does not exist
ends the program. Otherwise the result is the slot afterwards, and whether the value has been
written: it has not if the graph does not follow the path. -/
def Value.write (template : Nat → Option Value) (key : Nat → Option String) (slot value : Value) :
    List PathStep → Except BindError (Value × Bool)
  | [] => .ok (value, true)
  | .field ident :: rest =>
    match slot with
    | .group g => do
      let (g, written) ← g.writeBelow ident fun slot => slot.write template key value rest
      return (.group g, written)
    | slot => .ok (slot, false)
  | .key segment entry :: rest =>
    match slot with
    | .map entries =>
      match key segment with
      | none => .ok (slot, false)
      | some k =>
        match (entries.lookup k).or (template entry) with
        | none => .error (.missingTemplate entry)
        | some child => do
          let (child, written) ← child.write template key value rest
          return (.map (Entries.insert k child entries), written)
    | slot => .ok (slot, false)

/-- At the end of a path, the value takes the place of the slot. -/
theorem Value.write_nil (template : Nat → Option Value) (key : Nat → Option String)
    (slot value : Value) : slot.write template key value [] = .ok (value, true) := by
  rw [Value.write]

/-- Write the value of a leaf into its realized root. Map keys are read from the name, whose cursor
stands behind the namespace. -/
def Leaf.place (d : Definition) (leaf : Leaf) (name : Cursor) (value : Value) (root : Group) :
    Except BindError (Group × Bool) :=
  match leaf.path with
  | .field ident :: rest =>
    root.writeBelow ident fun slot =>
      slot.write d.template? (fun segment => name.segment? (name.position + segment)) value rest
  | _ => .ok (root, false)

/-- The value of a raw text for a leaf. The empty text stands for the default. -/
def Leaf.valueOf (leaf : Leaf) (name raw : String) : Except BindError Value :=
  if raw = "" then .ok leaf.defaultValue
  else match Convert.value leaf.kind raw with
    | .ok value => .ok value
    | .error reason => .error (.conversion name raw reason)

/-! ### Loaders -/

/-- One definition with the realized graph that is loaded for it. -/
structure LoadTarget where
  definition : Definition
  config : RealizedConfig

/-- What a pass has not applied, and how much it has. -/
structure LoadReport where
  /-- The names outside the namespace, in ascending order. -/
  unmatched : List String := []
  /-- The names inside the namespace that no definition has a leaf for and that are not excepted,
  in source order. -/
  unrecognized : List String := []
  /-- How many properties have been written. -/
  applied : Nat := 0
  deriving DecidableEq, Repr

/-- A namespace and the full names that are never reported as unrecognized. -/
structure Loader where
  namespaceName : String
  /-- The excepted names, in ascending order. -/
  exceptions : List String := []
  deriving DecidableEq, Repr

/-- Insert a name into names in ascending order, unless it is there. -/
def insertName (name : String) (names : List String) : List String :=
  Entries.keys (Entries.insert name () (names.map (·, ())))

namespace Loader

/-- A loader without exceptions. -/
def ofNamespace (namespaceName : String) : Loader := { namespaceName }

/-- A loader that never reports a name as unrecognized. -/
def except (l : Loader) (name : String) : Loader :=
  { l with exceptions := insertName name l.exceptions }

/-- The names that tools read below the namespace without a schema. -/
def toolNames : List String :=
  ["live-reload.password", "live-reload.url", "debug.generated-classes-dir", "debug.reflection"]

/-- A loader that never reports the names that tools read. -/
def withToolNames (l : Loader) : Loader :=
  toolNames.foldl (fun l name => l.except (l.namespaceName ++ "." ++ name)) l

/-- The loader for the namespace `app` that never reports the names that tools read. -/
def standard : Loader := (ofNamespace "app").withToolNames

/-- What became of a name in the namespace. -/
inductive Outcome where
  /-- No definition has a leaf for it. -/
  | unknown
  /-- A definition has a leaf for it, but its value has not been written. -/
  | skipped
  | applied
  deriving DecidableEq, Repr

/-- Give a raw value to one target whose definition has the leaf. -/
def applyTo (target : LoadTarget) (leaf : Leaf) (name : Cursor) (raw : String) :
    Except BindError (LoadTarget × Outcome) :=
  match target.config.get? leaf.root with
  | none => .ok (target, .skipped)
  | some root =>
    match leaf.valueOf name.name raw with
    | .error e => .error e
    | .ok value => do
      let (root, written) ← leaf.place target.definition name value root
      let config := { target.config with roots := Entries.put leaf.root root target.config.roots }
      if written then return ({ target with config := config.record name.name raw }, .applied)
      else return ({ target with config }, .skipped)

/-- Give a raw value to the first target whose definition has a leaf for the name. -/
def applyFirst (name : Cursor) (raw : String) :
    List LoadTarget → Except BindError (List LoadTarget × Outcome)
  | [] => .ok ([], .unknown)
  | target :: rest =>
    match target.definition.matchLeaf name with
    | some (_, leaf) =>
      match applyTo target leaf name raw with
      | .ok (target, outcome) => .ok (target :: rest, outcome)
      | .error e => .error e
    | none =>
      match applyFirst name raw rest with
      | .ok (rest, outcome) => .ok (target :: rest, outcome)
      | .error e => .error e

/-- Load one name. -/
def loadName (l : Loader) (source : Source) (targets : List LoadTarget) (report : LoadReport)
    (name : String) : Except BindError (List LoadTarget × LoadReport) :=
  let cursor := Cursor.ofName name
  if cursor.peek? ≠ some l.namespaceName then
    .ok (targets, { report with unmatched := insertName name report.unmatched })
  else
    match applyFirst cursor.next.2 ((source.value? name).getD "") targets with
    | .error e => .error e
    | .ok (targets, .applied) => .ok (targets, { report with applied := report.applied + 1 })
    | .ok (targets, .skipped) => .ok (targets, report)
    | .ok (targets, .unknown) =>
      if name ∈ l.exceptions then .ok (targets, report)
      else .ok (targets, { report with unrecognized := report.unrecognized ++ [name] })

/-- Load names one after the other. The targets afterwards are given also if a value could not be
read. -/
def loadNames (l : Loader) (source : Source) (targets : List LoadTarget) (report : LoadReport) :
    List String → List LoadTarget × Except BindError LoadReport
  | [] => (targets, .ok report)
  | name :: rest =>
    match l.loadName source targets report name with
    | .error e => (targets, .error e)
    | .ok (targets, report) => l.loadNames source targets report rest

/-- Load every property of a source. -/
def load (l : Loader) (source : Source) (targets : List LoadTarget) :
    List LoadTarget × Except BindError LoadReport :=
  l.loadNames source targets {} source.names

end Loader

end PropertyBinding

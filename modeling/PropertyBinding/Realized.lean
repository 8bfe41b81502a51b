import PropertyBinding.Definition

/-!
# Realized configurations

The realized roots of one run, stored by containing name and looked up by type name, with the
properties that have been applied to them. Walking the descriptor trees of a definition realizes
its defaults.
-/

namespace PropertyBinding

/-- Realized roots. -/
structure RealizedConfig where
  /-- The root groups by containing name, in the order in which they were stored. -/
  roots : Entries Group := []
  /-- The containing name for each type name. -/
  byType : Entries String := []
  /-- The raw values of the applied properties, in ascending order of their full names. -/
  loaded : Entries String := []

namespace RealizedConfig

/-- The config without roots. -/
def empty : RealizedConfig := {}

/-- Store the realized group of a root. -/
def store (c : RealizedConfig) (root : Root) (g : Group) : RealizedConfig :=
  { c with
    roots := Entries.put root.containingName g c.roots
    byType := Entries.put root.typeName root.containingName c.byType }

/-- The root with this containing name. -/
def get? (c : RealizedConfig) (containingName : String) : Option Group :=
  c.roots.lookup containingName

/-- The root with this type name. -/
def instanceOf (c : RealizedConfig) (typeName : String) : Except BindError Group :=
  match (c.byType.lookup typeName).bind c.get? with
  | some g => .ok g
  | none => .error (.unknownRoot typeName)

/-- The description of the root that is realized for a type name. -/
def rootInfo? (c : RealizedConfig) (d : Definition) (typeName : String) : Option Root := do
  let containingName ← c.byType.lookup typeName
  let _ ← c.get? containingName
  d.root? containingName

/-- Note that a property has been applied. -/
def record (c : RealizedConfig) (name raw : String) : RealizedConfig :=
  { c with loaded := Entries.insert name raw c.loaded }

/-- Whether two lists of entries with distinct keys have equal values under the same keys. -/
def sameEntries {α : Type} (eq : α → α → Bool) (as bs : Entries α) : Bool :=
  as.length == bs.length && as.all fun (key, a) =>
    match bs.lookup key with
    | some b => eq a b
    | none => false

/-- Equality for the program: the same roots, whatever their order, and the same applied
properties. -/
def equals (a b : RealizedConfig) : Bool :=
  sameEntries Group.equals a.roots b.roots && sameEntries (· == ·) a.byType b.byType &&
    a.loaded == b.loaded

end RealizedConfig

/-- Realize the defaults of the roots of a stage by walking their trees. -/
def Definition.realize (d : Definition) (stage : Stage) : RealizedConfig :=
  (d.roots.filter fun root => stage.includes root.phase).foldl
    (fun c root => c.store root (d.defaultGroup root.tree)) .empty

end PropertyBinding

import PropertyBinding.Pattern
import PropertyBinding.Phase

/-!
# Definitions

Registration turns declarations into a definition: a descriptor tree for every root, the table of
leaves, the templates of map entries, and the index from patterns to leaves. A definition holds no
realized values of its own.
-/

namespace PropertyBinding

/-- One step from a root group down to the slot of a leaf. -/
inductive PathStep where
  /-- Into the attribute with this identifier. -/
  | field (ident : String)
  /-- Into the map entry whose key is the name segment with this index, counted after the
  namespace. A missing entry is made from the template with this index. -/
  | key (segment template : Nat)
  deriving DecidableEq, Repr

/-- A place in the schema that takes a value from a property. -/
structure Leaf where
  /-- The attribute's identifier; empty for a leaf that is a map value. -/
  ident : String
  /-- The dotted pattern of the names that reach the leaf, without the namespace. -/
  pattern : String
  kind : LeafKind
  /-- The text of the default. -/
  default : String
  /-- What the default reads as. -/
  defaultValue : Value
  doc : Option String
  overridable : Bool
  /-- The containing name of the root. -/
  root : String
  path : List PathStep

/-- Whether a map lies on the way to the leaf. -/
def Leaf.hasWildcard (leaf : Leaf) : Bool :=
  leaf.path.any fun
    | .key .. => true
    | .field _ => false

mutual

/-- A node of a descriptor tree. -/
inductive Node where
  | group (g : GroupNode)
  | map (value : Node)
  /-- The leaf with this index. -/
  | leaf (id : Nat)

/-- A group of a descriptor tree: its attributes in the order of declaration. -/
structure GroupNode where
  typeName : String
  fields : List (String × Node)

end

/-- A registered root. -/
structure Root where
  typeName : String
  containingName : String
  rootName : String
  phase : Phase
  tree : GroupNode

/-- A configuration definition. -/
structure Definition where
  /-- The roots in the order of registration. -/
  roots : List Root := []
  leaves : List Leaf := []
  /-- The values from which missing map entries are made. -/
  templates : List Value := []
  /-- The leaf that each pattern reaches. -/
  index : PatternMap Nat := .empty

namespace Definition

/-- The definition without roots. -/
def empty : Definition := {}

/-- The root with this containing name. -/
def root? (d : Definition) (containingName : String) : Option Root :=
  d.roots.find? (·.containingName = containingName)

/-- The root with this type name. -/
def rootByType? (d : Definition) (typeName : String) : Option Root :=
  d.roots.find? (·.typeName = typeName)

/-- The leaf with this index. -/
def leaf? (d : Definition) (id : Nat) : Option Leaf := d.leaves[id]?

/-- The template of map entries with this index. -/
def template? (d : Definition) (id : Nat) : Option Value := d.templates[id]?

/-- The leaf that the segments after a cursor reach, with its index. -/
def matchLeaf (d : Definition) (name : Cursor) : Option (Nat × Leaf) := do
  let id ← d.index.matchName name
  let leaf ← d.leaf? id
  return (id, leaf)

/-! ### Default values -/

mutual

/-- The default of a node over a table of leaves. Maps start empty. -/
def defaultOver (leaves : List Leaf) : Node → Value
  | .group g => .group (defaultGroupOver leaves g)
  | .map _ => .map []
  | .leaf id => (leaves[id]?.map (·.defaultValue)).getD .unset

/-- The default of a group over a table of leaves. -/
def defaultGroupOver (leaves : List Leaf) : GroupNode → Group
  | ⟨typeName, fields⟩ => acceptDefaults leaves (.empty typeName) fields

/-- A group that has accepted the defaults of fields, one after the other. -/
def acceptDefaults (leaves : List Leaf) (g : Group) : List (String × Node) → Group
  | [] => g
  | (ident, child) :: rest => acceptDefaults leaves (g.accept ident (defaultOver leaves child)) rest

end

/-- The default of a node. -/
def defaultValue (d : Definition) (node : Node) : Value := defaultOver d.leaves node

/-- The default of a group. -/
def defaultGroup (d : Definition) (g : GroupNode) : Group := defaultGroupOver d.leaves g

/-- Read the default of every leaf that the index reaches once more, and count them. -/
def preloadDefaults (d : Definition) : Except BindError Nat :=
  d.index.entries.foldlM (fun count (_, id) =>
    match d.leaf? id with
    | none => .ok count
    | some leaf =>
      match Convert.value leaf.kind leaf.default with
      | .ok _ => .ok (count + 1)
      | .error reason => .error (.invalidDefault leaf.pattern (.conversion reason))) 0

end Definition

end PropertyBinding

import PropertyBinding.Registration

/-!
# What a declaration says

Read without a definition at hand, a declaration asks for leaves (`GroupDecl.requests`), in the
order in which its fields stand, and obeys or breaks the rules that hold at every level
(`GroupDecl.Admissible`). Together with the defaults and the patterns of the requests, these rules
decide whether the declaration is accepted (`RootDecl.Admissible`).

A declaration can also be asked whether all its name pieces and all its lists of identifiers have a
property (`GroupDecl.Each`), and a descriptor tree the same about its identifiers (`Node.Each`).
-/

namespace PropertyBinding

/-! ### The leaves that a declaration asks for -/

/-- What a declaration says about one leaf. -/
structure LeafRequest where
  ident : String
  pattern : String
  kind : LeafKind
  /-- The effective default: the supplied one, or the canonical one. -/
  default : String
  doc : Option String
  overridable : Bool
  deriving DecidableEq, Repr

/-- The request that a leaf answers. -/
def Leaf.request (leaf : Leaf) : LeafRequest :=
  ⟨leaf.ident, leaf.pattern, leaf.kind, leaf.default, leaf.doc, leaf.overridable⟩

/-- The segments of the requested pattern. -/
def LeafRequest.segments (q : LeafRequest) : List String := Name.segments q.pattern

/-- Whether the effective default reads as a value. -/
def LeafRequest.Reads (q : LeafRequest) : Prop := ∃ v, Convert.value q.kind q.default = .ok v

mutual

/-- The leaves that a group below a key asks for. -/
def GroupDecl.requests (base : List String) (overridable : Bool) : GroupDecl → List LeafRequest
  | ⟨_, _, fields⟩ => fieldRequests base overridable fields

/-- The leaves that fields ask for, one field after the other. -/
def fieldRequests (base : List String) (overridable : Bool) : List FieldDecl → List LeafRequest
  | [] => []
  | field :: rest => field.requests base overridable ++ fieldRequests base overridable rest

/-- The leaves that a field asks for. A field around which something can be overridden can be
overridden itself. -/
def FieldDecl.requests (base : List String) (overridable : Bool) : FieldDecl → List LeafRequest
  | ⟨ident, name, default, shape, own, doc⟩ =>
    shape.requests (Definition.subKey base ident name) (overridable || own) ident doc default

/-- The leaves that an attribute of this shape asks for. -/
def Shape.requests (key : List String) (overridable : Bool) (ident : String) (doc : Option String)
    (default : Default) : Shape → List LeafRequest
  | .group decl => decl.requests key overridable
  | .primitive type => type.leafKind?.toList.map fun kind =>
    ⟨ident, String.intercalate "." key, kind,
      Default.orCanonical default (if type = .boolean then "false" else "0"), doc, overridable⟩
  | .map _ (some value) => value.entryRequests (key ++ [wildcard]) overridable doc
  | .map _ none => []
  | .list element => element.toList.map fun element =>
    ⟨ident, String.intercalate "." key, .objectList element, Default.orCanonical default "", doc,
      overridable⟩
  | .optional element => element.toList.map fun element =>
    ⟨ident, String.intercalate "." key, .optionalObject element, Default.orCanonical default "",
      doc, overridable⟩
  | .object type =>
    [⟨ident, String.intercalate "." key, .object type,
      Default.orCanonical default type.canonicalDefault, doc, overridable⟩]

/-- The leaves that a map value of this shape asks for. Its own leaf has no identifier, and its
default is empty. -/
def Shape.entryRequests (key : List String) (overridable : Bool) (doc : Option String) :
    Shape → List LeafRequest
  | .group decl => decl.requests key overridable
  | .primitive type => type.valueType?.toList.map fun type =>
    ⟨"", String.intercalate "." key, .object type, "", doc, overridable⟩
  | .map _ (some value) => value.entryRequests (key ++ [wildcard]) overridable doc
  | .map _ none => []
  | .list element => element.toList.map fun element =>
    ⟨"", String.intercalate "." key, .objectList element, "", doc, overridable⟩
  | .optional _ => []
  | .object type => [⟨"", String.intercalate "." key, .object type, "", doc, overridable⟩]

end

/-! ### The rules at every level -/

/-- Whether attributes of the primitive type can be bound. -/
def Primitive.Bindable (type : Primitive) : Prop := type ≠ .byte ∧ type ≠ .short ∧ type ≠ .char

mutual

/-- Whether a group obeys the rules in a root of this phase. -/
def GroupDecl.Admissible (phase : Phase) : GroupDecl → Prop
  | ⟨_, _, fields⟩ => FieldsAdmissible phase fields

/-- Whether fields obey the rules. -/
def FieldsAdmissible (phase : Phase) : List FieldDecl → Prop
  | [] => True
  | field :: rest => field.Admissible phase ∧ FieldsAdmissible phase rest

/-- Whether a field obeys the rules: only in a root that is read at the start of the process can
it be overridable. -/
def FieldDecl.Admissible (phase : Phase) : FieldDecl → Prop
  | ⟨_, _, default, shape, overridable, _⟩ =>
    (overridable = true → phase = .runTime) ∧ shape.Admissible phase default

/-- Whether the shape of an attribute obeys the rules: a group has no default, a primitive type can
be bound, lists and optionals have an element type, and maps have string keys and admissible
values. -/
def Shape.Admissible (phase : Phase) (default : Default) : Shape → Prop
  | .group decl => default = none ∧ decl.Admissible phase
  | .primitive type => type.Bindable
  | .map key (some value) => key = some .string ∧ value.AdmissibleEntry phase
  | .map _ none => False
  | .list element => element.isSome
  | .optional element => element.isSome
  | .object _ => True

/-- Whether the shape of a map value obeys the rules. Optionals are never map values. -/
def Shape.AdmissibleEntry (phase : Phase) : Shape → Prop
  | .group decl => decl.Admissible phase
  | .primitive type => type.Bindable
  | .map key (some value) => key = some .string ∧ value.AdmissibleEntry phase
  | .map _ none => False
  | .list element => element.isSome
  | .optional _ => False
  | .object _ => True

end

/-! ### Properties of name pieces and identifiers -/

mutual

/-- Whether all name pieces that the fields of a group contribute, also below, have one property,
and all its lists of identifiers another. -/
def GroupDecl.Each (piece : String → Prop) (idents : List String → Prop) : GroupDecl → Prop
  | ⟨_, _, fields⟩ => idents (fields.map (·.ident)) ∧ FieldsEach piece idents fields

/-- Whether all name pieces and lists of identifiers of fields have the properties. -/
def FieldsEach (piece : String → Prop) (idents : List String → Prop) : List FieldDecl → Prop
  | [] => True
  | field :: rest => field.Each piece idents ∧ FieldsEach piece idents rest

/-- Whether all name pieces and lists of identifiers of a field have the properties. -/
def FieldDecl.Each (piece : String → Prop) (idents : List String → Prop) : FieldDecl → Prop
  | ⟨ident, name, _, shape, _, _⟩ =>
    (∀ p ∈ Definition.subKey [] ident name, piece p) ∧ shape.Each piece idents

/-- Whether all name pieces and lists of identifiers below a shape have the properties. -/
def Shape.Each (piece : String → Prop) (idents : List String → Prop) : Shape → Prop
  | .group decl => decl.Each piece idents
  | .map _ (some value) => value.Each piece idents
  | .map _ none | .primitive _ | .list _ | .optional _ | .object _ => True

end

mutual

/-- Whether all lists of identifiers of a node have the property. -/
def Node.Each (idents : List String → Prop) : Node → Prop
  | .group g => g.Each idents
  | .map value => value.Each idents
  | .leaf _ => True

/-- Whether all lists of identifiers of a group, also below, have the property. -/
def GroupNode.Each (idents : List String → Prop) : GroupNode → Prop
  | ⟨_, fields⟩ => idents (fields.map (·.1)) ∧ NodesEach idents fields

/-- Whether all lists of identifiers below attributes have the property. -/
def NodesEach (idents : List String → Prop) : List (String × Node) → Prop
  | [] => True
  | (_, node) :: rest => node.Each idents ∧ NodesEach idents rest

end

/-! ### Roots -/

/-- The containing name of the declared root. -/
def RootDecl.containingName (decl : RootDecl) : String :=
  Naming.containingName decl.group.typeName

/-- The external name of the declared root, if it has one. -/
def RootDecl.externalName? (decl : RootDecl) : Option String :=
  Definition.externalName? decl.group.typeName decl.name

/-- The leaves that a declared root asks for under its external name. -/
def RootDecl.requests (decl : RootDecl) (rootName : String) : List LeafRequest :=
  decl.group.requests (Text.split '.' rootName) false

/-- Whether a declared root, to be known by an external name, obeys all rules but those about the
patterns of its leaves. -/
structure RootDecl.WellFormed (d : Definition) (decl : RootDecl) (rootName : String) : Prop where
  /-- Types that are declared as groups are no roots. -/
  notGroup : decl.group.isGroup = false
  /-- A root has no parent whose name it could have. -/
  named : decl.externalName? = some rootName
  /-- No registered root has the containing name. -/
  newContainingName : ∀ root ∈ d.roots, root.containingName ≠ decl.containingName
  /-- No registered root has the external name. -/
  newExternalName : ∀ root ∈ d.roots, root.rootName ≠ rootName
  fields : decl.group.Admissible decl.phase
  defaults : ∀ q ∈ decl.requests rootName, q.Reads

/-- Whether a declared root is one that a definition accepts. Patterns are compared by their
segments. -/
def RootDecl.Admissible (d : Definition) (decl : RootDecl) : Prop :=
  ∃ rootName, decl.WellFormed d rootName ∧
    ((decl.requests rootName).map (·.segments)).Nodup ∧
    ∀ q ∈ decl.requests rootName, d.index.find? q.segments = none

/-- Whether a declared root passes the walk over its fields: its patterns are compared with each
other as texts only. -/
def RootDecl.PassesWalk (d : Definition) (decl : RootDecl) (rootName : String) : Prop :=
  decl.WellFormed d rootName ∧ ((decl.requests rootName).map (·.pattern)).Nodup ∧
    ∀ q ∈ decl.requests rootName, d.index.find? q.segments = none

end PropertyBinding

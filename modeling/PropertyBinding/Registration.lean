import PropertyBinding.Definition
import PropertyBinding.Naming
import PropertyBinding.Schema
import PropertyBinding.Text.Split

/-!
# Registration

Declarations in, descriptor tree and patterns out. Everything that a root contributes is first
collected in a draft, which reads the definition and does not change it; a refused declaration
leaves the definition as it was. A draft is then committed leaf by leaf. Two leaves of one draft
whose patterns differ as texts but have the same segments are found only then: the leaves before
the second one stay.
-/

namespace PropertyBinding

namespace Definition

/-- What the declaration of one root has contributed so far. -/
structure Draft where
  leaves : List Leaf := []
  templates : List Value := []

/-- What stays the same while a root is drafted. -/
structure Drafting where
  definition : Definition
  root : String
  phase : Phase

/-- Where an attribute stands: its key, the way to its slot, whether it or anything around it can
be overridden, and what messages call it. -/
structure Site where
  key : List String
  path : List PathStep
  overridable : Bool
  label : String

/-- The key of a field below the key of its group. -/
def subKey (base : List String) (ident : String) : ItemName → List String
  | .parent => base
  | .element => base ++ [ident]
  | .hyphenated => base ++ [Naming.hyphenate ident]
  | .explicit name => base ++ Text.split '.' name

/-- Draft a leaf. Its pattern must be new and its default must read by its kind. -/
def draftLeaf (ctx : Drafting) (site : Site) (ident : String) (doc : Option String)
    (kind : LeafKind) (default : String) (draft : Draft) : Except BindError (Node × Draft) :=
  let pattern := String.intercalate "." site.key
  if ctx.definition.index.contains pattern ∨ pattern ∈ draft.leaves.map (·.pattern) then
    .error (.duplicatePattern pattern)
  else match Convert.value kind default with
    | .error reason => .error (.invalidDefault pattern (.conversion reason))
    | .ok defaultValue =>
      let leaf : Leaf :=
        { ident, pattern, kind, default, defaultValue, doc
          overridable := site.overridable
          root := ctx.root
          path := site.path }
      .ok (.leaf (ctx.definition.leaves.length + draft.leaves.length),
        { draft with leaves := draft.leaves ++ [leaf] })

/-- The site of the values of a map: its key ends in the wildcard, and its path in a step by the
segment at which the wildcard stands. -/
def entrySite (ctx : Drafting) (site : Site) (draft : Draft) : Site :=
  { site with
    key := site.key ++ [wildcard]
    path := site.path ++
      [.key site.key.length (ctx.definition.templates.length + draft.templates.length)] }

/-- Draft the values of a map that stands at a site, as `draftValue` does at the site of its
entries. A place for their template is kept first; the template is the default of what has been
drafted. -/
def draftEntry (ctx : Drafting) (site : Site)
    (draftValue : Site → Draft → Except BindError (Node × Draft)) (draft : Draft) :
    Except BindError (Node × Draft) := do
  let (node, drafted) ← draftValue (entrySite ctx site draft)
    { draft with templates := draft.templates ++ [.unset] }
  let template := defaultOver (ctx.definition.leaves ++ drafted.leaves) node
  return (.map node,
    { drafted with templates := drafted.templates.set draft.templates.length template })

mutual

/-- Draft the attributes of a group, in the order of declaration. -/
def draftGroup (ctx : Drafting) (base : List String) (path : List PathStep) (overridable : Bool) :
    GroupDecl → Draft → Except BindError (GroupNode × Draft)
  | ⟨typeName, _, fields⟩, draft => do
    let (nodes, draft) ← draftFields ctx base path overridable typeName fields draft
    return (⟨typeName, nodes⟩, draft)

/-- Draft fields of a group type one after the other. -/
def draftFields (ctx : Drafting) (base : List String) (path : List PathStep) (overridable : Bool)
    (typeName : String) : List FieldDecl → Draft → Except BindError (List (String × Node) × Draft)
  | [], draft => .ok ([], draft)
  | field :: rest, draft => do
    let (node, draft) ← draftField ctx base path overridable typeName field draft
    let (nodes, draft) ← draftFields ctx base path overridable typeName rest draft
    return (node :: nodes, draft)

/-- Draft one field. -/
def draftField (ctx : Drafting) (base : List String) (path : List PathStep) (overridable : Bool)
    (typeName : String) : FieldDecl → Draft → Except BindError ((String × Node) × Draft)
  | ⟨ident, name, default, shape, fieldOverridable, doc⟩, draft => do
    let label := typeName ++ "." ++ ident
    if fieldOverridable ∧ ¬ctx.phase.isReadAtStart then
      throw (.overridableOutsideRuntime label)
    let site : Site :=
      { key := subKey base ident name
        path := path ++ [.field ident]
        overridable := overridable || fieldOverridable
        label }
    let (node, draft) ← draftShape ctx site ident doc default shape draft
    return ((ident, node), draft)

/-- Draft an attribute by its shape. -/
def draftShape (ctx : Drafting) (site : Site) (ident : String) (doc : Option String)
    (default : Default) : Shape → Draft → Except BindError (Node × Draft)
  | .group decl, draft => do
    if default.isSome then throw (.groupDefault site.label)
    let (group, draft) ← draftGroup ctx site.key site.path site.overridable decl draft
    return (.group group, draft)
  | .primitive type, draft =>
    match type.leafKind? with
    | none => .error (.unsupportedPrimitive site.label type)
    | some kind =>
      let canonical := if type = .boolean then "false" else "0"
      draftLeaf ctx site ident doc kind (Default.orCanonical default canonical) draft
  | .map key value, draft =>
    match key, value with
    | some .string, some value =>
      draftEntry ctx site (fun site draft => draftMapValue ctx site doc value draft) draft
    | some .string, none | none, _ => .error (.notParameterized site.label "Map")
    | some _, _ => .error (.mapKeyNotString site.label)
  | .list element, draft =>
    match element with
    | none => .error (.notParameterized site.label "List")
    | some element =>
      draftLeaf ctx site ident doc (.objectList element) (Default.orCanonical default "") draft
  | .optional element, draft =>
    match element with
    | none => .error (.notParameterized site.label "Optional")
    | some element =>
      draftLeaf ctx site ident doc (.optionalObject element) (Default.orCanonical default "") draft
  | .object type, draft =>
    draftLeaf ctx site ident doc (.object type) (Default.orCanonical default type.canonicalDefault)
      draft

/-- Draft a map value by its shape. A leaf that is a map value has no identifier, and its default
is empty. -/
def draftMapValue (ctx : Drafting) (site : Site) (doc : Option String) :
    Shape → Draft → Except BindError (Node × Draft)
  | .map key value, draft =>
    match key, value with
    | some .string, some value =>
      draftEntry ctx site (fun site draft => draftMapValue ctx site doc value draft) draft
    | some .string, none | none, _ => .error (.notParameterized site.label "Map")
    | some _, _ => .error (.mapKeyNotString site.label)
  | .group decl, draft => do
    let (group, draft) ← draftGroup ctx site.key site.path site.overridable decl draft
    return (.group group, draft)
  | .list element, draft =>
    match element with
    | none => .error (.notParameterized site.label "List")
    | some element => draftLeaf ctx site "" doc (.objectList element) "" draft
  | .optional _, _ => .error (.optionalMapValue site.label)
  | .primitive type, draft =>
    match type.valueType? with
    | none => .error (.unsupportedPrimitive site.label type)
    | some type => draftLeaf ctx site "" doc (.object type) "" draft
  | .object type, draft => draftLeaf ctx site "" doc (.object type) "" draft

end

/-- Append leaves and bind their patterns, up to the first one whose segments are bound. -/
def commitLeaves : List Leaf → Definition → Definition × Except BindError Unit
  | [], d => (d, .ok ())
  | leaf :: rest, d =>
    match d.index.insert leaf.pattern d.leaves.length with
    | .error e => (d, .error e)
    | .ok index => commitLeaves rest { d with index, leaves := d.leaves ++ [leaf] }

/-- The external name of a root, if its declaration gives one. -/
def externalName? (typeName : String) : ItemName → Option String
  | .parent => none
  | .element => some (Naming.containingName typeName)
  | .hyphenated => some (Naming.hyphenatedRootName typeName)
  | .explicit name => some name

/-- Draft a root: its descriptor and everything below it. -/
def draftRoot (d : Definition) (decl : RootDecl) : Except BindError (Root × Draft) :=
  let typeName := decl.group.typeName
  let containingName := Naming.containingName typeName
  if decl.group.isGroup then .error (.groupAsRoot typeName)
  else match externalName? typeName decl.name with
    | none => .error (.rootInheritsParent typeName)
    | some rootName =>
      if (d.root? containingName).isSome then .error (.duplicateRoot containingName typeName)
      else if d.roots.any (·.rootName = rootName) then .error (.duplicateRoot rootName typeName)
      else do
        let ctx : Drafting := { definition := d, root := containingName, phase := decl.phase }
        let (tree, draft) ← draftGroup ctx (Text.split '.' rootName) [] false decl.group {}
        return ({ typeName, containingName, rootName, phase := decl.phase, tree }, draft)

/-- Register a root: the definition afterwards, and whether the declaration was accepted. -/
def registerRoot (d : Definition) (decl : RootDecl) : Definition × Except BindError Unit :=
  match d.draftRoot decl with
  | .error e => (d, .error e)
  | .ok (root, draft) =>
    match commitLeaves draft.leaves d with
    | (d, .error e) => (d, .error e)
    | (d, .ok ()) =>
      ({ d with roots := d.roots ++ [root], templates := d.templates ++ draft.templates }, .ok ())

end Definition

end PropertyBinding

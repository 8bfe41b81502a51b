import Mathlib.Data.List.Induction
import PropertyBinding.Proofs.Registered

/-!
# Declarations, trees, leaves and templates agree

A declaration and the tree that is drafted for it have the same leaves, in the order of declaration:
the tree places each of them below attributes and maps (`Node.places`), the declaration below fields
(`GroupDecl.leafFields`), and the attributes are these fields (`draftGroup_draws`,
`GroupDecl.Draws.idents_places`). What a declaration says about the overriding of a leaf is said by
the fields around it (`GroupDecl.overridable_requests`).

Every root of a definition comes from a declaration that was accepted, and what has been added for
it stays in the tables (`exists_origin`). So tree, leaves, templates and declaration of the root
agree (`Root.Agrees`) after any registrations.
-/

namespace PropertyBinding

open Definition

/-! ### Places in a tree -/

/-- One level on the way from a node down to a leaf. -/
inductive Level where
  /-- Into the attribute with this identifier. -/
  | attribute (ident : String)
  /-- Into an entry of a map, whose values have this node. -/
  | entry (value : Node)

/-- The identifier, if the level is that of an attribute. -/
def Level.ident? : Level → Option String
  | .attribute ident => some ident
  | .entry _ => none

/-- Whether a step of a path spells a level: into the same attribute, or into a map entry that is
made from the default of the values of the map. -/
def Level.Spelled (d : Definition) : Level → PathStep → Prop
  | .attribute ident, .field ident' => ident = ident'
  | .entry value, .key _ template => d.template? template = some (d.defaultValue value)
  | .attribute _, .key .. | .entry _, .field _ => False

mutual

/-- The leaves of a node, depth first in the order of declaration, each with the levels above it. -/
def Node.places : Node → List (List Level × Nat)
  | .group g => g.places
  | .map value => value.places.map fun p => (.entry value :: p.1, p.2)
  | .leaf id => [([], id)]

/-- The leaves of a group with the levels above them. -/
def GroupNode.places : GroupNode → List (List Level × Nat)
  | ⟨_, fields⟩ => fieldPlaces fields

/-- The leaves below attributes with the levels above them. -/
def fieldPlaces : List (String × Node) → List (List Level × Nat)
  | [] => []
  | (ident, node) :: rest =>
    node.places.map (fun p => (.attribute ident :: p.1, p.2)) ++ fieldPlaces rest

end

mutual

/-- The places of a node hold its leaves, in order. -/
theorem Node.ids_places : (node : Node) → node.places.map (·.2) = node.leafIds
  | .group g => by rw [Node.places, Node.leafIds, g.ids_places]
  | .map value => by
    rw [Node.places, Node.leafIds, List.map_map, ← value.ids_places]
    rfl
  | .leaf id => by rw [Node.places, Node.leafIds]; rfl

/-- The places of a group hold its leaves, in order. -/
theorem GroupNode.ids_places : (g : GroupNode) → g.places.map (·.2) = g.leafIds
  | ⟨_, fields⟩ => by rw [GroupNode.places, GroupNode.leafIds, ids_fieldPlaces fields]

/-- The places below attributes hold the leaves below them, in order. -/
theorem ids_fieldPlaces : (fields : List (String × Node)) →
    (fieldPlaces fields).map (·.2) = fieldLeafIds fields
  | [] => by rw [fieldPlaces, fieldLeafIds]; rfl
  | (ident, node) :: rest => by
    rw [fieldPlaces, fieldLeafIds, List.map_append, List.map_map, ← node.ids_places,
      ids_fieldPlaces rest]
    rfl

end

/-- The places below an attribute are places of the group. -/
theorem mem_fieldPlaces {ident : String} {child : Node} {levels : List Level} {id : Nat}
    {fields : List (String × Node)} (hmem : (ident, child) ∈ fields)
    (hplace : (levels, id) ∈ child.places) :
    (.attribute ident :: levels, id) ∈ fieldPlaces fields := by
  induction fields with
  | nil => cases hmem
  | cons field rest ih =>
    rw [fieldPlaces]
    rcases List.mem_cons.mp hmem with rfl | hmem
    · exact List.mem_append_left _ (List.mem_map_of_mem hplace)
    · exact List.mem_append_right _ (ih hmem)

/-- A way leads to a place, and its path spells the levels above the place. -/
theorem Way.exists_place {d : Definition} {piece : String → Prop} {node : Node}
    {key full : List String} {path : List PathStep} {id : Nat}
    (h : Way d.leaves d.templates piece node key path full id) :
    ∃ levels, (levels, id) ∈ node.places ∧ List.Forall₂ (Level.Spelled d) levels path := by
  induction h with
  | leaf key id => exact ⟨[], by rw [Node.places]; exact List.mem_singleton.mpr rfl, .nil⟩
  | @field g ident _ _ _ _ _ _ mem _ _ ih =>
    obtain ⟨levels, hplace, hspelled⟩ := ih
    obtain ⟨typeName, fields⟩ := g
    refine ⟨.attribute ident :: levels, ?_, .cons rfl hspelled⟩
    rw [Node.places, GroupNode.places]
    exact mem_fieldPlaces mem hplace
  | @entry value template _ _ _ _ template_eq _ ih =>
    obtain ⟨levels, hplace, hspelled⟩ := ih
    refine ⟨.entry value :: levels, ?_, .cons template_eq hspelled⟩
    rw [Node.places]
    exact List.mem_map_of_mem hplace

/-! ### Fields around a leaf -/

mutual

/-- The fields around each leaf that a group declares, outermost first, leaf by leaf in the order of
declaration. -/
def GroupDecl.leafFields : GroupDecl → List (List FieldDecl)
  | ⟨_, _, fields⟩ => leafFieldsBelow fields

/-- The fields around each leaf that fields declare. -/
def leafFieldsBelow : List FieldDecl → List (List FieldDecl)
  | [] => []
  | field :: rest => field.leafFields ++ leafFieldsBelow rest

/-- The fields around each leaf that a field declares, itself in front. -/
def FieldDecl.leafFields : FieldDecl → List (List FieldDecl)
  | ⟨ident, name, default, shape, overridable, doc⟩ =>
    shape.leafFields.map (⟨ident, name, default, shape, overridable, doc⟩ :: ·)

/-- The fields around each leaf within a shape. -/
def Shape.leafFields : Shape → List (List FieldDecl)
  | .group decl => decl.leafFields
  | .map _ (some value) => value.leafFields
  | .map _ none => []
  | .primitive _ | .list _ | .optional _ | .object _ => [[]]

end

section Overridable

variable {phase : Phase}

mutual

/-- **A leaf can be overridden** if one of the fields around it is declared so. -/
theorem GroupDecl.overridable_requests (base : List String) (outer : Bool) : (decl : GroupDecl) →
    decl.Admissible phase → (decl.requests base outer).map (·.overridable) =
      decl.leafFields.map fun fields => outer || fields.any (·.overridable)
  | ⟨_, _, fields⟩, h => by
    rw [GroupDecl.Admissible] at h
    rw [GroupDecl.requests, GroupDecl.leafFields, overridable_fieldRequests base outer fields h]

/-- A leaf that fields ask for can be overridden if one of the fields around it is declared so. -/
theorem overridable_fieldRequests (base : List String) (outer : Bool) :
    (fields : List FieldDecl) → FieldsAdmissible phase fields →
      (fieldRequests base outer fields).map (·.overridable) =
        (leafFieldsBelow fields).map fun fields => outer || fields.any (·.overridable)
  | [], _ => by rw [fieldRequests, leafFieldsBelow]; rfl
  | field :: rest, h => by
    rw [FieldsAdmissible] at h
    rw [fieldRequests, leafFieldsBelow, List.map_append, List.map_append,
      field.overridable_requests base outer h.1, overridable_fieldRequests base outer rest h.2]

/-- A leaf that a field asks for can be overridden if the field or one of the fields within it
around the leaf is declared so. -/
theorem FieldDecl.overridable_requests (base : List String) (outer : Bool) : (field : FieldDecl) →
    field.Admissible phase → (field.requests base outer).map (·.overridable) =
      field.leafFields.map fun fields => outer || fields.any (·.overridable)
  | ⟨ident, name, default, shape, own, doc⟩, h => by
    rw [FieldDecl.Admissible] at h
    rw [FieldDecl.requests, FieldDecl.leafFields, List.map_map,
      shape.overridable_requests _ _ _ _ _ h.2]
    refine List.map_congr_left fun fields _ => ?_
    rw [Function.comp_apply, List.any_cons, Bool.or_assoc]

/-- A leaf within a shape can be overridden if something around the shape is declared so, or one of
the fields within it around the leaf. -/
theorem Shape.overridable_requests (key : List String) (outer : Bool) (ident : String)
    (doc : Option String) (default : Default) : (shape : Shape) → shape.Admissible phase default →
      (shape.requests key outer ident doc default).map (·.overridable) =
        shape.leafFields.map fun fields => outer || fields.any (·.overridable)
  | .group decl, h => by
    rw [Shape.Admissible] at h
    rw [Shape.requests, Shape.leafFields, decl.overridable_requests key outer h.2]
  | .map _ (some value), h => by
    rw [Shape.Admissible] at h
    rw [Shape.requests, Shape.leafFields, value.overridable_entryRequests _ outer doc h.2]
  | .map _ none, h => by
    rw [Shape.Admissible] at h
    exact h.elim
  | .primitive type, h => by
    rw [Shape.Admissible] at h
    rcases leafKind?_cases type with ⟨-, hnot⟩ | ⟨kind, hkind, -⟩
    · exact absurd h hnot
    · simp [Shape.requests, Shape.leafFields, hkind]
  | .list element, h => by
    rw [Shape.Admissible] at h
    obtain ⟨type, rfl⟩ := Option.isSome_iff_exists.mp h
    simp [Shape.requests, Shape.leafFields]
  | .optional element, h => by
    rw [Shape.Admissible] at h
    obtain ⟨type, rfl⟩ := Option.isSome_iff_exists.mp h
    simp [Shape.requests, Shape.leafFields]
  | .object type, _ => by simp [Shape.requests, Shape.leafFields]

/-- A leaf within the shape of a map value can be overridden if something around the map is declared
so, or one of the fields within the value around the leaf. -/
theorem Shape.overridable_entryRequests (key : List String) (outer : Bool) (doc : Option String) :
    (shape : Shape) → shape.AdmissibleEntry phase →
      (shape.entryRequests key outer doc).map (·.overridable) =
        shape.leafFields.map fun fields => outer || fields.any (·.overridable)
  | .group decl, h => by
    rw [Shape.AdmissibleEntry] at h
    rw [Shape.entryRequests, Shape.leafFields, decl.overridable_requests key outer h]
  | .map _ (some value), h => by
    rw [Shape.AdmissibleEntry] at h
    rw [Shape.entryRequests, Shape.leafFields, value.overridable_entryRequests _ outer doc h.2]
  | .map _ none, h => by
    rw [Shape.AdmissibleEntry] at h
    exact h.elim
  | .primitive type, h => by
    rw [Shape.AdmissibleEntry] at h
    rcases valueType?_cases type with ⟨-, hnot⟩ | ⟨element, helement, -⟩
    · exact absurd h hnot
    · simp [Shape.entryRequests, Shape.leafFields, helement]
  | .list element, h => by
    rw [Shape.AdmissibleEntry] at h
    obtain ⟨type, rfl⟩ := Option.isSome_iff_exists.mp h
    simp [Shape.entryRequests, Shape.leafFields]
  | .optional element, h => by
    rw [Shape.AdmissibleEntry] at h
    exact h.elim
  | .object type, _ => by simp [Shape.entryRequests, Shape.leafFields]

end

mutual

/-- **Only roots that are read at the start can be overridden**, at any level. -/
theorem GroupDecl.Admissible.phase_eq : (decl : GroupDecl) → decl.Admissible phase →
    ∀ fields ∈ decl.leafFields, fields.any (·.overridable) = true → phase = .runTime
  | ⟨_, _, fields⟩, h => by
    rw [GroupDecl.Admissible] at h
    rw [GroupDecl.leafFields]
    exact phase_eq_of_fieldsAdmissible fields h

/-- What can be overridden below fields is read at the start. -/
theorem phase_eq_of_fieldsAdmissible : (fields : List FieldDecl) →
    FieldsAdmissible phase fields →
      ∀ around ∈ leafFieldsBelow fields, around.any (·.overridable) = true → phase = .runTime
  | [], _, around, haround, _ => by
    rw [leafFieldsBelow] at haround
    cases haround
  | field :: rest, h, around, haround, hany => by
    rw [FieldsAdmissible] at h
    rw [leafFieldsBelow] at haround
    rcases List.mem_append.mp haround with haround | haround
    · exact FieldDecl.Admissible.phase_eq field h.1 around haround hany
    · exact phase_eq_of_fieldsAdmissible rest h.2 around haround hany

/-- What can be overridden within a field is read at the start. -/
theorem FieldDecl.Admissible.phase_eq : (field : FieldDecl) → field.Admissible phase →
    ∀ fields ∈ field.leafFields, fields.any (·.overridable) = true → phase = .runTime
  | ⟨ident, name, default, shape, own, doc⟩, h, fields, hfields, hany => by
    rw [FieldDecl.Admissible] at h
    rw [FieldDecl.leafFields] at hfields
    obtain ⟨within, hwithin, rfl⟩ := List.mem_map.mp hfields
    rw [List.any_cons, Bool.or_eq_true] at hany
    rcases hany with hown | hany
    · exact h.1 hown
    · exact Shape.Admissible.phase_eq shape h.2 within hwithin hany

/-- What can be overridden within a shape is read at the start. -/
theorem Shape.Admissible.phase_eq {default : Default} : (shape : Shape) →
    shape.Admissible phase default →
      ∀ fields ∈ shape.leafFields, fields.any (·.overridable) = true → phase = .runTime
  | .group decl, h => by
    rw [Shape.Admissible] at h
    rw [Shape.leafFields]
    exact GroupDecl.Admissible.phase_eq decl h.2
  | .map _ (some value), h => by
    rw [Shape.Admissible] at h
    rw [Shape.leafFields]
    exact Shape.AdmissibleEntry.phase_eq value h.2
  | .map _ none, _ | .primitive _, _ | .list _, _ | .optional _, _ | .object _, _ => by
    simp [Shape.leafFields]

/-- What can be overridden within a map value is read at the start. -/
theorem Shape.AdmissibleEntry.phase_eq : (shape : Shape) → shape.AdmissibleEntry phase →
    ∀ fields ∈ shape.leafFields, fields.any (·.overridable) = true → phase = .runTime
  | .group decl, h => by
    rw [Shape.AdmissibleEntry] at h
    rw [Shape.leafFields]
    exact GroupDecl.Admissible.phase_eq decl h
  | .map _ (some value), h => by
    rw [Shape.AdmissibleEntry] at h
    rw [Shape.leafFields]
    exact Shape.AdmissibleEntry.phase_eq value h.2
  | .map _ none, _ | .primitive _, _ | .list _, _ | .optional _, _ | .object _, _ => by
    simp [Shape.leafFields]

end

end Overridable

/-! ### Drawing trees -/

mutual

/-- Whether a tree is drawn as a group declares it: of the same type, with one attribute for every
field, in order. -/
def GroupDecl.Draws : GroupDecl → GroupNode → Prop
  | ⟨typeName, _, fields⟩, g => g.typeName = typeName ∧ FieldsDraw fields g.fields

/-- Whether attributes are drawn as fields declare them. -/
def FieldsDraw : List FieldDecl → List (String × Node) → Prop
  | [], nodes => nodes = []
  | field :: rest, nodes => ∃ node below, nodes = node :: below ∧ field.Draws node ∧
    FieldsDraw rest below

/-- Whether an attribute is drawn as a field declares it, with the same identifier. -/
def FieldDecl.Draws : FieldDecl → String × Node → Prop
  | ⟨ident, _, _, shape, _, _⟩, node => node.1 = ident ∧ shape.Draws node.2

/-- Whether a node is drawn as a shape says, also within maps. -/
def Shape.Draws : Shape → Node → Prop
  | .group decl, node => ∃ g, node = .group g ∧ decl.Draws g
  | .map _ (some value), node => ∃ below, node = .map below ∧ value.Draws below
  | .map _ none, _ => False
  | .primitive _, node | .list _, node | .optional _, node | .object _, node =>
    ∃ id, node = .leaf id

end

section Draws

variable {ctx : Drafting} {draft after : Draft}

/-- A drafted leaf is a leaf. -/
theorem draftLeaf_eq_ok {site : Site} {ident : String} {doc : Option String} {kind : LeafKind}
    {default : String} {node : Node}
    (h : draftLeaf ctx site ident doc kind default draft = .ok (node, after)) :
    ∃ id, node = .leaf id := by
  rw [draftLeaf] at h
  split_ifs at h
  dsimp only at h
  split at h
  · cases h
  · exact ⟨_, (Prod.mk.inj (Except.ok.inj h)).1.symm⟩

/-- A drafted map has the node that has been drafted for its values. -/
theorem draftEntry_eq_ok {site : Site}
    {draftValue : Site → Draft → Except BindError (Node × Draft)} {node : Node}
    (h : draftEntry ctx site draftValue draft = .ok (node, after)) :
    ∃ below site' draft' after', node = .map below ∧
      draftValue site' draft' = .ok (below, after') := by
  rw [draftEntry] at h
  obtain ⟨⟨below, drafted⟩, hvalue, h⟩ := ok_of_bind_eq_ok h
  exact ⟨below, _, _, drafted, (Prod.mk.inj (Except.ok.inj h)).1.symm, hvalue⟩

mutual

/-- **A drafted group is drawn as declared.** -/
theorem draftGroup_draws : (decl : GroupDecl) → ∀ {base : List String} {path : List PathStep}
    {overridable : Bool} {draft after : Draft} {g : GroupNode},
    draftGroup ctx base path overridable decl draft = .ok (g, after) → decl.Draws g
  | ⟨typeName, _, fields⟩, base, path, overridable, draft, after, g, h => by
    rw [draftGroup] at h
    obtain ⟨⟨nodes, drafted⟩, hfields, h⟩ := ok_of_bind_eq_ok h
    obtain ⟨rfl, -⟩ := Prod.mk.inj (Except.ok.inj h)
    rw [GroupDecl.Draws]
    exact ⟨rfl, draftFields_draws fields hfields⟩

/-- Drafted fields are drawn as declared. -/
theorem draftFields_draws : (fields : List FieldDecl) → ∀ {base : List String}
    {path : List PathStep} {overridable : Bool} {typeName : String} {draft after : Draft}
    {nodes : List (String × Node)},
    draftFields ctx base path overridable typeName fields draft = .ok (nodes, after) →
      FieldsDraw fields nodes
  | [], base, path, overridable, typeName, draft, after, nodes, h => by
    rw [draftFields] at h
    rw [FieldsDraw]
    exact (Prod.mk.inj (Except.ok.inj h)).1.symm
  | field :: rest, base, path, overridable, typeName, draft, after, nodes, h => by
    rw [draftFields] at h
    obtain ⟨⟨node, drafted⟩, hfield, h⟩ := ok_of_bind_eq_ok h
    obtain ⟨⟨below, drafted'⟩, hrest, h⟩ := ok_of_bind_eq_ok h
    obtain ⟨rfl, -⟩ := Prod.mk.inj (Except.ok.inj h)
    rw [FieldsDraw]
    exact ⟨node, below, rfl, draftField_draws field hfield, draftFields_draws rest hrest⟩

/-- A drafted field is drawn as declared. -/
theorem draftField_draws : (field : FieldDecl) → ∀ {base : List String} {path : List PathStep}
    {overridable : Bool} {typeName : String} {draft after : Draft} {node : String × Node},
    draftField ctx base path overridable typeName field draft = .ok (node, after) →
      field.Draws node
  | ⟨ident, name, default, shape, own, doc⟩, base, path, overridable, typeName, draft, after, node,
      h => by
    rw [draftField] at h
    split at h
    · cases h
    obtain ⟨⟨below, drafted⟩, hshape, h⟩ := ok_of_bind_eq_ok h
    obtain ⟨rfl, -⟩ := Prod.mk.inj (Except.ok.inj h)
    rw [FieldDecl.Draws]
    exact ⟨rfl, draftShape_draws shape hshape⟩

/-- A drafted attribute is drawn as its shape says. -/
theorem draftShape_draws : (shape : Shape) → ∀ {site : Site} {ident : String}
    {doc : Option String} {default : Default} {draft after : Draft} {node : Node},
    draftShape ctx site ident doc default shape draft = .ok (node, after) → shape.Draws node
  | .group decl, site, ident, doc, default, draft, after, node, h => by
    rw [draftShape] at h
    split at h
    · cases h
    obtain ⟨⟨g, drafted⟩, hgroup, h⟩ := ok_of_bind_eq_ok h
    obtain ⟨rfl, -⟩ := Prod.mk.inj (Except.ok.inj h)
    rw [Shape.Draws]
    exact ⟨g, rfl, draftGroup_draws decl hgroup⟩
  | .map key (some value), site, ident, doc, default, draft, after, node, h => by
    by_cases hkey : key = some .string
    · subst hkey
      rw [draftShape] at h
      obtain ⟨below, site', draft', after', rfl, hvalue⟩ := draftEntry_eq_ok h
      rw [Shape.Draws]
      exact ⟨below, rfl, draftMapValue_draws value hvalue⟩
    · obtain ⟨e, -, herror⟩ := mapKey_error ctx site doc (some value) draft hkey
      cases (herror ident default).1.symm.trans h
  | .map key none, site, ident, doc, default, draft, after, node, h => by
    obtain ⟨e, -, herror⟩ := mapValue_error ctx site doc key draft
    cases (herror ident default).1.symm.trans h
  | .primitive type, site, ident, doc, default, draft, after, node, h => by
    rw [draftShape] at h
    split at h
    · cases h
    · rw [Shape.Draws]
      exact draftLeaf_eq_ok h
  | .list element, site, ident, doc, default, draft, after, node, h => by
    cases element with
    | none =>
      rw [draftShape] at h
      cases h
    | some element =>
      rw [draftShape] at h
      rw [Shape.Draws]
      exact draftLeaf_eq_ok h
  | .optional element, site, ident, doc, default, draft, after, node, h => by
    cases element with
    | none =>
      rw [draftShape] at h
      cases h
    | some element =>
      rw [draftShape] at h
      rw [Shape.Draws]
      exact draftLeaf_eq_ok h
  | .object type, site, ident, doc, default, draft, after, node, h => by
    rw [draftShape] at h
    rw [Shape.Draws]
    exact draftLeaf_eq_ok h

/-- A drafted map value is drawn as its shape says. -/
theorem draftMapValue_draws : (shape : Shape) → ∀ {site : Site} {doc : Option String}
    {draft after : Draft} {node : Node},
    draftMapValue ctx site doc shape draft = .ok (node, after) → shape.Draws node
  | .group decl, site, doc, draft, after, node, h => by
    rw [draftMapValue] at h
    obtain ⟨⟨g, drafted⟩, hgroup, h⟩ := ok_of_bind_eq_ok h
    obtain ⟨rfl, -⟩ := Prod.mk.inj (Except.ok.inj h)
    rw [Shape.Draws]
    exact ⟨g, rfl, draftGroup_draws decl hgroup⟩
  | .map key (some value), site, doc, draft, after, node, h => by
    by_cases hkey : key = some .string
    · subst hkey
      rw [draftMapValue] at h
      obtain ⟨below, site', draft', after', rfl, hvalue⟩ := draftEntry_eq_ok h
      rw [Shape.Draws]
      exact ⟨below, rfl, draftMapValue_draws value hvalue⟩
    · obtain ⟨e, -, herror⟩ := mapKey_error ctx site doc (some value) draft hkey
      cases (herror "" none).2.symm.trans h
  | .map key none, site, doc, draft, after, node, h => by
    obtain ⟨e, -, herror⟩ := mapValue_error ctx site doc key draft
    cases (herror "" none).2.symm.trans h
  | .primitive type, site, doc, draft, after, node, h => by
    rw [draftMapValue] at h
    split at h
    · cases h
    · rw [Shape.Draws]
      exact draftLeaf_eq_ok h
  | .list element, site, doc, draft, after, node, h => by
    cases element with
    | none =>
      rw [draftMapValue] at h
      cases h
    | some element =>
      rw [draftMapValue] at h
      rw [Shape.Draws]
      exact draftLeaf_eq_ok h
  | .optional element, site, doc, draft, after, node, h => by
    rw [draftMapValue] at h
    cases h
  | .object type, site, doc, draft, after, node, h => by
    rw [draftMapValue] at h
    rw [Shape.Draws]
    exact draftLeaf_eq_ok h

end

mutual

/-- **The attributes above a leaf are the fields around it**, in a tree drawn as declared. -/
theorem GroupDecl.Draws.idents_places : (decl : GroupDecl) → ∀ {g : GroupNode}, decl.Draws g →
    g.places.map (fun p => p.1.filterMap Level.ident?) =
      decl.leafFields.map fun fields => fields.map (·.ident)
  | ⟨_, _, fields⟩, ⟨_, nodes⟩, h => by
    rw [GroupDecl.Draws] at h
    rw [GroupNode.places, GroupDecl.leafFields, FieldsDraw.idents_places fields h.2]

/-- The attributes above a leaf below drawn fields are the fields around it. -/
theorem FieldsDraw.idents_places : (fields : List FieldDecl) → ∀ {nodes : List (String × Node)},
    FieldsDraw fields nodes →
      (fieldPlaces nodes).map (fun p => p.1.filterMap Level.ident?) =
        (leafFieldsBelow fields).map fun fields => fields.map (·.ident)
  | [], nodes, h => by
    rw [FieldsDraw] at h
    rw [h, fieldPlaces, leafFieldsBelow]
    rfl
  | field :: rest, nodes, h => by
    rw [FieldsDraw] at h
    obtain ⟨⟨ident, node⟩, below, rfl, hfield, hrest⟩ := h
    rw [fieldPlaces, leafFieldsBelow, List.map_append, List.map_append,
      FieldDecl.Draws.idents_places field hfield, FieldsDraw.idents_places rest hrest]

/-- The attributes above a leaf within a drawn field are the fields around it. -/
theorem FieldDecl.Draws.idents_places : (field : FieldDecl) → ∀ {ident : String} {node : Node},
    field.Draws (ident, node) →
      (node.places.map fun p => (Level.attribute ident :: p.1, p.2)).map
          (fun p => p.1.filterMap Level.ident?) =
        field.leafFields.map fun fields => fields.map (·.ident)
  | ⟨_, name, default, shape, own, doc⟩, ident, node, h => by
    rw [FieldDecl.Draws] at h
    obtain ⟨rfl, hshape⟩ := h
    have hbelow := congrArg (List.map (ident :: ·)) (Shape.Draws.idents_places shape hshape)
    rw [List.map_map, List.map_map] at hbelow
    rw [FieldDecl.leafFields, List.map_map, List.map_map]
    exact hbelow

/-- The attributes above a leaf within a drawn shape are the fields around it. -/
theorem Shape.Draws.idents_places : (shape : Shape) → ∀ {node : Node}, shape.Draws node →
    node.places.map (fun p => p.1.filterMap Level.ident?) =
      shape.leafFields.map fun fields => fields.map (·.ident)
  | .group decl, node, h => by
    rw [Shape.Draws] at h
    obtain ⟨g, rfl, hgroup⟩ := h
    rw [Node.places, Shape.leafFields, GroupDecl.Draws.idents_places decl hgroup]
  | .map _ (some value), node, h => by
    rw [Shape.Draws] at h
    obtain ⟨below, rfl, hvalue⟩ := h
    rw [Node.places, Shape.leafFields, ← Shape.Draws.idents_places value hvalue, List.map_map]
    rfl
  | .map _ none, node, h => by
    rw [Shape.Draws] at h
    exact h.elim
  | .primitive _, node, h | .list _, node, h | .optional _, node, h | .object _, node, h => by
    rw [Shape.Draws] at h
    obtain ⟨id, rfl⟩ := h
    rw [Node.places, Shape.leafFields]
    rfl

end

end Draws

/-! ### Where a root comes from -/

/-- What registering adds: leaves and templates behind those of the definition, and either no root,
or the drafted root together with all its leaves and templates. -/
theorem registerRoot_adds (d : Definition) (decl : RootDecl) :
    ∃ ls ts, (d.registerRoot decl).1.leaves = d.leaves ++ ls ∧
      (d.registerRoot decl).1.templates = d.templates ++ ts ∧
      ((d.registerRoot decl).1.roots = d.roots ∨
        ∃ root draft, (d.registerRoot decl).2 = .ok () ∧
          (d.registerRoot decl).1.roots = d.roots ++ [root] ∧
          d.draftRoot decl = .ok (root, draft) ∧
          RootDrafted (fun _ => True) (fun _ => True) d decl root draft ∧
          ls = draft.leaves ∧ ts = draft.templates) := by
  rcases registerRoot_cases d decl decl.group.each_true with
    ⟨e, hresult, -, -⟩ | ⟨root, draft, hdraft, hroot, hcommit⟩
  · rw [hresult]
    exact ⟨[], [], (List.append_nil _).symm, (List.append_nil _).symm, Or.inl rfl⟩
  rcases hcommit with ⟨before, leaf, after, d', -, hresult, hd', -, -⟩ | ⟨d', hresult, hd', -⟩
  · rw [hresult]
    exact ⟨before, [], hd'.leaves, hd'.templates.trans (List.append_nil _).symm,
      Or.inl hd'.roots⟩
  · rw [hresult]
    dsimp only
    rw [hd'.roots, hd'.templates]
    exact ⟨draft.leaves, draft.templates, hd'.leaves, rfl,
      Or.inr ⟨root, draft, rfl, rfl, hdraft, hroot, rfl, rfl⟩⟩

/-- The declaration and the draft that a root of a definition comes from, after declarations. -/
structure Origin (decls : List RootDecl) (root : Root) (before : List RootDecl) (decl : RootDecl)
    (after : List RootDecl) (draft : Draft) : Prop where
  split : decls = before ++ decl :: after
  accepted : ((registerAll before).registerRoot decl).2 = .ok ()
  roots : ((registerAll before).registerRoot decl).1.roots = (registerAll before).roots ++ [root]
  drafts : (registerAll before).draftRoot decl = .ok (root, draft)
  drafted : RootDrafted (fun _ => True) (fun _ => True) (registerAll before) decl root draft
  /-- What has been drafted stays in the tables. -/
  leaves : (registerAll before).leaves ++ draft.leaves <+: (registerAll decls).leaves
  templates : (registerAll before).templates ++ draft.templates <+: (registerAll decls).templates

/-- **Every root comes from a declaration** that was accepted. -/
theorem exists_origin {decls : List RootDecl} {root : Root}
    (hroot : root ∈ (registerAll decls).roots) :
    ∃ before decl after draft, Origin decls root before decl after draft := by
  induction decls using List.reverseRecOn with
  | nil => cases hroot
  | append_singleton decls last ih =>
    have hlast : registerAll (decls ++ [last]) = ((registerAll decls).registerRoot last).1 := by
      rw [registerAll, List.foldl_append]
      rfl
    obtain ⟨ls, ts, hleaves, htemplates, hroots⟩ := registerRoot_adds (registerAll decls) last
    rw [hlast] at hroot
    have hearlier : root ∈ (registerAll decls).roots →
        ∃ before decl after draft, Origin (decls ++ [last]) root before decl after draft := by
      intro hmem
      obtain ⟨before, decl, after, draft, h⟩ := ih hmem
      refine ⟨before, decl, after ++ [last], draft, ?_, h.accepted, h.roots, h.drafts, h.drafted,
        ?_, ?_⟩
      · rw [h.split, List.append_assoc, List.cons_append]
      · rw [hlast, hleaves]
        exact h.leaves.trans (List.prefix_append _ ls)
      · rw [hlast, htemplates]
        exact h.templates.trans (List.prefix_append _ ts)
    rcases hroots with hroots | ⟨new, draft, haccepted, hroots, hdrafts, hdrafted, rfl, rfl⟩
    · exact hearlier (hroots ▸ hroot)
    rw [hroots] at hroot
    rcases List.mem_append.mp hroot with hroot | hroot
    · exact hearlier hroot
    · obtain rfl := List.mem_singleton.mp hroot
      exact ⟨decls, last, [], draft, rfl, haccepted, hroots, hdrafts, hdrafted,
        ⟨[], by rw [List.append_nil, hlast, hleaves]⟩,
        ⟨[], by rw [List.append_nil, hlast, htemplates]⟩⟩

/-! ### Agreement -/

/-- Whether a leaf is the one of a root below these levels, which is declared within these
fields. -/
structure Leaf.Agrees (d : Definition) (root : Root) (levels : List Level)
    (fields : List FieldDecl) (leaf : Leaf) : Prop where
  root_eq : leaf.root = root.containingName
  path : List.Forall₂ (Level.Spelled d) levels leaf.path
  default : Convert.value leaf.kind leaf.default = .ok leaf.defaultValue
  idents : levels.filterMap Level.ident? = fields.map (·.ident)
  /-- The leaf can be overridden if a field around it is declared so, -/
  overridable : leaf.overridable = fields.any (·.overridable)
  /-- which only roots that are read at the start can have. -/
  phase : leaf.overridable = true → root.phase = .runTime

/-- Whether a root of a definition, its leaves and their templates are as declared. -/
structure Root.Agrees (d : Definition) (decl : RootDecl) (root : Root) : Prop where
  typeName : root.typeName = decl.group.typeName
  containingName : root.containingName = decl.containingName
  phase : root.phase = decl.phase
  draws : decl.group.Draws root.tree
  /-- The leaves of the tree have consecutive indices in the table, depth first. -/
  consecutive : ∃ first count, root.tree.places.map (·.2) = List.range' first count ∧
    first + count ≤ d.leaves.length
  /-- Place by place and field by field, the leaf in the table agrees. -/
  leaves : List.Forall₂ (fun place fields => ∃ leaf, d.leaf? place.2 = some leaf ∧
    leaf.Agrees d root place.1 fields) root.tree.places decl.group.leafFields

section Origin

variable {decls before after : List RootDecl} {decl : RootDecl} {root : Root} {draft : Draft}

/-- The table holds the drafted leaves behind those from before. -/
theorem Origin.hasAt_leaves (h : Origin decls root before decl after draft) :
    HasAt (registerAll decls).leaves (registerAll before).leaves.length draft.leaves := by
  obtain ⟨others, hothers⟩ := h.leaves
  rw [← hothers]
  exact (hasAt_append _ _).append_right others

/-- The table holds the drafted templates behind those from before. -/
theorem Origin.hasAt_templates (h : Origin decls root before decl after draft) :
    HasAt (registerAll decls).templates (registerAll before).templates.length draft.templates := by
  obtain ⟨others, hothers⟩ := h.templates
  rw [← hothers]
  exact (hasAt_append _ _).append_right others

/-- The indices of a root's leaves are those under which its draft has been committed. -/
theorem Origin.ids_places (h : Origin decls root before decl after draft) :
    root.tree.places.map (·.2) =
      List.range' (registerAll before).leaves.length draft.leaves.length := by
  have hids := h.drafted.lays.ids
  rw [Node.leafIds] at hids
  rw [root.tree.ids_places, hids]

/-- A root's tree is drawn as declared. -/
theorem Origin.draws (h : Origin decls root before decl after draft) :
    decl.group.Draws root.tree := by
  have hdrafts := h.drafts
  rw [draftRoot] at hdrafts
  split at hdrafts
  · cases hdrafts
  split at hdrafts
  · cases hdrafts
  split_ifs at hdrafts
  obtain ⟨⟨tree, drafted⟩, hgroup, hroot⟩ := ok_of_bind_eq_ok hdrafts
  obtain ⟨rfl, -⟩ := Prod.mk.inj (Except.ok.inj hroot)
  exact draftGroup_draws decl.group hgroup

/-- A drafted leaf of a root stands in the table, at the place and within the fields of its
number. -/
theorem Origin.leaf_agrees (h : Origin decls root before decl after draft) {i : Nat}
    {place : List Level × Nat} {fields : List FieldDecl}
    (hplace : root.tree.places[i]? = some place)
    (hfields : decl.group.leafFields[i]? = some fields) :
    ∃ leaf, (registerAll decls).leaf? place.2 = some leaf ∧
      leaf.Agrees (registerAll decls) root place.1 fields := by
  have hwell := h.drafted.passes.1
  have hids := h.ids_places
  have hlt : i < draft.leaves.length := by
    have hlength := congrArg List.length hids
    rw [List.length_map, List.length_range'] at hlength
    exact hlength ▸ (List.getElem?_eq_some_iff.mp hplace).1
  have hleaf : draft.leaves[i]? = some draft.leaves[i] := List.getElem?_eq_getElem hlt
  have hmem : draft.leaves[i] ∈ draft.leaves := List.getElem_mem hlt
  have hid : place.2 = (registerAll before).leaves.length + i := by
    have hi := congrArg (·[i]?) hids
    simpa [hplace, List.getElem?_range' hlt] using hi
  -- The way to the leaf leads to a place with its index, and no other place has this index.
  obtain ⟨rest, full, hpath, -, way⟩ := h.drafted.lays.ways _ _ h.hasAt_leaves
    h.hasAt_templates i _ hleaf
  rw [List.nil_append] at hpath
  obtain ⟨levels, hlevels, hspelled⟩ := way.exists_place
  have hnodup : (root.tree.places.map (·.2)).Nodup := by
    rw [hids]
    exact List.nodup_range'
  rw [Node.places] at hlevels
  obtain rfl : place = (levels, _) := List.inj_on_of_nodup_map hnodup
    (List.mem_of_getElem? hplace) hlevels hid
  have hoverridable : draft.leaves[i].overridable = fields.any (·.overridable) := by
    have hi := congrArg (·[i]?)
      (decl.group.overridable_requests (Text.split '.' root.rootName) false hwell.fields)
    rw [← RootDecl.requests, ← h.drafted.requests] at hi
    simpa [hleaf, hfields, Leaf.request] using hi
  have hidents := congrArg (·[i]?) (GroupDecl.Draws.idents_places decl.group h.draws)
  simp only [List.getElem?_map, hplace, hfields, Option.map_some, Option.some.injEq] at hidents
  refine ⟨draft.leaves[i], hid ▸ h.hasAt_leaves i _ hleaf, ⟨h.drafted.lays.roots _ hmem,
    hpath ▸ hspelled, h.drafted.lays.values _ hmem, hidents, hoverridable, fun hover => ?_⟩⟩
  rw [h.drafted.phase]
  exact GroupDecl.Admissible.phase_eq decl.group hwell.fields fields
    (List.mem_of_getElem? hfields) (hoverridable ▸ hover)

/-- A root agrees with the declaration that it comes from. -/
theorem Origin.agrees (h : Origin decls root before decl after draft) :
    root.Agrees (registerAll decls) decl where
  typeName := h.drafted.typeName
  containingName := h.drafted.containingName
  phase := h.drafted.phase
  draws := h.draws
  consecutive := by
    refine ⟨_, _, h.ids_places, ?_⟩
    have hlength := h.leaves.length_le
    rwa [List.length_append] at hlength
  leaves := by
    have hlength : root.tree.places.length = decl.group.leafFields.length := by
      have hidents := congrArg List.length (GroupDecl.Draws.idents_places decl.group h.draws)
      rwa [List.length_map, List.length_map] at hidents
    refine List.forall₂_iff_get.mpr ⟨hlength, fun i hi hi' => ?_⟩
    exact h.leaf_agrees (List.getElem?_eq_getElem hi) (List.getElem?_eq_getElem hi')

end Origin

/-- **Declarations, trees, leaves and templates agree** for every root that is registered after any
declarations, refused ones included. -/
theorem registerAll_agrees {decls : List RootDecl} {root : Root}
    (hroot : root ∈ (registerAll decls).roots) :
    ∃ before decl after, decls = before ++ decl :: after ∧
      ((registerAll before).registerRoot decl).2 = .ok () ∧
      ((registerAll before).registerRoot decl).1.roots = (registerAll before).roots ++ [root] ∧
      root.Agrees (registerAll decls) decl := by
  obtain ⟨before, decl, after, draft, h⟩ := exists_origin hroot
  exact ⟨before, decl, after, h.split, h.accepted, h.roots, h.agrees⟩

/-- A root `b` with a map of groups that can be overridden, and a map of maps. -/
def nestedDecl : RootDecl where
  group := ⟨"BConfig", false,
    [⟨"m", .element, none, .map (some .string) (some (.group ⟨"G", true,
        [⟨"v", .element, some "1", .primitive .int, false, none⟩]⟩)), true, none⟩,
      ⟨"n", .element, none, .map (some .string) (some (.map (some .string)
        (some (.object .string)))), false, none⟩]⟩
  name := .explicit "b"
  phase := .runTime

/-- The leaf that the refused declaration has left behind comes before those of the root. -/
theorem registerAll_agrees_nestedDecl :
    ∃ root, (registerAll [clashingDecl, nestedDecl]).roots = [root] ∧
      root.tree.leafIds = [1, 2] ∧
      ∃ before decl after, [clashingDecl, nestedDecl] = before ++ decl :: after ∧
        ((registerAll before).registerRoot decl).2 = .ok () ∧
        ((registerAll before).registerRoot decl).1.roots = (registerAll before).roots ++ [root] ∧
        root.Agrees (registerAll [clashingDecl, nestedDecl]) decl := by
  have hids : (registerAll [clashingDecl, nestedDecl]).roots.map (·.tree.leafIds) = [[1, 2]] := by
    decide +kernel
  obtain ⟨root, hroots, hleaves⟩ := List.map_eq_singleton_iff.mp hids
  have hroot : root ∈ (registerAll [clashingDecl, nestedDecl]).roots := by
    rw [hroots]
    exact List.mem_singleton.mpr rfl
  exact ⟨root, hroots, hleaves, registerAll_agrees hroot⟩

end PropertyBinding

import PropertyBinding.Proofs.Agreement
import PropertyBinding.Proofs.Stages

/-!
# The graph of declared defaults

What a definition realizes for a root before anything is loaded is said by the root's declaration
alone: every attribute that is a leaf has the value of its default, maps are empty, and groups are
nested as declared (`GroupDecl.graph`). Drafting puts the defaults into the table of leaves and the
indices of the leaves into the tree; the default of the tree over this table, or over one that has
grown since, is the declared graph again (`draftGroup_graph`).

So a definition that accepts a declaration realizes its graph (`Built.realize_graph`).
-/

namespace PropertyBinding

open Definition

/-! ### Declared graphs -/

/-- The kind and the default text of an attribute of this shape, if it is a leaf. -/
def Shape.leaf? (default : Default) : Shape → Option (LeafKind × String)
  | .primitive type => type.leafKind?.map fun kind =>
    (kind, Default.orCanonical default (if type = .boolean then "false" else "0"))
  | .list element => element.map fun type => (.objectList type, Default.orCanonical default "")
  | .optional element =>
    element.map fun type => (.optionalObject type, Default.orCanonical default "")
  | .object type => some (.object type, Default.orCanonical default type.canonicalDefault)
  | .group _ | .map _ _ => none

/-- The value of a leaf's default. One that cannot be read has none. -/
def readDefault (leaf : Option (LeafKind × String)) : Value :=
  (leaf.bind fun x => (Convert.value x.1 x.2).toOption).getD .unset

mutual

/-- The group of the defaults that a group declares. -/
def GroupDecl.graph : GroupDecl → Group
  | ⟨typeName, _, fields⟩ => acceptDeclared (.empty typeName) fields

/-- A group that has accepted the declared defaults of fields, one after the other. -/
def acceptDeclared (g : Group) : List FieldDecl → Group
  | [] => g
  | ⟨ident, _, default, shape, _, _⟩ :: rest =>
    acceptDeclared (g.accept ident (shape.graph default)) rest

/-- The value of the defaults within a shape. Maps are empty. -/
def Shape.graph (default : Default) : Shape → Value
  | .group decl => .group decl.graph
  | .map _ _ => .map []
  | .primitive type => readDefault ((Shape.primitive type).leaf? default)
  | .list element => readDefault ((Shape.list element).leaf? default)
  | .optional element => readDefault ((Shape.optional element).leaf? default)
  | .object type => readDefault ((Shape.object type).leaf? default)

end

section Leaf

variable {shape : Shape} {default : Default} {kind : LeafKind} {text : String} {value : Value}

/-- The graph of a leaf is what its default reads as. -/
theorem Shape.graph_leaf (h : shape.leaf? default = some (kind, text))
    (hvalue : Convert.value kind text = .ok value) : shape.graph default = value := by
  have hread : readDefault (shape.leaf? default) = value := by
    rw [readDefault, h, Option.bind_some, hvalue]
    rfl
  cases shape with
  | group decl | map key inner => cases h
  | _ =>
    rw [Shape.graph]
    exact hread

/-- An attribute that is a leaf asks for one leaf. -/
theorem Shape.requests_leaf (h : shape.leaf? default = some (kind, text)) (key : List String)
    (overridable : Bool) (ident : String) (doc : Option String) :
    shape.requests key overridable ident doc default =
      [⟨ident, String.intercalate "." key, kind, text, doc, overridable⟩] := by
  cases shape with
  | group decl | map key inner => cases h
  | primitive type | list element | optional element =>
    obtain ⟨_, hsome, heq⟩ := Option.map_eq_some_iff.mp h
    obtain ⟨rfl, rfl⟩ := Prod.mk.inj heq
    rw [Shape.requests, hsome]
    rfl
  | object type =>
    obtain ⟨rfl, rfl⟩ := Prod.mk.inj (Option.some.inj h)
    rw [Shape.requests]

/-- An attribute that is a leaf obeys the rules. -/
theorem Shape.admissible_leaf (h : shape.leaf? default = some (kind, text)) (phase : Phase) :
    shape.Admissible phase default := by
  cases shape with
  | group decl | map key inner => cases h
  | primitive type =>
    obtain ⟨_, hkind, -⟩ := Option.map_eq_some_iff.mp h
    rw [Shape.Admissible]
    rcases leafKind?_cases type with ⟨hnone, -⟩ | ⟨_, -, hbindable⟩
    · cases hkind.symm.trans hnone
    · exact hbindable
  | list element | optional element =>
    obtain ⟨_, rfl, -⟩ := Option.map_eq_some_iff.mp h
    rw [Shape.Admissible]
    rfl
  | object type =>
    rw [Shape.Admissible]
    trivial

end Leaf

/-! ### Drafting -/

section Draft

variable {ctx : Drafting} {draft after : Draft} {leaves : List Leaf}

theorem Settles.leaves_prefix {α : Type} {ok : Prop} {qs : List LeafRequest}
    {lays : α → Nat → Nat → List Leaf → List Value → Prop} {a : α}
    (h : Settles ctx draft ok qs lays (.ok (a, after))) : draft.leaves <+: after.leaves := by
  obtain ⟨-, ls, ts, rfl, -⟩ := h
  exact List.prefix_append _ _

/-- A drafted leaf has the value of its default, over any table that holds what has been
drafted. -/
theorem draftLeaf_default {site : Site} {ident : String} {doc : Option String} {kind : LeafKind}
    {text : String} {node : Node}
    (h : draftLeaf ctx site ident doc kind text draft = .ok (node, after))
    (hleaves : ctx.definition.leaves ++ after.leaves <+: leaves) :
    Convert.value kind text = .ok (defaultOver leaves node) := by
  rw [draftLeaf] at h
  split_ifs at h
  dsimp only at h
  split at h
  · cases h
  rename_i value hvalue
  obtain ⟨rfl, rfl⟩ := Prod.mk.inj (Except.ok.inj h)
  obtain ⟨rest, rfl⟩ := hleaves
  rw [defaultOver, ← List.append_assoc, List.append_assoc, List.getElem?_append_right (by simp),
    List.length_append, Nat.sub_self]
  exact hvalue

/-- An attribute that is a leaf is drafted as one. -/
theorem draftShape_leaf {shape : Shape} {default : Default} {kind : LeafKind} {text : String}
    (h : shape.leaf? default = some (kind, text)) (site : Site) (ident : String)
    (doc : Option String) : draftShape ctx site ident doc default shape draft =
      draftLeaf ctx site ident doc kind text draft := by
  cases shape with
  | group decl | map key inner => cases h
  | primitive type =>
    obtain ⟨_, hkind, heq⟩ := Option.map_eq_some_iff.mp h
    obtain ⟨rfl, rfl⟩ := Prod.mk.inj heq
    rw [draftShape, hkind]
  | list element | optional element =>
    obtain ⟨_, rfl, heq⟩ := Option.map_eq_some_iff.mp h
    obtain ⟨rfl, rfl⟩ := Prod.mk.inj heq
    rw [draftShape]
  | object type =>
    obtain ⟨rfl, rfl⟩ := Prod.mk.inj (Option.some.inj h)
    rw [draftShape]

/-- A shape that can be drafted is a group, a map or a leaf. -/
theorem Shape.cases_of_draft {site : Site} {ident : String} {doc : Option String}
    {default : Default} {shape : Shape} {node : Node}
    (h : draftShape ctx site ident doc default shape draft = .ok (node, after)) :
    (∃ decl, shape = .group decl) ∨ (∃ key value, shape = .map key value) ∨
      ∃ kind text, shape.leaf? default = some (kind, text) := by
  cases shape with
  | group decl => exact Or.inl ⟨decl, rfl⟩
  | map key value => exact Or.inr (Or.inl ⟨key, value, rfl⟩)
  | primitive type =>
    rw [draftShape] at h
    split at h
    · cases h
    · rename_i kind hkind
      exact Or.inr (Or.inr ⟨kind, _, by rw [Shape.leaf?, hkind]; rfl⟩)
  | list element | optional element =>
    cases element with
    | none =>
      rw [draftShape] at h
      cases h
    | some type => exact Or.inr (Or.inr ⟨_, _, rfl⟩)
  | object type => exact Or.inr (Or.inr ⟨_, _, rfl⟩)

mutual

/-- **The default of a drafted group** is the graph that it declares, over any table that holds what
has been drafted. -/
theorem draftGroup_graph : (decl : GroupDecl) → ∀ {base : List String} {path : List PathStep}
    {overridable : Bool} {draft after : Draft} {g : GroupNode},
    draftGroup ctx base path overridable decl draft = .ok (g, after) →
      ctx.definition.leaves ++ after.leaves <+: leaves → defaultGroupOver leaves g = decl.graph
  | ⟨typeName, _, fields⟩, base, path, overridable, draft, after, g, h, hleaves => by
    rw [draftGroup] at h
    obtain ⟨⟨nodes, drafted⟩, hfields, h⟩ := ok_of_bind_eq_ok h
    obtain ⟨rfl, rfl⟩ := Prod.mk.inj (Except.ok.inj h)
    rw [defaultGroupOver, GroupDecl.graph]
    exact draftFields_graph fields hfields hleaves _

/-- A group accepts the defaults of drafted fields as declared. -/
theorem draftFields_graph : (fields : List FieldDecl) → ∀ {base : List String}
    {path : List PathStep} {overridable : Bool} {typeName : String} {draft after : Draft}
    {nodes : List (String × Node)},
    draftFields ctx base path overridable typeName fields draft = .ok (nodes, after) →
      ctx.definition.leaves ++ after.leaves <+: leaves →
        ∀ g : Group, acceptDefaults leaves g nodes = acceptDeclared g fields
  | [], base, path, overridable, typeName, draft, after, nodes, h, _, g => by
    rw [draftFields] at h
    obtain ⟨rfl, -⟩ := Prod.mk.inj (Except.ok.inj h)
    rw [acceptDefaults, acceptDeclared]
  | ⟨ident, name, default, shape, own, doc⟩ :: rest, base, path, overridable, typeName, draft,
      after, nodes, h, hleaves, g => by
    rw [draftFields] at h
    obtain ⟨⟨⟨_, node⟩, drafted⟩, hfield, h⟩ := ok_of_bind_eq_ok h
    obtain ⟨⟨below, drafted'⟩, hrest, h⟩ := ok_of_bind_eq_ok h
    obtain ⟨rfl, rfl⟩ := Prod.mk.inj (Except.ok.inj h)
    -- What the later fields draft comes behind the leaves of the first one.
    have hsettles := draftFields_settles ctx base path overridable typeName rest
      (fieldsEach_true rest) drafted
    rw [hrest] at hsettles
    have hfirst : ctx.definition.leaves ++ drafted.leaves <+: leaves :=
      ((List.prefix_append_right_inj _).mpr hsettles.leaves_prefix).trans hleaves
    rw [draftField] at hfield
    split at hfield
    · cases hfield
    obtain ⟨⟨below, drafted⟩, hshape, hfield⟩ := ok_of_bind_eq_ok hfield
    obtain ⟨heq, rfl⟩ := Prod.mk.inj (Except.ok.inj hfield)
    obtain ⟨rfl, rfl⟩ := Prod.mk.inj heq
    rw [acceptDefaults, acceptDeclared, draftShape_graph shape hshape hfirst]
    exact draftFields_graph rest hrest hleaves _

/-- The default of a drafted attribute is the graph of its shape. -/
theorem draftShape_graph : (shape : Shape) → ∀ {site : Site} {ident : String}
    {doc : Option String} {default : Default} {draft after : Draft} {node : Node},
    draftShape ctx site ident doc default shape draft = .ok (node, after) →
      ctx.definition.leaves ++ after.leaves <+: leaves →
        defaultOver leaves node = shape.graph default
  | shape, site, ident, doc, default, draft, after, node, h, hleaves => by
    rcases Shape.cases_of_draft h with ⟨decl, hshape⟩ | ⟨key, value, hshape⟩ | ⟨kind, text, hleaf⟩
    · match shape, hshape with
      | .group decl, _ =>
        rw [draftShape] at h
        split at h
        · cases h
        obtain ⟨⟨g, drafted⟩, hgroup, h⟩ := ok_of_bind_eq_ok h
        obtain ⟨rfl, rfl⟩ := Prod.mk.inj (Except.ok.inj h)
        rw [defaultOver, Shape.graph, draftGroup_graph decl hgroup hleaves]
    · subst hshape
      have hdraws := draftShape_draws _ h
      cases value with
      | none =>
        rw [Shape.Draws] at hdraws
        exact hdraws.elim
      | some value =>
        rw [Shape.Draws] at hdraws
        obtain ⟨below, rfl, -⟩ := hdraws
        rw [defaultOver, Shape.graph]
    · rw [draftShape_leaf hleaf] at h
      exact (Shape.graph_leaf hleaf (draftLeaf_default h hleaves)).symm

end

end Draft

/-! ### Realizing -/

/-- What drafting a root comes to, if it succeeds. -/
theorem Definition.draftRoot_tree {d : Definition} {decl : RootDecl} {root : Root} {draft : Draft}
    (h : d.draftRoot decl = .ok (root, draft)) : ∃ ctx : Drafting, ctx.definition = d ∧
      draftGroup ctx (Text.split '.' root.rootName) [] false decl.group {} =
        .ok (root.tree, draft) := by
  rw [draftRoot] at h
  dsimp only at h
  split at h
  · cases h
  split at h
  · cases h
  split at h
  · cases h
  split at h
  · cases h
  obtain ⟨⟨tree, drafted⟩, hdraft, h⟩ := ok_of_bind_eq_ok h
  obtain ⟨rfl, rfl⟩ := Prod.mk.inj (Except.ok.inj h)
  exact ⟨_, rfl, hdraft⟩

/-- **A definition realizes the declared graph** of every root that it accepts. -/
theorem Built.realize_graph {d d' : Definition} (h : Built (fun _ => True) d) {decl : RootDecl}
    (accepted : d.registerRoot decl = (d', .ok ())) {stage : Stage}
    (hstage : stage.includes decl.phase = true) :
    (d'.realize stage).instanceOf decl.group.typeName = .ok decl.group.graph := by
  have hbuilt : Built (fun _ => True) d' := .register h trivial accepted
  have hsound := hbuilt.sound_any
  rcases registerRoot_cases d decl decl.group.each_true with
    ⟨e, hresult, -, -⟩ | ⟨root, draft, hdraft, hroot, hcommit⟩
  · cases (Prod.mk.inj (accepted.symm.trans hresult)).2
  rcases hcommit with ⟨_, _, _, _, -, hresult, -⟩ | ⟨d'', hresult, hcommitted, -⟩
  · cases (Prod.mk.inj (accepted.symm.trans hresult)).2
  obtain rfl := (Prod.mk.inj (accepted.symm.trans hresult)).1
  obtain ⟨ctx, rfl, htree⟩ := draftRoot_tree hdraft
  -- Committing has put the leaves of the draft behind those that were there.
  have hgraph : defaultGroupOver d''.leaves root.tree = decl.group.graph :=
    draftGroup_graph decl.group htree (hcommitted.leaves ▸ List.prefix_refl _)
  have hmem : root ∈ d''.roots ++ [root] := List.mem_append_right _ (List.mem_singleton_self root)
  rw [← hroot.phase] at hstage
  refine ((knowsTypes_realize hsound.names (hsound.typeNames hbuilt.named)
    stage).instanceOf_iff).mpr ⟨root, hmem, hroot.typeName, ?_⟩
  rw [realize_get?_eq hsound.names hmem hstage, ← hgraph]
  rfl

end PropertyBinding

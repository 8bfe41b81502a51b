import PropertyBinding.Proofs.Layout
import PropertyBinding.Proofs.Slots

/-!
# Values that follow a descriptor tree

Descriptor trees have addresses as realized values have (`Node.at?`). Where a group declares one
attribute twice, the last declaration counts, as it does for the default of the group: at every
address of the default of a node stands the default of the node at this address
(`exists_node_of_defaultOver_at?`).

A value fits a node if no group below it lacks an attribute and every map is one (`Fits`). A write
along a way through a tree without repeated attributes keeps a value fitting (`Way.write_fits`).
-/

namespace PropertyBinding

open Definition

/-! ### Addresses in a tree -/

/-- The last declared attribute with an identifier. -/
def GroupNode.attribute? (g : GroupNode) (ident : String) : Option Node :=
  g.fields.reverse.lookup ident

/-- The node for a slot of the values of a node. -/
def Node.slot? : Node → SlotStep → Option Node
  | .group g, .field ident => g.attribute? ident
  | .map value, .entry _ => some value
  | _, _ => none

/-- The node at an address. -/
def Node.at? (node : Node) : List SlotStep → Option Node
  | [] => some node
  | s :: rest => (node.slot? s).bind fun child => child.at? rest

@[simp]
theorem Node.at?_nil (node : Node) : node.at? [] = some node := rfl

@[simp]
theorem Node.at?_cons (node : Node) (s : SlotStep) (rest : List SlotStep) :
    node.at? (s :: rest) = (node.slot? s).bind fun child => child.at? rest := rfl

/-- An attribute declared once is the last one with its identifier. -/
theorem GroupNode.attribute?_eq_of_mem {g : GroupNode} {ident : String} {child : Node}
    (hnodup : (g.fields.map (·.1)).Nodup) (h : (ident, child) ∈ g.fields) :
    g.attribute? ident = some child := by
  obtain ⟨before, after, hsplit⟩ := List.append_of_mem h
  rw [hsplit, List.map_append, List.map_cons] at hnodup
  rw [GroupNode.attribute?, hsplit, List.reverse_append, List.reverse_cons, List.append_assoc,
    List.lookup_append]
  have hafter : after.reverse.lookup ident = none := by
    rw [List.lookup_eq_none_iff]
    intro p hp
    have hne : ident ∉ after.map (·.1) :=
      (List.nodup_cons.mp (List.nodup_append.mp hnodup).2.1).1
    refine bne_iff_ne.mpr ?_
    rintro rfl
    exact hne (List.mem_map_of_mem (List.mem_reverse.mp hp))
  rw [hafter]
  simp

/-! ### Defaults -/

/-- Accepting the defaults of attributes, a group gets that of the last one with an identifier. -/
theorem acceptDefaults_get? (leaves : List Leaf) (g : Group) (fields : List (String × Node))
    (ident : String) : (acceptDefaults leaves g fields).get? ident =
      ((fields.reverse.lookup ident).map (defaultOver leaves)).or (g.get? ident) := by
  induction fields generalizing g with
  | nil => rw [acceptDefaults]; rfl
  | cons field rest ih =>
    obtain ⟨name, child⟩ := field
    rw [acceptDefaults, ih, List.reverse_cons, List.lookup_append]
    cases rest.reverse.lookup ident with
    | some last => rfl
    | none =>
      by_cases h : ident = name
      · subst h
        simpa using Group.get?_accept_self _ _ _
      · have hne : (ident == name) = false := by simpa using h
        simpa [List.lookup_cons, hne] using Group.get?_accept_of_ne h _ _

/-- The default of a group has the defaults of its attributes in its slots. -/
theorem defaultOver_group_slot? (leaves : List Leaf) (g : GroupNode) (ident : String) :
    (defaultOver leaves (.group g)).slot? (.field ident) =
      (g.attribute? ident).map (defaultOver leaves) := by
  obtain ⟨typeName, fields⟩ := g
  rw [defaultOver, defaultGroupOver, Value.slot?, acceptDefaults_get?]
  exact Option.or_none

section Defaults

variable {leaves : List Leaf}

/-- The default of a leaf is a scalar. -/
theorem isScalar_defaultOver (hscalar : ∀ leaf ∈ leaves, leaf.defaultValue.IsScalar) (id : Nat) :
    (defaultOver leaves (.leaf id)).IsScalar := by
  rw [defaultOver]
  cases hleaf : leaves[id]? with
  | none => trivial
  | some leaf => exact hscalar leaf (List.mem_of_getElem? hleaf)

/-- A slot of the default of a node holds the default of the node for the slot. -/
theorem exists_node_of_defaultOver_slot?
    (hscalar : ∀ leaf ∈ leaves, leaf.defaultValue.IsScalar) {node : Node} {s : SlotStep} {x : Value}
    (h : (defaultOver leaves node).slot? s = some x) :
    ∃ child, node.slot? s = some child ∧ x = defaultOver leaves child := by
  cases node with
  | group g =>
    cases s with
    | field ident =>
      rw [defaultOver_group_slot?] at h
      obtain ⟨child, hchild, rfl⟩ := Option.map_eq_some_iff.mp h
      exact ⟨child, hchild, rfl⟩
    | entry key =>
      rw [defaultOver] at h
      cases h
  | map value =>
    rw [defaultOver] at h
    cases s <;> cases h
  | leaf id =>
    rw [(isScalar_defaultOver hscalar id).slot? s] at h
    cases h

/-- **At every address of the default of a node** stands the default of the node there. -/
theorem exists_node_of_defaultOver_at?
    (hscalar : ∀ leaf ∈ leaves, leaf.defaultValue.IsScalar) {address : List SlotStep} {node : Node}
    {x : Value} (h : (defaultOver leaves node).at? address = some x) :
    ∃ n, node.at? address = some n ∧ x = defaultOver leaves n := by
  induction address generalizing node with
  | nil => exact ⟨node, rfl, (Option.some.inj h).symm⟩
  | cons s rest ih =>
    obtain ⟨inner, hinner, hrest⟩ := Option.bind_eq_some_iff.mp h
    obtain ⟨child, hchild, rfl⟩ := exists_node_of_defaultOver_slot? hscalar hinner
    obtain ⟨n, hn, rfl⟩ := ih hrest
    exact ⟨n, by rw [Node.at?_cons, hchild, Option.bind_some, hn], rfl⟩

end Defaults

/-! ### Fitting -/

/-- Whether the value itself is what a write needs it to be: a group with every attribute, or a
map. Leaf slots may hold anything. -/
def Node.Suits : Node → Value → Prop
  | .group g, v => ∀ ident, (g.attribute? ident).isSome → (v.slot? (.field ident)).isSome
  | .map _, v => ∃ entries, v = .map entries
  | .leaf _, _ => True

/-- Whether a value suits its node at every address. -/
def Fits (node : Node) (v : Value) : Prop :=
  ∀ address n x, node.at? address = some n → v.at? address = some x → n.Suits x

theorem Fits.suits {node : Node} {v : Value} (h : Fits node v) : node.Suits v := h [] node v rfl rfl

/-- What stands in a slot of a value that fits, fits the node for the slot. -/
theorem Fits.slot {node child : Node} {v inner : Value} {s : SlotStep} (h : Fits node v)
    (hchild : node.slot? s = some child) (hinner : v.slot? s = some inner) : Fits child inner := by
  intro address n x hn hx
  refine h (s :: address) n x ?_ ?_
  · rw [Node.at?_cons, hchild, Option.bind_some, hn]
  · rw [Value.at?_cons, hinner, Option.bind_some, hx]

theorem fits_leaf (id : Nat) (v : Value) : Fits (.leaf id) v := by
  intro address n x hn _
  cases address with
  | nil =>
    obtain rfl := Option.some.inj hn
    trivial
  | cons s rest => cases hn

/-- Filling a slot with what fits keeps a value fitting. -/
theorem Fits.put {node child : Node} {v inner : Value} {s : SlotStep} (h : Fits node v)
    (htakes : v.Takes s) (hchild : node.slot? s = some child) (hinner : Fits child inner) :
    Fits node (v.put s inner) := by
  intro address n x hn hx
  cases address with
  | nil =>
    obtain rfl := Option.some.inj hn
    obtain rfl := Option.some.inj hx
    have hsuits := h.suits
    cases node with
    | group g =>
      intro ident hident
      by_cases hs : SlotStep.field ident = s
      · rw [hs, Value.slot?_put_self htakes]
        rfl
      · rw [Value.slot?_put_of_ne hs]
        exact hsuits ident hident
    | map value =>
      obtain ⟨entries, rfl⟩ := hsuits
      cases s with
      | field ident => cases htakes
      | entry key => exact ⟨_, rfl⟩
    | leaf id => trivial
  | cons other rest =>
    by_cases hs : other = s
    · subst hs
      rw [Value.at?_put_self htakes] at hx
      rw [Node.at?_cons, hchild, Option.bind_some] at hn
      exact hinner rest n x hn hx
    · rw [Value.at?_put_of_ne hs] at hx
      exact h (other :: rest) n x hn hx

/-- The default of a node fits it. -/
theorem fits_defaultOver {leaves : List Leaf}
    (hscalar : ∀ leaf ∈ leaves, leaf.defaultValue.IsScalar) (node : Node) :
    Fits node (defaultOver leaves node) := by
  intro address n x hn hx
  obtain ⟨n', hn', rfl⟩ := exists_node_of_defaultOver_at? hscalar hx
  obtain rfl : n = n' := Option.some.inj (hn.symm.trans hn')
  cases n with
  | group g =>
    intro ident hident
    rw [defaultOver_group_slot?, Option.isSome_map]
    exact hident
  | map value => exact ⟨[], by rw [defaultOver]⟩
  | leaf id => trivial

/-! ### Writing along a way -/

/-- In a tree without repeated attributes, every attribute is the one found by its identifier. -/
theorem Node.Each.attribute?_eq {g : GroupNode} {ident : String} {child : Node}
    (h : (Node.group g).Each List.Nodup) (hmem : (ident, child) ∈ g.fields) :
    g.attribute? ident = some child ∧ child.Each List.Nodup := by
  obtain ⟨typeName, fields⟩ := g
  rw [Node.Each, GroupNode.Each] at h
  exact ⟨GroupNode.attribute?_eq_of_mem h.1 hmem, nodesEach_iff.mp h.2 _ hmem⟩

section Way

variable {leaves : List Leaf} {templates : List Value} {piece : String → Prop} {node child : Node}
  {key full : List String} {steps : List PathStep} {id : Nat}

/-- A way leads to its leaf, whatever the map keys. -/
theorem Way.at?_eq (h : Way leaves templates piece node key steps full id)
    (hnodup : node.Each List.Nodup) {keys : List String} {address : List SlotStep}
    (haddress : fillPath steps keys = some address) : node.at? address = some (.leaf id) := by
  induction h generalizing keys address with
  | leaf key id =>
    cases keys with
    | nil =>
      obtain rfl := Option.some.inj haddress
      rfl
    | cons k keys => cases haddress
  | field mem _ _ ih =>
    obtain ⟨below, hbelow, rfl⟩ := Option.map_eq_some_iff.mp haddress
    obtain ⟨hchild, heach⟩ := hnodup.attribute?_eq mem
    rw [Node.at?_cons, Node.slot?, hchild, Option.bind_some]
    exact ih heach hbelow
  | entry _ _ ih =>
    cases keys with
    | nil => cases haddress
    | cons k keys =>
      obtain ⟨below, hbelow, rfl⟩ := Option.map_eq_some_iff.mp haddress
      rw [Node.at?_cons, Node.slot?, Option.bind_some]
      rw [Node.Each] at hnodup
      exact ih hnodup hbelow

/-- Writing along a way keeps a value fitting, whatever map keys there are. -/
theorem Way.write_fits (h : Way leaves templates piece node key steps full id)
    (hnodup : node.Each List.Nodup) (hscalar : ∀ leaf ∈ leaves, leaf.defaultValue.IsScalar)
    {keyAt : Nat → Option String} {value slot slot' : Value} {written : Bool}
    (hfits : Fits node slot)
    (hwrite : slot.write (fun template => templates[template]?) keyAt value steps =
      .ok (slot', written)) : Fits node slot' := by
  induction h generalizing slot slot' with
  | leaf key id => exact fits_leaf id slot'
  | @field g ident child _ _ _ _ _ mem _ _ ih =>
    obtain ⟨hattribute, heach⟩ := hnodup.attribute?_eq mem
    rcases Value.write_cons_ok hwrite with
      rfl | ⟨s, inner, inner', haddress, htakes, hslot, hinner, rfl⟩
    · exact hfits
    cases haddress with
    | field _ _ =>
      have hchild : (Node.group g).slot? (.field ident) = some child := hattribute
      rcases hslot with hslot | ⟨-, segment, entry, heq, -⟩
      · exact hfits.put htakes hchild (ih heach (hfits.slot hchild hslot) hinner)
      · cases heq
  | @entry child template _ _ _ _ template_eq _ ih =>
    rw [Node.Each] at hnodup
    rcases Value.write_cons_ok hwrite with
      rfl | ⟨s, inner, inner', haddress, htakes, hslot, hinner, rfl⟩
    · exact hfits
    cases haddress with
    | @entry _ _ _ k _ _ _ =>
      have hchild : (Node.map child).slot? (.entry k) = some child := rfl
      rcases hslot with hslot | ⟨-, segment, entry, heq, htemplate⟩
      · exact hfits.put htakes hchild (ih hnodup (hfits.slot hchild hslot) hinner)
      · -- The entry is made from the template, which is the default of the values and fits them.
        obtain ⟨-, rfl⟩ := PathStep.key.inj heq
        obtain rfl := Option.some.inj (htemplate.symm.trans template_eq)
        exact hfits.put htakes hchild (ih hnodup (fits_defaultOver hscalar child) hinner)

end Way

end PropertyBinding

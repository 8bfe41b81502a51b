import PropertyBinding.Proofs.Shapes

/-!
# The templates that writes ask for

A write that comes to a missing map entry asks for the template that its path names for the map
(`Asks`); it is the only thing that can end a write without a result (`Value.write_eq_error_iff`).

A path serves a node if every template that it names for a map is the default of the map's values
(`Node.Serves`). Writes along paths that serve keep the values of a node free of groups and maps
that do not belong there (`Follows`, `Value.write_follows`), so whatever they ask for is right
(`Asks.template_eq`). Conversely, along a path that does not serve a node, a write into the default
of the node asks for a wrong template, or one that does not exist (`exists_asks_of_not_serves`).
-/

namespace PropertyBinding

open Definition

/-! ### Asking for a template -/

/-- Whether writing along a path into a value asks for a template, for the map at an address. -/
inductive Asks (template : Nat → Option Value) (key : Nat → Option String) :
    Value → List PathStep → List SlotStep → Nat → Prop where
  /-- The map has no entry under the key. -/
  | missing {entries : Entries Value} {segment entry : Nat} {k : String} {rest : List PathStep}
      (key_eq : key segment = some k) (missing : entries.lookup k = none) :
      Asks template key (.map entries) (.key segment entry :: rest) [] entry
  /-- The write asks below an entry, which may have just been made. -/
  | entry {entries : Entries Value} {segment entry asked : Nat} {k : String} {inner : Value}
      {rest : List PathStep} {address : List SlotStep} (key_eq : key segment = some k)
      (inner_eq : (entries.lookup k).or (template entry) = some inner)
      (below : Asks template key inner rest address asked) :
      Asks template key (.map entries) (.key segment entry :: rest) (.entry k :: address) asked
  /-- The write asks below an attribute. -/
  | field {g : Group} {ident : String} {asked : Nat} {inner : Value} {rest : List PathStep}
      {address : List SlotStep} (inner_eq : g.get? ident = some inner)
      (below : Asks template key inner rest address asked) :
      Asks template key (.group g) (.field ident :: rest) (.field ident :: address) asked

/-- **A write ends without a result** exactly if it asks for a template that does not exist. -/
theorem Value.write_eq_error_iff {template : Nat → Option Value} {key : Nat → Option String}
    {value : Value} {path : List PathStep} {slot : Value} {e : BindError} :
    slot.write template key value path = .error e ↔
      ∃ address asked, Asks template key slot path address asked ∧ template asked = none ∧
        e = .missingTemplate asked := by
  induction path generalizing slot with
  | nil =>
    rw [Value.write_nil]
    constructor
    · intro h
      cases h
    · rintro ⟨_, _, hasks, -⟩
      cases hasks
  | cons step rest ih =>
    constructor
    · intro h
      cases step with
      | field ident =>
        cases slot with
        | group g =>
          cases hget : g.get? ident with
          | none =>
            rw [Value.write, Group.writeBelow, hget] at h
            cases h
          | some inner =>
            rw [Value.write_field (v := .group g) hget, map_eq_error_iff] at h
            obtain ⟨address, asked, hasks, hnone, rfl⟩ := ih.mp h
            exact ⟨_, asked, .field hget hasks, hnone, rfl⟩
        | _ => simp [Value.write] at h
      | key segment entry =>
        cases slot with
        | map entries =>
          cases hkey : key segment with
          | none =>
            rw [Value.write, hkey] at h
            cases h
          | some k =>
            cases hor : (List.lookup k entries).or (template entry) with
            | none =>
              rw [Value.write, hkey] at h
              simp only [hor] at h
              obtain ⟨hlookup, htemplate⟩ := Option.or_eq_none_iff.mp hor
              exact ⟨[], entry, .missing hkey hlookup, htemplate, (Except.error.inj h).symm⟩
            | some inner =>
              rw [Value.write_entry hkey hor, map_eq_error_iff] at h
              obtain ⟨address, asked, hasks, hnone, rfl⟩ := ih.mp h
              exact ⟨_, asked, .entry hkey hor hasks, hnone, rfl⟩
        | _ => simp [Value.write] at h
    · rintro ⟨address, asked, hasks, hnone, rfl⟩
      cases hasks with
      | missing key_eq missing =>
        rw [Value.write, key_eq]
        simp only [missing, Option.none_or, hnone]
      | entry key_eq inner_eq below =>
        rw [Value.write_entry key_eq inner_eq, map_eq_error_iff]
        exact ih.mpr ⟨_, asked, below, hnone, rfl⟩
      | field inner_eq below =>
        rw [Value.write_field (v := .group _) inner_eq, map_eq_error_iff]
        exact ih.mpr ⟨_, asked, below, hnone, rfl⟩

/-! ### Values without strange groups and maps -/

/-- Whether a node is of the kind of a group or map. -/
def Node.Hosts : Node → Value → Prop
  | .group _, .group _ | .map _, .map _ => True
  | _, _ => False

/-- Whether every slot of a value has a node, and every group and map in it one of its kind.
Scalars may stand anywhere. -/
def Follows (node : Node) (v : Value) : Prop :=
  ∀ address x, v.at? address = some x →
    ∃ n, node.at? address = some n ∧ (x.IsScalar ∨ n.Hosts x)

section Follows

variable {node child : Node} {v inner : Value} {s : SlotStep}

theorem Value.Takes.not_isScalar (h : v.Takes s) : ¬v.IsScalar := by
  cases v with
  | group g => exact id
  | map entries => exact id
  | _ => cases s <;> cases h

/-- A map is hosted by a node with entries. -/
theorem Node.Hosts.exists_entry {key : String} (h : node.Hosts v) (htakes : v.Takes (.entry key)) :
    ∃ child, node.slot? (.entry key) = some child := by
  cases node with
  | map value => exact ⟨value, rfl⟩
  | group g => cases v <;> first | exact False.elim htakes | exact False.elim h
  | leaf id => exact False.elim h

/-- Filling a slot does not change the kind. -/
theorem Node.Hosts.put (h : node.Hosts v) (s : SlotStep) (inner : Value) :
    node.Hosts (v.put s inner) := by
  cases v with
  | group g => cases node <;> cases s <;> exact h
  | map entries => cases node <;> cases s <;> exact h
  | _ => cases node <;> exact False.elim h

/-- A value with slots is hosted by its node. -/
theorem Follows.hosts (h : Follows node v) (htakes : v.Takes s) : node.Hosts v := by
  obtain ⟨n, hn, hscalar | hhosts⟩ := h [] v rfl
  · exact absurd hscalar htakes.not_isScalar
  · obtain rfl := Option.some.inj hn
    exact hhosts

/-- What stands in a slot follows the node for the slot. -/
theorem Follows.slot (h : Follows node v) (hinner : v.slot? s = some inner) :
    ∃ child, node.slot? s = some child ∧ Follows child inner := by
  obtain ⟨child, hchild, -⟩ := h [s] inner (by rw [Value.at?_cons, hinner]; rfl)
  rw [Node.at?_cons] at hchild
  obtain ⟨child', hslot, hchild⟩ := Option.bind_eq_some_iff.mp hchild
  obtain rfl := Option.some.inj hchild
  refine ⟨child', hslot, fun address x hx => ?_⟩
  obtain ⟨n, hn, hkind⟩ := h (s :: address) x (by rw [Value.at?_cons, hinner]; exact hx)
  rw [Node.at?_cons, hslot] at hn
  exact ⟨n, hn, hkind⟩

/-- A scalar follows every node. -/
theorem follows_of_isScalar (node : Node) (h : v.IsScalar) : Follows node v := by
  intro address x hx
  cases address with
  | nil =>
    obtain rfl := Option.some.inj hx
    exact ⟨node, rfl, Or.inl h⟩
  | cons s rest =>
    rw [Value.at?_cons, h.slot? s] at hx
    cases hx

/-- Filling a slot with what follows its node. -/
theorem Follows.put (h : Follows node v) (htakes : v.Takes s) (hchild : node.slot? s = some child)
    (hinner : Follows child inner) : Follows node (v.put s inner) := by
  intro address x hx
  cases address with
  | nil =>
    obtain rfl := Option.some.inj hx
    exact ⟨node, rfl, Or.inr ((h.hosts htakes).put s inner)⟩
  | cons other rest =>
    by_cases hs : other = s
    · subst hs
      rw [Value.at?_put_self htakes] at hx
      obtain ⟨n, hn, hkind⟩ := hinner rest x hx
      exact ⟨n, by rw [Node.at?_cons, hchild, Option.bind_some, hn], hkind⟩
    · rw [Value.at?_put_of_ne hs] at hx
      exact h (other :: rest) x hx

/-- The default of a node follows it. -/
theorem follows_defaultOver {leaves : List Leaf}
    (hscalar : ∀ leaf ∈ leaves, leaf.defaultValue.IsScalar) (node : Node) :
    Follows node (defaultOver leaves node) := by
  intro address x hx
  obtain ⟨n, hn, rfl⟩ := exists_node_of_defaultOver_at? hscalar hx
  refine ⟨n, hn, ?_⟩
  cases n with
  | group g =>
    rw [defaultOver]
    exact Or.inr trivial
  | map value =>
    rw [defaultOver]
    exact Or.inr trivial
  | leaf id => exact Or.inl (isScalar_defaultOver hscalar id)

end Follows

/-! ### Paths that serve a node -/

/-- Whether every template that a path below a node names for a map is the default of the map's
values, if names have `count` segments for the path. A step that the node does not allow is the end
of every write. -/
def Node.Serves (leaves : List Leaf) (templates : List Value) (count : Nat) :
    Node → List PathStep → Prop
  | .group g, .field ident :: rest =>
    ∀ child, g.attribute? ident = some child → child.Serves leaves templates count rest
  | .map value, .key segment template :: rest =>
    segment < count → templates[template]? = some (defaultOver leaves value) ∧
      value.Serves leaves templates count rest
  | _, _ => True

section Serves

variable {leaves : List Leaf} {templates : List Value} {count : Nat} {key : Nat → Option String}
  {node : Node} {slot : Value} {path : List PathStep}

/-- Along a path that serves a node, the rest of the path serves the node for the slot, and the
template for a map entry is the default of this node. -/
theorem Node.Serves.step {step : PathStep} {s : SlotStep} {child : Node}
    (h : node.Serves leaves templates count (step :: path))
    (hkey : ∀ segment k, key segment = some k → segment < count)
    (haddress : Addresses key [step] [s]) (hchild : node.slot? s = some child) :
    child.Serves leaves templates count path ∧
      ∀ segment entry, step = .key segment entry →
        templates[entry]? = some (defaultOver leaves child) := by
  cases haddress with
  | field ident _ =>
    cases node with
    | group g =>
      rw [Node.Serves] at h
      exact ⟨h child hchild, fun segment entry heq => nomatch heq⟩
    | map value => cases hchild
    | leaf id => cases hchild
  | entry template key_eq _ =>
    cases node with
    | map value =>
      obtain rfl := Option.some.inj hchild
      rw [Node.Serves] at h
      obtain ⟨htemplate, hrest⟩ := h (hkey _ _ key_eq)
      refine ⟨hrest, fun segment entry heq => ?_⟩
      obtain ⟨-, rfl⟩ := PathStep.key.inj heq
      exact htemplate
    | group g => cases hchild
    | leaf id => cases hchild

/-- **Writing along a path that serves** keeps a value free of strange groups and maps. -/
theorem Value.write_follows (hscalar : ∀ leaf ∈ leaves, leaf.defaultValue.IsScalar)
    (hkey : ∀ segment k, key segment = some k → segment < count) {value : Value}
    (hvalue : value.IsScalar) (hserves : node.Serves leaves templates count path)
    (hfollows : Follows node slot) {slot' : Value} {written : Bool}
    (h : slot.write (fun t => templates[t]?) key value path = .ok (slot', written)) :
    Follows node slot' := by
  induction path generalizing node slot slot' with
  | nil =>
    rw [Value.write_nil] at h
    obtain ⟨rfl, -⟩ := Prod.mk.inj (Except.ok.inj h)
    exact follows_of_isScalar node hvalue
  | cons step rest ih =>
    rcases Value.write_cons_ok h with
      rfl | ⟨s, inner, inner', haddress, htakes, hslot, hwrite, rfl⟩
    · exact hfollows
    rcases hslot with hslot | ⟨-, segment, entry, rfl, htemplate⟩
    · obtain ⟨child, hchild, hinner⟩ := hfollows.slot hslot
      obtain ⟨hrest, -⟩ := hserves.step hkey haddress hchild
      exact hfollows.put htakes hchild (ih hrest hinner hwrite)
    · obtain ⟨child, hchild⟩ : ∃ child, node.slot? s = some child := by
        -- A template has been used, so the slot is one of a map.
        cases haddress with
        | entry _ _ _ => exact (hfollows.hosts htakes).exists_entry htakes
      obtain ⟨hrest, hdefault⟩ := hserves.step hkey haddress hchild
      -- The template that has been asked for is the right one.
      obtain rfl := Option.some.inj (htemplate.symm.trans (hdefault segment entry rfl))
      exact hfollows.put htakes hchild (ih hrest (follows_defaultOver hscalar child) hwrite)

/-- **What is asked for is right**: along a path that serves, every template asked for is the
default of the values of the map that it is for. -/
theorem Asks.template_eq (hscalar : ∀ leaf ∈ leaves, leaf.defaultValue.IsScalar)
    (hkey : ∀ segment k, key segment = some k → segment < count)
    (hserves : node.Serves leaves templates count path) (hfollows : Follows node slot)
    {address : List SlotStep} {asked : Nat}
    (h : Asks (fun t => templates[t]?) key slot path address asked) :
    ∃ value, node.at? address = some (.map value) ∧
      templates[asked]? = some (defaultOver leaves value) := by
  induction h generalizing node with
  | @missing entries segment entry k rest key_eq missing =>
    have htakes : (Value.map entries).Takes (.entry k) := trivial
    have hhosts := hfollows.hosts htakes
    cases node with
    | map value =>
      rw [Node.Serves] at hserves
      exact ⟨value, rfl, (hserves (hkey _ _ key_eq)).1⟩
    | group g => cases hhosts
    | leaf id => cases hhosts
  | @entry entries segment entry asked k inner rest address key_eq inner_eq below ih =>
    have htakes : (Value.map entries).Takes (.entry k) := trivial
    obtain ⟨child, hchild⟩ := (hfollows.hosts htakes).exists_entry htakes
    obtain ⟨hrest, hdefault⟩ := hserves.step hkey (.entry entry key_eq .nil) hchild
    have hinner : Follows child inner := by
      rcases Option.or_eq_some_iff.mp inner_eq with hlookup | ⟨-, htemplate⟩
      · have hslot : (Value.map entries).slot? (.entry k) = some inner := hlookup
        obtain ⟨child', hchild', hinner⟩ := hfollows.slot hslot
        obtain rfl := Option.some.inj (hchild.symm.trans hchild')
        exact hinner
      · obtain rfl := Option.some.inj (htemplate.symm.trans (hdefault segment entry rfl))
        exact follows_defaultOver hscalar child
    obtain ⟨value, hat, hvalue⟩ := ih hrest hinner
    exact ⟨value, by rw [Node.at?_cons, hchild, Option.bind_some, hat], hvalue⟩
  | @field g ident asked inner rest address inner_eq below ih =>
    have hslot : (Value.group g).slot? (.field ident) = some inner := inner_eq
    obtain ⟨child, hchild, hinner⟩ := hfollows.slot hslot
    obtain ⟨hrest, -⟩ := hserves.step hkey (.field ident .nil) hchild
    obtain ⟨value, hat, hvalue⟩ := ih hrest hinner
    exact ⟨value, by rw [Node.at?_cons, hchild, Option.bind_some, hat], hvalue⟩

/-- **Only paths that serve are safe**: along any other path, a write into the default of the node
asks for a template that is not the default of the values of its map, if all keys are there. -/
theorem exists_asks_of_not_serves (hkey : ∀ segment < count, ∃ k, key segment = some k)
    (h : ¬node.Serves leaves templates count path) :
    ∃ address asked, Asks (fun t => templates[t]?) key (defaultOver leaves node) path address
        asked ∧
      ¬∃ value, node.at? address = some (.map value) ∧
        templates[asked]? = some (defaultOver leaves value) := by
  induction path generalizing node with
  | nil => exact absurd (by cases node <;> trivial) h
  | cons step rest ih =>
    cases step with
    | field ident =>
      cases node with
      | group g =>
        rw [Node.Serves] at h
        obtain ⟨child, hchild, hrest⟩ : ∃ child, g.attribute? ident = some child ∧
            ¬child.Serves leaves templates count rest := by
          simpa using h
        obtain ⟨address, asked, hasks, hwrong⟩ := ih hrest
        have hget := defaultOver_group_slot? leaves g ident
        rw [hchild, Option.map_some, defaultOver, Value.slot?] at hget
        refine ⟨.field ident :: address, asked, ?_, ?_⟩
        · rw [defaultOver]
          exact .field hget hasks
        · rwa [Node.at?_cons, Node.slot?, hchild, Option.bind_some]
      | map value => exact absurd trivial h
      | leaf id => exact absurd trivial h
    | key segment template =>
      cases node with
      | map value =>
        rw [Node.Serves] at h
        obtain ⟨hlt, hwrong⟩ := Classical.not_imp.mp h
        obtain ⟨k, hk⟩ := hkey segment hlt
        rw [defaultOver]
        -- The default of a map has no entries, so the write asks for a template here.
        by_cases htemplate : templates[template]? = some (defaultOver leaves value)
        · obtain ⟨address, asked, hasks, hwrong⟩ := ih fun hrest => hwrong ⟨htemplate, hrest⟩
          exact ⟨.entry k :: address, asked, .entry hk htemplate hasks, hwrong⟩
        · refine ⟨[], template, .missing hk rfl, ?_⟩
          rintro ⟨value', hat, hvalue⟩
          obtain rfl : value = value' := by simpa using hat
          exact htemplate hvalue
      | group g => exact absurd trivial h
      | leaf id => exact absurd trivial h

/-- A way through a tree without repeated attributes serves. -/
theorem Way.serves {piece : String → Prop} {name full : List String} {id : Nat}
    (h : Way leaves templates piece node name path full id) (hnodup : node.Each List.Nodup)
    (count : Nat) : node.Serves leaves templates count path := by
  induction h with
  | leaf key id => trivial
  | field mem _ _ ih =>
    obtain ⟨hattribute, heach⟩ := hnodup.attribute?_eq mem
    rw [Node.Serves]
    intro other hother
    obtain rfl := Option.some.inj (hattribute.symm.trans hother)
    exact ih heach
  | entry template_eq _ ih =>
    rw [Node.Each] at hnodup
    rw [Node.Serves]
    exact fun _ => ⟨template_eq, ih hnodup⟩

end Serves

end PropertyBinding

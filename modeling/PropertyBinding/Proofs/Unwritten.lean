import PropertyBinding.Proofs.Templates
import PropertyBinding.Proofs.Traversal

/-!
# Writes that do not come to the end of their path

A write makes the map entries on its path before it knows whether the path leads on from them. If it
does not, the value is not written, but the entries stay. What a new entry holds is a default, and a
write into a default comes to the end of the path exactly if the path leads there
(`Value.Leads`, `exists_write_defaultOver`). So a path along which the first new entry does not lead
to the end leaves one behind (`exists_write_ne_of_not_clean`).

If the first new entry does (`Value.Clean`), then so does every entry that any write along the path
makes (`Value.Leads.leadsOn`), and a value that is not written leaves no trace
(`Value.write_eq_self_of_clean`). This needs two invariants of realized values: their maps ascend
(`Value.Ascends`), so that putting back what a slot held changes nothing, and the groups and maps to
which attributes alone lead are those of the tree (`Outlined`), so that a write comes to its first
map where one into the defaults does.
-/

namespace PropertyBinding

open Definition

/-! ### Paths that lead to their end -/

/-- Whether a path leads from a value to its end: the groups on it have their attributes, and the
segments of map keys and the templates of the entries are there. Names have `count` segments for
the path. The entries that a map has do not matter. -/
def Value.Leads (templates : List Value) (count : Nat) : Value → List PathStep → Prop
  | _, [] => True
  | v, .field ident :: rest =>
    ∃ inner ∈ v.slot? (.field ident), inner.Leads templates count rest
  | v, .key segment template :: rest =>
    v.asMap?.isSome ∧ segment < count ∧
      ∃ entry ∈ templates[template]?, entry.Leads templates count rest

/-- Whether a write along a path makes no entry in the first map on it, or only one from which the
path leads to its end. -/
def Value.Clean (templates : List Value) (count : Nat) : Value → List PathStep → Prop
  | _, [] => True
  | v, .field ident :: rest =>
    ∀ inner ∈ v.slot? (.field ident), inner.Clean templates count rest
  | v, .key segment template :: rest =>
    v.asMap?.isSome → segment < count →
      ∀ entry ∈ templates[template]?, entry.Leads templates count rest

/-- Whether a path leads to its end from all entries that are made on it. -/
def LeadsOn (templates : List Value) (count : Nat) : List PathStep → Prop
  | [] => True
  | .field _ :: rest => LeadsOn templates count rest
  | .key segment template :: rest =>
    (segment < count → ∀ entry ∈ templates[template]?, entry.Leads templates count rest) ∧
      LeadsOn templates count rest

instance Value.decidableLeads (templates : List Value) (count : Nat) :
    (v : Value) → (path : List PathStep) → Decidable (v.Leads templates count path)
  | _, [] => isTrue trivial
  | v, .field ident :: rest =>
    have := fun inner : Value => inner.decidableLeads templates count rest
    inferInstanceAs (Decidable (∃ inner ∈ v.slot? (.field ident), inner.Leads templates count rest))
  | v, .key segment template :: rest =>
    have := fun entry : Value => entry.decidableLeads templates count rest
    inferInstanceAs (Decidable (v.asMap?.isSome ∧ segment < count ∧
      ∃ entry ∈ templates[template]?, entry.Leads templates count rest))

instance Value.decidableClean (templates : List Value) (count : Nat) :
    (v : Value) → (path : List PathStep) → Decidable (v.Clean templates count path)
  | _, [] => isTrue trivial
  | v, .field ident :: rest =>
    have := fun inner : Value => inner.decidableClean templates count rest
    inferInstanceAs (Decidable (∀ inner ∈ v.slot? (.field ident), inner.Clean templates count rest))
  | v, .key segment template :: rest =>
    inferInstanceAs (Decidable (v.asMap?.isSome → segment < count →
      ∀ entry ∈ templates[template]?, entry.Leads templates count rest))

section Leads

variable {templates : List Value} {count : Nat} {v : Value} {path : List PathStep}

/-- What leads to its end, does so from all entries that are made on it. -/
theorem Value.Leads.leadsOn (h : v.Leads templates count path) : LeadsOn templates count path := by
  induction path generalizing v with
  | nil => trivial
  | cons step rest ih =>
    cases step with
    | field ident =>
      obtain ⟨inner, -, hinner⟩ := h
      exact ih hinner
    | key segment template =>
      obtain ⟨-, -, entry, htemplate, hentry⟩ := h
      refine ⟨fun _ other hother => ?_, ih hentry⟩
      obtain rfl := Option.some.inj (Option.mem_def.mp htemplate ▸ Option.mem_def.mp hother)
      exact hentry

/-- What leads to its end is clean. -/
theorem Value.Leads.clean (h : v.Leads templates count path) : v.Clean templates count path := by
  induction path generalizing v with
  | nil => trivial
  | cons step rest ih =>
    cases step with
    | field ident =>
      obtain ⟨inner, hinner, hleads⟩ := h
      intro other hother
      obtain rfl := Option.some.inj (Option.mem_def.mp hinner ▸ Option.mem_def.mp hother)
      exact ih hleads
    | key segment template =>
      obtain ⟨-, -, entry, htemplate, hentry⟩ := h
      intro _ _ other hother
      obtain rfl := Option.some.inj (Option.mem_def.mp htemplate ▸ Option.mem_def.mp hother)
      exact hentry

/-- A path that is not clean for a group begins with an attribute. -/
theorem Value.exists_field_of_not_clean {g : Group}
    (h : ¬(Value.group g).Clean templates count path) :
    ∃ ident rest, path = .field ident :: rest := by
  cases path with
  | nil => exact absurd trivial h
  | cons step rest =>
    cases step with
    | field ident => exact ⟨ident, rest, rfl⟩
    | key segment t => exact absurd (fun hmap => nomatch hmap) h

end Leads

/-! ### Writes into defaults -/

section Defaults

variable {leaves : List Leaf} {templates : List Value} {count : Nat} {key : Nat → Option String}
  {path : List PathStep} {node : Node} {v inner value : Value} {ident : String}
  {rest : List PathStep} {template : Nat → Option Value}

/-- A default that is a map is empty. -/
theorem asMap?_defaultOver (hscalar : ∀ leaf ∈ leaves, leaf.defaultValue.IsScalar)
    (h : (defaultOver leaves node).asMap?.isSome) : defaultOver leaves node = .map [] := by
  cases node with
  | group g =>
    rw [defaultOver] at h
    cases h
  | map value => rw [defaultOver]
  | leaf id =>
    have hleaf := isScalar_defaultOver hscalar id
    cases hdefault : defaultOver leaves (.leaf id) with
    | map entries =>
      rw [hdefault] at hleaf
      cases hleaf
    | _ =>
      rw [hdefault] at h
      cases h

/-- Whether the templates that a path names are there, and are defaults of nodes. -/
def DefaultTemplates (leaves : List Leaf) (templates : List Value) (path : List PathStep) : Prop :=
  ∀ segment template, .key segment template ∈ path →
    ∃ node, templates[template]? = some (defaultOver leaves node)

theorem DefaultTemplates.tail {step : PathStep}
    (h : DefaultTemplates leaves templates (step :: rest)) :
    DefaultTemplates leaves templates rest :=
  fun segment template hmem => h segment template (List.mem_cons_of_mem _ hmem)

/-- **A write into the default of a node** comes to the end of the path exactly if the path leads
there. -/
theorem exists_write_defaultOver (hscalar : ∀ leaf ∈ leaves, leaf.defaultValue.IsScalar)
    (htemplates : DefaultTemplates leaves templates path)
    (hkey : ∀ segment, (∃ k, key segment = some k) ↔ segment < count) (value : Value)
    (node : Node) :
    ∃ v' written, (defaultOver leaves node).write (fun t => templates[t]?) key value path =
        .ok (v', written) ∧
      (written = true ↔ (defaultOver leaves node).Leads templates count path) := by
  induction path generalizing node with
  | nil => exact ⟨value, true, Value.write_nil _ _ _ _, iff_of_true rfl trivial⟩
  | cons step rest ih =>
    cases step with
    | field ident =>
      rw [Value.Leads]
      cases hslot : (defaultOver leaves node).slot? (.field ident) with
      | none => exact ⟨_, false, Value.write_field_of_none hslot, by simp⟩
      | some inner =>
        obtain ⟨child, -, rfl⟩ := exists_node_of_defaultOver_slot? hscalar hslot
        obtain ⟨inner', written, hwrite, hwritten⟩ := ih htemplates.tail child
        refine ⟨_, written, by rw [Value.write_field hslot, hwrite]; rfl, ?_⟩
        simpa using hwritten
    | key segment t =>
      rw [Value.Leads]
      by_cases hmap : (defaultOver leaves node).asMap?.isSome
      swap
      · exact ⟨_, false, Value.write_key_of_asMap?_eq_none (by simpa using hmap), by simp [hmap]⟩
      by_cases hlt : segment < count
      swap
      · have hnone : key segment = none :=
          Option.eq_none_iff_forall_ne_some.mpr fun k hk => hlt ((hkey segment).mp ⟨k, hk⟩)
        exact ⟨_, false, Value.write_key_of_none hnone, by simp [hlt]⟩
      obtain ⟨k, hk⟩ := (hkey segment).mpr hlt
      obtain ⟨child, hchild⟩ := htemplates segment t List.mem_cons_self
      obtain ⟨inner', written, hwrite, hwritten⟩ := ih htemplates.tail child
      have hdefault := asMap?_defaultOver hscalar hmap
      refine ⟨_, written, by rw [hdefault, Value.write_entry_empty hk hchild, hwrite]; rfl, ?_⟩
      simpa [hmap, hlt, hchild] using hwritten

/-- **A path that is not clean** leaves a new map entry in the default of the node, without a value
being written. -/
theorem exists_write_ne_of_not_clean (hscalar : ∀ leaf ∈ leaves, leaf.defaultValue.IsScalar)
    (htemplates : DefaultTemplates leaves templates path)
    (hkey : ∀ segment, (∃ k, key segment = some k) ↔ segment < count) (value : Value)
    (h : ¬(defaultOver leaves node).Clean templates count path) :
    ∃ v', (defaultOver leaves node).write (fun t => templates[t]?) key value path =
        .ok (v', false) ∧ v' ≠ defaultOver leaves node := by
  induction path generalizing node with
  | nil => exact absurd trivial h
  | cons step rest ih =>
    cases step with
    | field ident =>
      rw [Value.Clean] at h
      obtain ⟨inner, hslot, hinner⟩ : ∃ inner,
          (defaultOver leaves node).slot? (.field ident) = some inner ∧
            ¬inner.Clean templates count rest := by
        simpa using h
      obtain ⟨child, -, rfl⟩ := exists_node_of_defaultOver_slot? hscalar hslot
      obtain ⟨inner', hwrite, hne⟩ := ih htemplates.tail hinner
      refine ⟨_, by rw [Value.write_field hslot, hwrite]; rfl, fun heq => hne ?_⟩
      have hput := Value.slot?_put_self (Value.takes_of_slot?_eq hslot) inner'
      rw [heq, hslot] at hput
      exact (Option.some.inj hput).symm
    | key segment t =>
      rw [Value.Clean] at h
      obtain ⟨hmap, hlt, entry, htemplate, hleads⟩ : (defaultOver leaves node).asMap?.isSome ∧
          segment < count ∧ ∃ entry, templates[t]? = some entry ∧
            ¬entry.Leads templates count rest := by
        simpa using h
      obtain ⟨k, hk⟩ := (hkey segment).mpr hlt
      obtain ⟨child, hchild⟩ := htemplates segment t List.mem_cons_self
      obtain rfl := Option.some.inj (hchild.symm.trans htemplate)
      obtain ⟨inner', written, hwrite, hwritten⟩ :=
        exists_write_defaultOver hscalar htemplates.tail hkey value child
      obtain rfl : written = false := by simpa [hleads] using hwritten
      have hdefault := asMap?_defaultOver hscalar hmap
      rw [hdefault]
      exact ⟨_, by rw [Value.write_entry_empty hk hchild, hwrite]; rfl,
        by simp [Value.put, Entries.insert]⟩

end Defaults

/-! ### Properties of all values within -/

/-- Whether a value and the values in its slots, at any depth, have a property. -/
def Value.Everywhere (P : Value → Prop) (v : Value) : Prop :=
  ∀ address x, v.at? address = some x → P x

/-- Whether scalars and the defaults over a table of leaves have a property, and filling a slot of a
value keeps it for the value. -/
structure Value.KeptByFilling (leaves : List Leaf) (P : Value → Prop) : Prop where
  scalar : ∀ v, v.IsScalar → P v
  default : ∀ node, P (defaultOver leaves node)
  put : ∀ v s inner, v.Takes s → P v → P (v.put s inner)

section Everywhere

variable {leaves : List Leaf} {templates : List Value} {key : Nat → Option String}
  {path : List PathStep} {v v' inner value : Value} {s : SlotStep} {written : Bool}
  {P : Value → Prop}

theorem Value.Everywhere.slot (h : v.Everywhere P) (hslot : v.slot? s = some inner) :
    inner.Everywhere P :=
  fun address x hat => h (s :: address) x (by rw [at?_cons, hslot]; exact hat)

namespace Value.KeptByFilling

/-- A scalar has no slots. -/
theorem of_isScalar (hP : KeptByFilling leaves P) (h : v.IsScalar) : v.Everywhere P := by
  intro address x hat
  cases address with
  | nil =>
    obtain rfl := Option.some.inj hat
    exact hP.scalar v h
  | cons s rest =>
    rw [at?_cons, h.slot? s] at hat
    cases hat

/-- Within a default are defaults. -/
theorem of_default (hP : KeptByFilling leaves P)
    (hscalar : ∀ leaf ∈ leaves, leaf.defaultValue.IsScalar) (node : Node) :
    (defaultOver leaves node).Everywhere P := by
  intro address x hat
  obtain ⟨n, -, rfl⟩ := exists_node_of_defaultOver_at? hscalar hat
  exact hP.default n

/-- Filling a slot. -/
theorem of_put (hP : KeptByFilling leaves P) (h : v.Everywhere P) (htakes : v.Takes s)
    (hinner : inner.Everywhere P) : (v.put s inner).Everywhere P := by
  intro address x hat
  cases address with
  | nil =>
    obtain rfl := Option.some.inj hat
    exact hP.put v s inner htakes (h [] v rfl)
  | cons other rest =>
    by_cases hs : other = s
    · subst hs
      rw [at?_put_self htakes] at hat
      exact hinner rest x hat
    · rw [at?_put_of_ne hs] at hat
      exact h (other :: rest) x hat

/-- **Writing keeps the property** for all values within. -/
theorem of_write (hP : KeptByFilling leaves P)
    (hscalar : ∀ leaf ∈ leaves, leaf.defaultValue.IsScalar)
    (htemplates : DefaultTemplates leaves templates path) (hvalue : value.IsScalar)
    (h : v.Everywhere P)
    (hwrite : v.write (fun t => templates[t]?) key value path = .ok (v', written)) :
    v'.Everywhere P := by
  induction path generalizing v v' with
  | nil =>
    rw [Value.write_nil] at hwrite
    obtain ⟨rfl, -⟩ := Prod.mk.inj (Except.ok.inj hwrite)
    exact hP.of_isScalar hvalue
  | cons step rest ih =>
    rcases Value.write_cons_ok hwrite with
      rfl | ⟨s, inner, inner', -, htakes, hslot | ⟨-, segment, t, rfl, htemplate⟩, hinner, rfl⟩
    · exact h
    · exact hP.of_put h htakes (ih htemplates.tail (h.slot hslot) hinner)
    · obtain ⟨child, hchild⟩ := htemplates segment t List.mem_cons_self
      obtain rfl := Option.some.inj (htemplate.symm.trans hchild)
      exact hP.of_put h htakes (ih htemplates.tail (hP.of_default hscalar child) hinner)

end Value.KeptByFilling

end Everywhere

/-! ### Maps in ascending order -/

/-- Whether the entries of all maps in a value ascend. -/
def Value.Ascends (v : Value) : Prop :=
  ∀ address entries, v.at? address = some (.map entries) → Entries.Ascending entries

section Ascends

variable {leaves : List Leaf} {templates : List Value} {key : Nat → Option String}
  {path : List PathStep} {node : Node} {v v' inner value : Value} {s : SlotStep} {written : Bool}

theorem Value.ascends_iff :
    v.Ascends ↔ v.Everywhere fun x => ∀ entries, x = .map entries → Entries.Ascending entries := by
  refine ⟨fun h address x hat entries hx => h address entries (hat.trans (congrArg some hx)),
    fun h address entries hat => h address _ hat entries rfl⟩

/-- The maps in the default of a node are empty, and filling a slot keeps a map in order. -/
theorem keptByFilling_ascending (hscalar : ∀ leaf ∈ leaves, leaf.defaultValue.IsScalar) :
    Value.KeptByFilling leaves
      fun x => ∀ entries, x = .map entries → Entries.Ascending entries where
  scalar := by
    rintro _ hv entries rfl
    cases hv
  default := by
    intro node entries heq
    have hmap : (defaultOver leaves node).asMap?.isSome := by
      rw [heq]
      rfl
    obtain rfl := Value.map.inj (heq.symm.trans (asMap?_defaultOver hscalar hmap))
    exact List.Pairwise.nil
  put := by
    intro v s inner htakes h entries heq
    cases v with
    | group g => cases s <;> cases heq
    | map entries' =>
      cases s with
      | field ident => cases htakes
      | entry k =>
        obtain rfl := Value.map.inj heq
        exact (h entries' rfl).insert k inner
    | _ => cases htakes

/-- The maps below a slot are maps of the value. -/
theorem Value.Ascends.slot (h : v.Ascends) (hslot : v.slot? s = some inner) : inner.Ascends :=
  ascends_iff.mpr ((ascends_iff.mp h).slot hslot)

/-- The maps in the default of a node are in order. -/
theorem ascends_defaultOver (hscalar : ∀ leaf ∈ leaves, leaf.defaultValue.IsScalar) (node : Node) :
    (defaultOver leaves node).Ascends :=
  Value.ascends_iff.mpr ((keptByFilling_ascending hscalar).of_default hscalar node)

/-- Writing keeps maps in order. -/
theorem Value.Ascends.write (hscalar : ∀ leaf ∈ leaves, leaf.defaultValue.IsScalar)
    (htemplates : DefaultTemplates leaves templates path) (hvalue : value.IsScalar) (h : v.Ascends)
    (hwrite : v.write (fun t => templates[t]?) key value path = .ok (v', written)) :
    v'.Ascends :=
  ascends_iff.mpr ((keptByFilling_ascending hscalar).of_write hscalar htemplates hvalue
    (ascends_iff.mp h) hwrite)

/-- Filling a slot with what it holds changes nothing, if maps are in order. -/
theorem Value.Ascends.put_eq_self (h : v.Ascends) (hslot : v.slot? s = some inner) :
    v.put s inner = v := by
  cases v with
  | group g =>
    cases s with
    | field ident =>
      obtain ⟨typeName, fields⟩ := g
      rw [Value.put, Group.accept, Entries.put_eq_self hslot]
    | entry k => cases hslot
  | map entries =>
    cases s with
    | field ident => cases hslot
    | entry k => rw [Value.put, (h [] entries rfl).insert_eq_self hslot]
  | _ => cases hslot

end Ascends

/-! ### Groups and maps that attributes lead to -/

/-- Whether every group and map that attributes alone lead to is one of the kind of its node. -/
def Outlined (node : Node) (v : Value) : Prop :=
  ∀ (idents : List String) x, v.at? (idents.map .field) = some x →
    ∃ n, node.at? (idents.map .field) = some n ∧ (x.IsScalar ∨ n.Hosts x)

section Outlined

variable {leaves : List Leaf} {template : Nat → Option Value} {key : Nat → Option String}
  {path : List PathStep} {node child : Node} {v v' inner value : Value} {s : SlotStep}
  {ident : String} {written : Bool}

/-- A value without strange groups and maps is outlined by its node. -/
theorem Follows.outlined (h : Follows node v) : Outlined node v := fun _ x hx => h _ x hx

/-- A value with slots is of the kind of its node. -/
theorem Outlined.hosts (h : Outlined node v) (htakes : v.Takes s) : node.Hosts v := by
  obtain ⟨n, hn, hscalar | hhosts⟩ := h [] v rfl
  · exact absurd hscalar htakes.not_isScalar
  · obtain rfl := Option.some.inj hn
    exact hhosts

/-- What stands in an attribute is outlined by the node for it. -/
theorem Outlined.field (h : Outlined node v) (hinner : v.slot? (.field ident) = some inner) :
    ∃ child, node.slot? (.field ident) = some child ∧ Outlined child inner := by
  have hat : ∀ address, v.at? (.field ident :: address) = inner.at? address := fun address => by
    rw [Value.at?_cons, hinner, Option.bind_some]
  obtain ⟨n, hn, -⟩ := h [ident] inner (hat [])
  obtain ⟨child, hchild, -⟩ := Option.bind_eq_some_iff.mp hn
  refine ⟨child, hchild, fun idents x hx => ?_⟩
  obtain ⟨n, hn, hkind⟩ := h (ident :: idents) x ((hat _).trans hx)
  rw [List.map_cons, Node.at?_cons, hchild] at hn
  exact ⟨n, hn, hkind⟩

/-- Filling an attribute with what is outlined by its node, or a map entry with anything. -/
theorem Outlined.put (h : Outlined node v) (htakes : v.Takes s)
    (hinner : ∀ ident, s = .field ident →
      ∃ child, node.slot? (.field ident) = some child ∧ Outlined child inner) :
    Outlined node (v.put s inner) := by
  intro idents x hx
  cases idents with
  | nil =>
    obtain rfl := Option.some.inj hx
    exact ⟨node, rfl, Or.inr ((h.hosts htakes).put s inner)⟩
  | cons ident idents =>
    rw [List.map_cons] at hx ⊢
    by_cases hs : SlotStep.field ident = s
    · subst hs
      obtain ⟨child, hchild, hchildInner⟩ := hinner ident rfl
      rw [Value.at?_put_self htakes] at hx
      rw [Node.at?_cons, hchild, Option.bind_some]
      exact hchildInner idents x hx
    · rw [Value.at?_put_of_ne hs] at hx
      exact h (ident :: idents) x hx

/-- Writing keeps a value outlined. -/
theorem Outlined.write (h : Outlined node v) (hvalue : value.IsScalar)
    (hwrite : v.write template key value path = .ok (v', written)) : Outlined node v' := by
  induction path generalizing node v v' with
  | nil =>
    rw [Value.write_nil] at hwrite
    obtain ⟨rfl, -⟩ := Prod.mk.inj (Except.ok.inj hwrite)
    exact (follows_of_isScalar node hvalue).outlined
  | cons step rest ih =>
    rcases Value.write_cons_ok hwrite with
      rfl | ⟨s, inner, inner', haddress, htakes, hslot, hinner, rfl⟩
    · exact h
    refine h.put htakes ?_
    rintro ident rfl
    cases haddress with
    | field _ _ =>
      rcases hslot with hslot | ⟨-, segment, t, heq, -⟩
      · obtain ⟨child, hchild, hfield⟩ := h.field hslot
        exact ⟨child, hchild, ih hfield hinner⟩
      · cases heq

end Outlined

/-! ### Writes that leave no trace -/

section NoTrace

variable {leaves : List Leaf} {templates : List Value} {count : Nat} {key : Nat → Option String}
  {path : List PathStep} {node : Node} {v v' value : Value}

/-- **Along a path that leads on** from all entries that are made, a value that is not written
leaves no trace, since one behind a new entry is written. -/
theorem Value.write_eq_self_of_leadsOn (hscalar : ∀ leaf ∈ leaves, leaf.defaultValue.IsScalar)
    (htemplates : DefaultTemplates leaves templates path)
    (hkey : ∀ segment, (∃ k, key segment = some k) ↔ segment < count) (hascends : v.Ascends)
    (hleads : LeadsOn templates count path)
    (hwrite : v.write (fun t => templates[t]?) key value path = .ok (v', false)) : v' = v := by
  induction path generalizing v v' with
  | nil =>
    rw [Value.write_nil] at hwrite
    cases hwrite
  | cons step rest ih =>
    rcases Value.write_cons_ok hwrite with
      rfl | ⟨s, inner, inner', haddress, -, hslot | ⟨-, segment, t, rfl, htemplate⟩, hinner, rfl⟩
    · rfl
    · have hrest : LeadsOn templates count rest := by
        cases step with
        | field ident => exact hleads
        | key segment t => exact hleads.2
      obtain rfl := ih htemplates.tail (hascends.slot hslot) hrest hinner
      exact hascends.put_eq_self hslot
    · -- The entry has just been made, so the path leads to its end and the value is written.
      have hlt : segment < count := by
        cases haddress with
        | entry _ key_eq _ => exact (hkey segment).mp ⟨_, key_eq⟩
      obtain ⟨child, hchild⟩ := htemplates segment t List.mem_cons_self
      obtain ⟨_, written, hwrite', hwritten⟩ :=
        exists_write_defaultOver hscalar htemplates.tail hkey value child
      have hend := hwritten.mpr (hleads.1 hlt _ hchild)
      obtain rfl := Option.some.inj (htemplate.symm.trans hchild)
      rw [hwrite', hend] at hinner
      cases hinner

/-- **Along a clean path**, a value that is not written leaves no trace. -/
theorem Value.write_eq_self_of_clean (hscalar : ∀ leaf ∈ leaves, leaf.defaultValue.IsScalar)
    (htemplates : DefaultTemplates leaves templates path)
    (hkey : ∀ segment, (∃ k, key segment = some k) ↔ segment < count) (hascends : v.Ascends)
    (houtlined : Outlined node v) (hclean : (defaultOver leaves node).Clean templates count path)
    (hwrite : v.write (fun t => templates[t]?) key value path = .ok (v', false)) : v' = v := by
  induction path generalizing node v v' with
  | nil =>
    rw [Value.write_nil] at hwrite
    cases hwrite
  | cons step rest ih =>
    rcases Value.write_cons_ok hwrite with
      rfl | ⟨s, inner, inner', haddress, htakes, hslot, hinner, heq⟩
    · rfl
    cases haddress with
    | field ident _ =>
      rcases hslot with hslot | ⟨-, segment, t, hstep, -⟩
      · obtain ⟨child, hchild, hfield⟩ := houtlined.field hslot
        have hdefault : (defaultOver leaves node).slot? (.field ident) =
            some (defaultOver leaves child) := by
          cases node with
          | group g =>
            rw [defaultOver_group_slot?, show g.attribute? ident = some child from hchild]
            rfl
          | _ => cases hchild
        obtain rfl := ih htemplates.tail (hascends.slot hslot) hfield (hclean _ hdefault) hinner
        rw [heq, hascends.put_eq_self hslot]
      · cases hstep
    | @entry _ _ segment k t key_eq _ =>
      -- The first map on the path, so the path leads on from all entries that can be made.
      obtain ⟨child, hchild⟩ := htemplates segment t List.mem_cons_self
      have hmap : (defaultOver leaves node).asMap?.isSome := by
        have hhosts := houtlined.hosts htakes
        cases v with
        | map entries =>
          cases node with
          | map value => rw [defaultOver]; rfl
          | _ => cases hhosts
        | _ => cases htakes
      have hleads := hclean hmap ((hkey segment).mp ⟨k, key_eq⟩)
      exact Value.write_eq_self_of_leadsOn hscalar htemplates hkey hascends
        ⟨fun _ => hleads, (hleads _ hchild).leadsOn⟩ hwrite

end NoTrace

end PropertyBinding

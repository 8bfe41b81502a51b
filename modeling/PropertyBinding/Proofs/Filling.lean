import PropertyBinding.Proofs.Shapes

/-!
# Filling slots

What a write along a way comes to can be said without the path, the templates and the name: it
fills the slot at an address, and what is missing on the way is the default of its node
(`Value.fill`, `Way.write_eq_fill`). The other leaf slots are as before, or they belong to a new map
entry and hold their defaults (`Value.filled_fill`).

Two leaf slots can be filled in either order (`Value.fill_comm`): where their addresses part, two
slots of one value are put, and a map entry that both of them make holds the same default before the
second is filled.
-/

namespace PropertyBinding

open Definition

variable {leaves : List Leaf} {node child : Node} {v x y : Value} {s t : SlotStep}

/-! ### Two slots of one value -/

/-- A value that fits a node takes the slots of the node. -/
theorem Fits.takes (h : Fits node v) (hchild : node.slot? s = some child) : v.Takes s := by
  cases node with
  | group g =>
    cases s with
    | field ident =>
      have hattribute : (g.attribute? ident).isSome := by
        rw [show g.attribute? ident = some child from hchild]
        rfl
      obtain ⟨inner, hinner⟩ := Option.isSome_iff_exists.mp (h.suits ident hattribute)
      exact Value.takes_of_slot?_eq hinner
    | entry key => cases hchild
  | map value =>
    obtain ⟨entries, rfl⟩ := h.suits
    cases s with
    | field ident => cases hchild
    | entry key => trivial
  | leaf id => cases hchild

/-- What is put into a slot replaces what was put there. -/
theorem Value.put_put (v : Value) (s : SlotStep) (x y : Value) :
    (v.put s x).put s y = v.put s y := by
  cases v with
  | group g =>
    cases s with
    | field ident =>
      simp only [Value.put, Group.accept, Entries.put_put]
    | entry key => rfl
  | map entries =>
    cases s with
    | field ident => rfl
    | entry key => simp only [Value.put, Entries.insert_insert]
  | _ => cases s <;> rfl

/-- Two slots can be put in either order, if an attribute among them is there: it keeps its
position. -/
theorem Value.put_comm {v : Value} {s t : SlotStep} (hne : s ≠ t)
    (hthere : ∀ ident, s = .field ident → (v.slot? s).isSome) (x y : Value) :
    (v.put t y).put s x = (v.put s x).put t y := by
  cases v with
  | group g =>
    cases s with
    | field ident =>
      cases t with
      | field other =>
        have hident : ident ≠ other := fun heq => hne (congrArg _ heq)
        have hkey : ident ∈ Entries.keys g.fields :=
          Entries.isSome_lookup_iff.mp (hthere ident rfl)
        simp only [Value.put, Group.accept, Entries.put_comm hident hkey]
      | entry key => rfl
    | entry key => cases t <;> rfl
  | map entries =>
    cases s with
    | field ident => cases t <;> rfl
    | entry key =>
      cases t with
      | field other => rfl
      | entry other =>
        have hkey : key ≠ other := fun heq => hne (congrArg _ heq)
        simp only [Value.put, Entries.insert_comm hkey]
  | _ => rfl

/-- Two slots of a value that fits a node can be put in either order, if one is a slot of the
node. -/
theorem Fits.put_comm (h : Fits node v) (hchild : node.slot? s = some child) (hne : s ≠ t) :
    (v.put t y).put s x = (v.put s x).put t y := by
  refine v.put_comm hne (fun ident hident => ?_) x y
  subst hident
  cases node with
  | group g =>
    refine h.suits ident ?_
    rw [show g.attribute? ident = some child from hchild]
    rfl
  | _ => cases hchild

/-- The value with the slot at an address of its node filled. What is missing on the way is the
default of its node. -/
def Value.fill (leaves : List Leaf) (value : Value) : Node → List SlotStep → Value → Value
  | _, [], _ => value
  | node, s :: rest, slot =>
    match node.slot? s with
    | none => slot
    | some child =>
      slot.put s (value.fill leaves child rest ((slot.slot? s).getD (defaultOver leaves child)))

theorem Value.fill_cons (value : Value) (hchild : node.slot? s = some child)
    (rest : List SlotStep) (slot : Value) : value.fill leaves node (s :: rest) slot =
      slot.put s
        (value.fill leaves child rest ((slot.slot? s).getD (defaultOver leaves child))) := by
  rw [Value.fill, hchild]

/-- What stands in a slot, or else is made for it, fits the node for the slot. -/
theorem Fits.slot_getD (hscalar : ∀ leaf ∈ leaves, leaf.defaultValue.IsScalar) (h : Fits node v)
    (hchild : node.slot? s = some child) :
    Fits child ((v.slot? s).getD (defaultOver leaves child)) := by
  cases hslot : v.slot? s with
  | some inner => exact h.slot hchild hslot
  | none => exact fits_defaultOver hscalar child

/-- A missing entry of a map is made from the template, which is the default of the values. -/
theorem lookup_or_template {templates : List Value} {template : Nat}
    (h : templates[template]? = some (defaultOver leaves child)) (entries : Entries Value)
    (key : String) : (entries.lookup key).or (templates[template]?) =
      some (((Value.map entries).slot? (.entry key)).getD (defaultOver leaves child)) := by
  rw [h, Value.slot?]
  cases List.lookup key entries <;> rfl

/-- **Writing along a way** into a value that fits fills the slot at the address. -/
theorem Way.write_eq_fill {templates : List Value} {piece : String → Prop}
    {key full : List String} {steps : List PathStep} {id : Nat}
    (h : Way leaves templates piece node key steps full id) (hnodup : node.Each List.Nodup)
    (hscalar : ∀ leaf ∈ leaves, leaf.defaultValue.IsScalar) {keyAt : Nat → Option String}
    {address : List SlotStep} (haddress : Addresses keyAt steps address) (value : Value)
    {slot : Value} (hfits : Fits node slot) :
    slot.write (fun template => templates[template]?) keyAt value steps =
      .ok (value.fill leaves node address slot, true) := by
  induction h generalizing address slot with
  | leaf key id =>
    cases haddress
    rw [Value.write_nil, Value.fill]
  | @field g ident child _ _ _ _ _ mem _ _ ih =>
    cases haddress with
    | field _ below =>
      obtain ⟨hattribute, heach⟩ := hnodup.attribute?_eq mem
      have hchild : (Node.group g).slot? (.field ident) = some child := hattribute
      obtain ⟨inner, hinner⟩ := Option.isSome_iff_exists.mp
        (hfits.suits ident (by rw [hattribute]; rfl))
      rw [Value.fill_cons value hchild, hinner, Option.getD_some, Value.write_field hinner,
        ih heach below (hfits.slot hchild hinner)]
      rfl
  | @entry child template _ _ _ _ template_eq _ ih =>
    cases haddress with
    | @entry _ _ _ k _ key_eq below =>
      rw [Node.Each] at hnodup
      obtain ⟨entries, rfl⟩ := hfits.suits
      have hchild : (Node.map child).slot? (.entry k) = some child := rfl
      rw [Value.fill_cons value hchild,
        Value.write_entry key_eq (lookup_or_template template_eq entries k),
        ih hnodup below (hfits.slot_getD hscalar hchild)]
      rfl

/-! ### The other leaf slots -/

/-- Whether the leaf slots of a node at other addresses than those touched read as before, or are
new and hold the defaults of their leaves. -/
def LeavesKept (leaves : List Leaf) (node : Node) (touched : List SlotStep → Prop)
    (slot slot' : Value) : Prop :=
  ∀ other id, ¬touched other → node.at? other = some (.leaf id) →
    slot'.at? other = slot.at? other ∨
      slot.at? other = none ∧ slot'.at? other = some (defaultOver leaves (.leaf id))

theorem LeavesKept.mono {touched touched' : List SlotStep → Prop} {slot slot' : Value}
    (h : LeavesKept leaves node touched slot slot')
    (hsub : ∀ other, touched other → touched' other) :
    LeavesKept leaves node touched' slot slot' :=
  fun other id hnot hnode => h other id (fun htouched => hnot (hsub other htouched)) hnode

/-- A write below a slot, which held a value or was given the default of its node. -/
theorem LeavesKept.put {touched : List SlotStep → Prop} {slot inner inner' : Value} {s : SlotStep}
    (hscalar : ∀ leaf ∈ leaves, leaf.defaultValue.IsScalar)
    (h : LeavesKept leaves child (fun rest => touched (s :: rest)) inner inner')
    (htakes : slot.Takes s) (hchild : node.slot? s = some child)
    (hslot : slot.slot? s = some inner ∨
      slot.slot? s = none ∧ inner = defaultOver leaves child) :
    LeavesKept leaves node touched slot (slot.put s inner') := by
  intro other id hnot hnode
  cases other with
  | nil =>
    obtain rfl := Option.some.inj hnode
    cases hchild
  | cons step rest =>
    by_cases hstep : step = s
    · subst hstep
      rw [Node.at?_cons, hchild, Option.bind_some] at hnode
      rw [Value.at?_put_self htakes, Value.at?_cons]
      -- Below the slot: either it held a value, or all that is in it now is new.
      have hrest := h rest id hnot hnode
      rcases hslot with hslot | ⟨hslot, rfl⟩
      · rwa [hslot, Option.bind_some]
      · rw [hslot, Option.bind_none]
        rcases hrest with hrest | ⟨-, hrest⟩
        · rw [hrest]
          cases hdefault : (defaultOver leaves child).at? rest with
          | none => exact Or.inl rfl
          | some x =>
            obtain ⟨n, hn, rfl⟩ := exists_node_of_defaultOver_at? hscalar hdefault
            obtain rfl := Option.some.inj (hnode.symm.trans hn)
            exact Or.inr ⟨rfl, rfl⟩
        · exact Or.inr ⟨rfl, hrest⟩
    · exact Or.inl (Value.at?_put_of_ne hstep _ _)

/-- **Writing along a way** keeps all leaf slots but the one that the way leads to under the keys,
also if the way is left for want of a key. -/
theorem Way.write_kept {templates : List Value} {piece : String → Prop} {key full : List String}
    {steps : List PathStep} {id : Nat} (h : Way leaves templates piece node key steps full id)
    (hnodup : node.Each List.Nodup) (hscalar : ∀ leaf ∈ leaves, leaf.defaultValue.IsScalar)
    {keyAt : Nat → Option String} {value slot slot' : Value} {written : Bool}
    (hfits : Fits node slot)
    (hwrite : slot.write (fun template => templates[template]?) keyAt value steps =
      .ok (slot', written)) : LeavesKept leaves node (Addresses keyAt steps) slot slot' := by
  induction h generalizing slot slot' with
  | leaf key id =>
    intro other id' hnot hnode
    cases other with
    | nil => exact absurd .nil hnot
    | cons s rest => cases hnode
  | @field g ident child _ _ _ _ _ mem _ _ ih =>
    obtain ⟨hattribute, heach⟩ := hnodup.attribute?_eq mem
    have hchild : (Node.group g).slot? (.field ident) = some child := hattribute
    obtain ⟨inner, hinner⟩ := Option.isSome_iff_exists.mp
      (hfits.suits ident (by rw [hattribute]; rfl))
    rw [Value.write_field hinner] at hwrite
    obtain ⟨⟨inner', written'⟩, hbelow, heq⟩ := ok_of_map_eq_ok hwrite
    obtain ⟨rfl, rfl⟩ := Prod.mk.inj heq
    exact ((ih heach (hfits.slot hchild hinner) hbelow).mono fun _ => .field ident).put hscalar
      (hfits.takes hchild) hchild (Or.inl hinner)
  | @entry child template _ _ _ _ template_eq _ ih =>
    rw [Node.Each] at hnodup
    obtain ⟨entries, rfl⟩ := hfits.suits
    cases hkey : keyAt _ with
    | none =>
      rw [Value.write_key_of_none hkey] at hwrite
      obtain ⟨rfl, -⟩ := Prod.mk.inj (Except.ok.inj hwrite)
      exact fun _ _ _ _ => Or.inl rfl
    | some k =>
      have hchild : (Node.map child).slot? (.entry k) = some child := rfl
      rw [Value.write_entry hkey (lookup_or_template template_eq entries k)] at hwrite
      obtain ⟨⟨inner', written'⟩, hbelow, heq⟩ := ok_of_map_eq_ok hwrite
      obtain ⟨rfl, rfl⟩ := Prod.mk.inj heq
      refine ((ih hnodup (hfits.slot_getD hscalar hchild) hbelow).mono
        fun _ => .entry template hkey).put hscalar (hfits.takes hchild) hchild ?_
      cases hslot : (Value.map entries).slot? (.entry k) with
      | some inner => exact Or.inl rfl
      | none => exact Or.inr ⟨rfl, rfl⟩

/-- What filling a leaf slot has done to a value that fits a node: the slot at the address holds the
new value, and the other leaf slots are kept. -/
structure Filled (leaves : List Leaf) (node : Node) (address : List SlotStep)
    (value slot slot' : Value) : Prop where
  fits : Fits node slot'
  self : slot'.at? address = some value
  others : LeavesKept leaves node (· = address) slot slot'

/-- A write below a slot, which held a value or was given the default of its node. -/
theorem Filled.put {address : List SlotStep} {value slot inner inner' : Value} {s : SlotStep}
    (hscalar : ∀ leaf ∈ leaves, leaf.defaultValue.IsScalar)
    (h : Filled leaves child address value inner inner') (hfits : Fits node slot)
    (htakes : slot.Takes s) (hchild : node.slot? s = some child)
    (hslot : slot.slot? s = some inner ∨
      slot.slot? s = none ∧ inner = defaultOver leaves child) :
    Filled leaves node (s :: address) value slot (slot.put s inner') where
  fits := hfits.put htakes hchild h.fits
  self := by rw [Value.at?_put_self htakes, h.self]
  others := (h.others.mono fun _ heq => congrArg _ heq).put hscalar htakes hchild hslot

/-- **Filling a leaf slot** leaves the other leaf slots alone, those of new map entries apart. -/
theorem Value.filled_fill (hscalar : ∀ leaf ∈ leaves, leaf.defaultValue.IsScalar)
    {address : List SlotStep} {id : Nat} (hat : node.at? address = some (.leaf id)) (value : Value)
    {slot : Value} (hfits : Fits node slot) :
    Filled leaves node address value slot (value.fill leaves node address slot) := by
  induction address generalizing node slot with
  | nil =>
    obtain rfl := Option.some.inj hat
    rw [Value.fill]
    refine ⟨fits_leaf id value, rfl, fun other id' hne hnode => ?_⟩
    cases other with
    | nil => exact absurd rfl hne
    | cons s rest => cases hnode
  | cons s rest ih =>
    obtain ⟨child, hchild, hat⟩ := Option.bind_eq_some_iff.mp hat
    rw [Value.fill_cons value hchild]
    refine (ih hat (hfits.slot_getD hscalar hchild)).put hscalar hfits (hfits.takes hchild)
      hchild ?_
    cases hslot : slot.slot? s with
    | some inner => exact Or.inl rfl
    | none => exact Or.inr ⟨rfl, rfl⟩

/-- The address of a leaf slot does not lead on to that of another one. -/
theorem Node.eq_of_prefix_leaf {address other : List SlotStep} {id id' : Nat}
    (hat : node.at? address = some (.leaf id)) (hat' : node.at? other = some (.leaf id'))
    (h : other <+: address) : other = address := by
  induction other generalizing node address with
  | nil =>
    obtain rfl := Option.some.inj hat'
    cases address with
    | nil => rfl
    | cons s rest => cases hat
  | cons t rest' ih =>
    obtain ⟨after, rfl⟩ := h
    obtain ⟨child, hchild, hbelow⟩ := Option.bind_eq_some_iff.mp hat
    obtain ⟨child', hchild', hbelow'⟩ := Option.bind_eq_some_iff.mp hat'
    obtain rfl := Option.some.inj (hchild.symm.trans hchild')
    exact congrArg _ (ih hbelow hbelow' (List.prefix_append rest' after))

/-- Filling a slot that is there changes nothing but what is on the way to it or below it, and makes
nothing. -/
theorem Value.at?_fill_of_apart {address other : List SlotStep} (hto : ¬other <+: address)
    (hbelow : ¬address <+: other) (value : Value) {slot : Value}
    (hslot : (slot.at? address).isSome) :
    (value.fill leaves node address slot).at? other = slot.at? other := by
  induction address generalizing node slot other with
  | nil => exact absurd List.nil_prefix hbelow
  | cons s rest ih =>
    cases hchild : node.slot? s with
    | none => rw [Value.fill, hchild]
    | some child =>
      cases hinner : slot.slot? s with
      | none =>
        rw [Value.at?_cons, hinner] at hslot
        cases hslot
      | some inner =>
        rw [Value.at?_cons, hinner] at hslot
        rw [Value.fill_cons value hchild, hinner, Option.getD_some]
        cases other with
        | nil => exact absurd List.nil_prefix hto
        | cons t rest' =>
          by_cases hs : t = s
          · subst hs
            rw [List.prefix_cons_inj] at hto hbelow
            rw [Value.at?_put_self (Value.takes_of_slot?_eq hinner), Value.at?_cons, hinner,
              Option.bind_some, ih hto hbelow hslot]
          · rw [Value.at?_put_of_ne hs]

/-! ### Two leaf slots -/

/-- **Two leaf slots can be filled in either order.** -/
theorem Value.fill_comm (hscalar : ∀ leaf ∈ leaves, leaf.defaultValue.IsScalar)
    {address address' : List SlotStep} {id id' : Nat} (hat : node.at? address = some (.leaf id))
    (hat' : node.at? address' = some (.leaf id')) (hne : address ≠ address') (value value' : Value)
    {slot : Value} (hfits : Fits node slot) :
    value.fill leaves node address (value'.fill leaves node address' slot) =
      value'.fill leaves node address' (value.fill leaves node address slot) := by
  induction address generalizing address' node slot with
  | nil =>
    obtain rfl := Option.some.inj hat
    cases address' with
    | nil => exact absurd rfl hne
    | cons t rest' => cases hat'
  | cons s rest ih =>
    cases address' with
    | nil =>
      obtain rfl := Option.some.inj hat'
      cases hat
    | cons t rest' =>
      obtain ⟨child, hchild, hat⟩ := Option.bind_eq_some_iff.mp hat
      obtain ⟨child', hchild', hat'⟩ := Option.bind_eq_some_iff.mp hat'
      have htakes := hfits.takes hchild
      have htakes' := hfits.takes hchild'
      rw [Value.fill_cons value hchild, Value.fill_cons value' hchild',
        Value.fill_cons value hchild, Value.fill_cons value' hchild']
      by_cases hs : s = t
      · subst hs
        obtain rfl := Option.some.inj (hchild.symm.trans hchild')
        have hrest : rest ≠ rest' := fun heq => hne (by rw [heq])
        -- The second write comes to what the first has left, whether it has made the slot or not.
        rw [Value.slot?_put_self htakes, Value.slot?_put_self htakes, Value.put_put, Value.put_put,
          Option.getD_some, Option.getD_some,
          ih hat hat' hrest (hfits.slot_getD hscalar hchild)]
      · rw [Value.slot?_put_of_ne hs, Value.slot?_put_of_ne fun heq => hs heq.symm,
          hfits.put_comm hchild hs]

end PropertyBinding

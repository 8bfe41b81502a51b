import Mathlib.Tactic.SplitIfs
import PropertyBinding.Loader

/-!
# Slots of realized values

A slot of a realized graph has an address: the attributes and map keys on the way to it
(`Value.at?`). Filling one slot of a value leaves its other slots alone (`Value.slot?_put_self`,
`Value.slot?_put_of_ne`), and a write along a path fills one slot at every step
(`Value.write_field`, `Value.write_entry`, `Value.write_cons_ok`).

Which slot a path leads to depends on the map keys: in a write they are segments of a name
(`Addresses`), and for a reader of the graph any list of keys will do, one for every map
(`fillPath`).

The value that is written for a leaf is its default or what the raw text reads as (`Leaf.Gives`),
and it is a scalar (`Leaf.valueOf_isScalar`).
-/

namespace PropertyBinding

/-- One step from a realized value into a slot of it. -/
inductive SlotStep where
  | field (ident : String)
  | entry (key : String)
  deriving DecidableEq, Repr

/-- An attribute that has been accepted has the value. -/
theorem Group.get?_accept_self (g : Group) (ident : String) (value : Value) :
    (g.accept ident value).get? ident = some value :=
  Entries.lookup_put_self ident value g.fields

/-- Accepting one attribute leaves the others alone. -/
theorem Group.get?_accept_of_ne {ident other : String} (h : other ≠ ident) (g : Group)
    (value : Value) : (g.accept ident value).get? other = g.get? other :=
  Entries.lookup_put_of_ne h value g.fields

namespace Value

variable {v inner : Value} {s other : SlotStep}

/-! ### Slots -/

/-- The value in a slot. -/
def slot? : Value → SlotStep → Option Value
  | .group g, .field ident => g.get? ident
  | .map entries, .entry key => entries.lookup key
  | _, _ => none

/-- Whether the value is of the kind that has such slots. -/
def Takes : Value → SlotStep → Prop
  | .group _, .field _ | .map _, .entry _ => True
  | _, _ => False

/-- The value with a slot filled. -/
def put (v : Value) (s : SlotStep) (inner : Value) : Value :=
  match v, s with
  | .group g, .field ident => .group (g.accept ident inner)
  | .map entries, .entry key => .map (Entries.insert key inner entries)
  | v, _ => v

/-- The value at an address. -/
def at? (v : Value) : List SlotStep → Option Value
  | [] => some v
  | s :: rest => (v.slot? s).bind fun inner => inner.at? rest

@[simp]
theorem at?_nil (v : Value) : v.at? [] = some v := rfl

@[simp]
theorem at?_cons (v : Value) (s : SlotStep) (rest : List SlotStep) :
    v.at? (s :: rest) = (v.slot? s).bind fun inner => inner.at? rest := rfl

/-- A value with something in a slot has such slots. -/
theorem takes_of_slot?_eq (h : v.slot? s = some inner) : v.Takes s := by
  cases v with
  | group g =>
    cases s with
    | field ident => trivial
    | entry key => cases h
  | map entries =>
    cases s with
    | field ident => cases h
    | entry key => trivial
  | _ => cases h

/-- A slot that has been filled holds what it has been filled with. -/
theorem slot?_put_self (h : v.Takes s) (inner : Value) : (v.put s inner).slot? s = some inner := by
  cases v with
  | group g =>
    cases s with
    | field ident => exact Group.get?_accept_self g ident inner
    | entry key => cases h
  | map entries =>
    cases s with
    | field ident => cases h
    | entry key => exact Entries.lookup_insert_self key inner entries
  | _ => cases s <;> cases h

/-- Filling one slot leaves the others alone. -/
theorem slot?_put_of_ne (h : other ≠ s) (inner : Value) :
    (v.put s inner).slot? other = v.slot? other := by
  cases v with
  | group g =>
    cases s with
    | field ident =>
      cases other with
      | field name => exact Group.get?_accept_of_ne (fun heq => h (congrArg _ heq)) g inner
      | entry key => rfl
    | entry key => rfl
  | map entries =>
    cases s with
    | field ident => rfl
    | entry key =>
      cases other with
      | field name => rfl
      | entry k => exact Entries.lookup_insert_of_ne (fun heq => h (congrArg _ heq)) inner entries
  | _ => rfl

/-- An address below a slot that has been filled is read in what it has been filled with. -/
theorem at?_put_self (h : v.Takes s) (inner : Value) (rest : List SlotStep) :
    (v.put s inner).at? (s :: rest) = inner.at? rest := by
  rw [at?_cons, slot?_put_self h, Option.bind_some]

/-- An address below another slot is read as before. -/
theorem at?_put_of_ne (h : other ≠ s) (inner : Value) (rest : List SlotStep) :
    (v.put s inner).at? (other :: rest) = v.at? (other :: rest) := by
  rw [at?_cons, at?_cons, slot?_put_of_ne h]

end Value

/-! ### Scalars -/

/-- A result that is ok after a function has been applied to it was ok before. -/
theorem ok_of_map_eq_ok {ε α β : Type} {f : α → β} {r : Except ε α} {b : β}
    (h : r.map f = .ok b) : ∃ a, r = .ok a ∧ f a = b := by
  cases r with
  | error e => cases h
  | ok a => exact ⟨a, rfl, Except.ok.inj h⟩

/-- A result that is ok at the end of two steps was ok after the first one. -/
theorem ok_of_bind_eq_ok {ε α β : Type} {f : α → Except ε β} {r : Except ε α} {b : β}
    (h : (r >>= f) = .ok b) : ∃ a, r = .ok a ∧ f a = .ok b := by
  cases r with
  | error e => cases h
  | ok a => exact ⟨a, rfl, h⟩

/-- What is read one after the other has been read from some item each. -/
theorem exists_of_mapM_eq_ok {ε α β : Type} {f : α → Except ε β} {items : List α} {bs : List β}
    (h : items.mapM f = .ok bs) : ∀ b ∈ bs, ∃ a ∈ items, f a = .ok b := by
  induction items generalizing bs with
  | nil =>
    obtain rfl := Except.ok.inj h
    simp
  | cons a items ih =>
    rw [List.mapM_cons] at h
    obtain ⟨b, hb, h⟩ := ok_of_bind_eq_ok h
    obtain ⟨bs, hbs, h⟩ := ok_of_bind_eq_ok h
    obtain rfl := Except.ok.inj h
    refine List.forall_mem_cons.mpr ⟨⟨a, List.mem_cons_self, hb⟩, fun b' hb' => ?_⟩
    obtain ⟨a', ha', heq⟩ := ih hbs b' hb'
    exact ⟨a', List.mem_cons_of_mem _ ha', heq⟩

/-- Applying a function to a result leaves errors alone. -/
theorem map_eq_error_iff {ε α β : Type} {f : α → β} {r : Except ε α} {e : ε} :
    r.map f = .error e ↔ r = .error e := by
  cases r <;> simp [Except.map]

/-- Whether the value is neither a group nor a map. -/
def Value.IsScalar : Value → Prop
  | .group _ | .map _ => False
  | _ => True

theorem Value.IsScalar.slot? {v : Value} (h : v.IsScalar) (s : SlotStep) : v.slot? s = none := by
  cases v with
  | group g => cases h
  | map entries => cases h
  | _ => rfl

private theorem isScalar_of_map {α : Type} {r : Except ConversionError α} {f : α → Value}
    {v : Value} (h : r.map f = .ok v) (hf : ∀ a, (f a).IsScalar) : v.IsScalar := by
  obtain ⟨a, -, rfl⟩ := ok_of_map_eq_ok h
  exact hf a

/-- What a text of a scalar type reads as is a scalar. -/
theorem Convert.scalar_isScalar {type : ValueType} {raw : String} {v : Value}
    (h : Convert.scalar type raw = .ok v) : v.IsScalar := by
  cases type with
  | string | path =>
    obtain rfl := Except.ok.inj h
    trivial
  | _ => exact isScalar_of_map h fun _ => trivial

/-- What a text reads as for a leaf: what it reads as for a type, nothing, or an optional or a list
of what texts read as for a type. -/
theorem Convert.value_cases {kind : LeafKind} {raw : String} {v : Value}
    (h : Convert.value kind raw = .ok v) :
    (∃ type, Convert.scalar type raw = .ok v) ∨ v = .unset ∨ v = .optional none ∨
      (∃ type inner, Convert.scalar type raw = .ok inner ∧ v = .optional (some inner)) ∨
      ∃ type items, (∀ item ∈ items, ∃ text, Convert.scalar type text = .ok item) ∧
        v = .list items := by
  cases kind with
  | objectList element =>
    obtain ⟨items, hitems, rfl⟩ := ok_of_map_eq_ok h
    refine Or.inr (Or.inr (Or.inr (Or.inr ⟨element, items, fun item hitem => ?_, rfl⟩)))
    obtain ⟨text, -, hread⟩ := exists_of_mapM_eq_ok hitems item hitem
    exact ⟨text, hread⟩
  | object type =>
    rw [Convert.value] at h
    split_ifs at h
    · exact Or.inl ⟨.string, h⟩
    · exact Or.inr (Or.inl (Except.ok.inj h).symm)
    · exact Or.inl ⟨type, h⟩
  | optionalObject element =>
    rw [Convert.value] at h
    split_ifs at h
    · exact Or.inr (Or.inr (Or.inl (Except.ok.inj h).symm))
    · obtain ⟨inner, hread, rfl⟩ := ok_of_map_eq_ok h
      exact Or.inr (Or.inr (Or.inr (Or.inl ⟨element, inner, hread, rfl⟩)))
  | boolean | int | long | float | double =>
    rw [Convert.value] at h
    exact Or.inl ⟨_, h⟩

/-- What a text reads as for a leaf is a scalar. -/
theorem Convert.value_isScalar {kind : LeafKind} {raw : String} {v : Value}
    (h : Convert.value kind raw = .ok v) : v.IsScalar := by
  rcases Convert.value_cases h with
    ⟨type, hread⟩ | rfl | rfl | ⟨type, inner, -, rfl⟩ | ⟨type, items, -, rfl⟩
  · exact scalar_isScalar hread
  all_goals trivial

/-! ### Addresses -/

/-- The address that a path has with map keys, the outermost first: one key for every map. -/
def fillPath : List PathStep → List String → Option (List SlotStep)
  | [], [] => some []
  | .field ident :: path, keys => (fillPath path keys).map (.field ident :: ·)
  | .key _ _ :: path, key :: keys => (fillPath path keys).map (.entry key :: ·)
  | _, _ => none

/-- An address of a path tells the keys. -/
theorem fillPath_inj {path : List PathStep} {keys keys' : List String} {address : List SlotStep}
    (h : fillPath path keys = some address) (h' : fillPath path keys' = some address) :
    keys = keys' := by
  induction path generalizing keys keys' address with
  | nil =>
    cases keys with
    | nil =>
      cases keys' with
      | nil => rfl
      | cons k keys' => cases h'
    | cons k keys => cases h
  | cons step path ih =>
    cases step with
    | field ident =>
      obtain ⟨a, ha, rfl⟩ := Option.map_eq_some_iff.mp h
      obtain ⟨a', ha', heq⟩ := Option.map_eq_some_iff.mp h'
      obtain rfl : a' = a := by simpa using heq
      exact ih ha ha'
    | key segment template =>
      cases keys with
      | nil => cases h
      | cons k keys =>
        cases keys' with
        | nil => cases h'
        | cons k' keys' =>
          obtain ⟨a, ha, rfl⟩ := Option.map_eq_some_iff.mp h
          obtain ⟨a', ha', heq⟩ := Option.map_eq_some_iff.mp h'
          obtain ⟨rfl, rfl⟩ : k' = k ∧ a' = a := by simpa using heq
          rw [ih ha ha']

/-- The address that a path has in a write, where map keys are found by segment. -/
inductive Addresses (key : Nat → Option String) : List PathStep → List SlotStep → Prop where
  | nil : Addresses key [] []
  | field {path : List PathStep} {address : List SlotStep} (ident : String)
      (below : Addresses key path address) :
      Addresses key (.field ident :: path) (.field ident :: address)
  | entry {path : List PathStep} {address : List SlotStep} {segment : Nat} {k : String}
      (template : Nat) (key_eq : key segment = some k) (below : Addresses key path address) :
      Addresses key (.key segment template :: path) (.entry k :: address)

/-! ### Writes, step by step -/

section Write

variable {template : Nat → Option Value} {key : Nat → Option String} {value inner : Value}
  {rest : List PathStep}

/-- Writing below an attribute fills its slot with what has been written to. -/
theorem Value.write_field {v : Value} {ident : String} (h : v.slot? (.field ident) = some inner) :
    v.write template key value (.field ident :: rest) =
      (inner.write template key value rest).map fun r => (v.put (.field ident) r.1, r.2) := by
  cases v with
  | group g =>
    rw [Value.slot?] at h
    rw [Value.write, Group.writeBelow, h]
    dsimp only
    cases inner.write template key value rest <;> rfl
  | _ => cases h

/-- Without the attribute, nothing is written. -/
theorem Value.write_field_of_none {v : Value} {ident : String} (h : v.slot? (.field ident) = none) :
    v.write template key value (.field ident :: rest) = .ok (v, false) := by
  cases v with
  | group g =>
    rw [Value.slot?] at h
    rw [Value.write, Group.writeBelow, h]
    rfl
  | _ => rfl

/-- Writing below a map entry fills its slot; a missing entry is the template. -/
theorem Value.write_entry {entries : Entries Value} {segment entry : Nat} {k : String}
    (hkey : key segment = some k) (h : (entries.lookup k).or (template entry) = some inner) :
    (Value.map entries).write template key value (.key segment entry :: rest) =
      (inner.write template key value rest).map fun r =>
        ((Value.map entries).put (.entry k) r.1, r.2) := by
  rw [Value.write, hkey]
  simp only [h]
  cases inner.write template key value rest <;> rfl

/-- In an empty map, writing below an entry goes on in the template. -/
theorem Value.write_entry_empty {segment entry : Nat} {k : String} (hkey : key segment = some k)
    (htemplate : template entry = some inner) :
    (Value.map []).write template key value (.key segment entry :: rest) =
      (inner.write template key value rest).map fun r =>
        ((Value.map []).put (.entry k) r.1, r.2) :=
  Value.write_entry hkey (by rw [List.lookup_nil, Option.none_or, htemplate])

/-- Without the segment for the map key, nothing is written. -/
theorem Value.write_key_of_none {v : Value} {segment entry : Nat} (h : key segment = none) :
    v.write template key value (.key segment entry :: rest) = .ok (v, false) := by
  cases v with
  | map entries => rw [Value.write, h]
  | _ => rfl

/-- In what is no map, nothing is written under a key. -/
theorem Value.write_key_of_asMap?_eq_none {v : Value} {segment entry : Nat} (h : v.asMap? = none) :
    v.write template key value (.key segment entry :: rest) = .ok (v, false) := by
  cases v with
  | map entries => cases h
  | _ => rfl

/-- A write that comes to an end fills a slot, or leaves everything as it was. The slot held what
has been written to, or it was empty and has been given a template. -/
theorem Value.write_cons_ok {slot slot' : Value} {step : PathStep} {written : Bool}
    (h : slot.write template key value (step :: rest) = .ok (slot', written)) :
    slot' = slot ∨ ∃ s inner inner', Addresses key [step] [s] ∧ slot.Takes s ∧
      (slot.slot? s = some inner ∨
        slot.slot? s = none ∧ ∃ segment entry, step = .key segment entry ∧
          template entry = some inner) ∧
      inner.write template key value rest = .ok (inner', written) ∧ slot' = slot.put s inner' := by
  have hunwritten (heq : slot.write template key value (step :: rest) = .ok (slot, false)) :
      slot' = slot := (Prod.mk.inj (Except.ok.inj (h.symm.trans heq))).1
  cases step with
  | field ident =>
    cases hslot : slot.slot? (.field ident) with
    | none => exact Or.inl (hunwritten (Value.write_field_of_none hslot))
    | some inner =>
      rw [Value.write_field hslot] at h
      obtain ⟨r, hinner, heq⟩ := ok_of_map_eq_ok h
      obtain ⟨rfl, rfl⟩ := Prod.mk.inj heq
      exact Or.inr ⟨_, inner, r.1, .field ident .nil, Value.takes_of_slot?_eq hslot, Or.inl hslot,
        hinner, rfl⟩
  | key segment entry =>
    cases hkey : key segment with
    | none => exact Or.inl (hunwritten (Value.write_key_of_none hkey))
    | some k =>
      cases slot with
      | map entries =>
        cases hor : (List.lookup k entries).or (template entry) with
        | none =>
          rw [Value.write, hkey] at h
          simp only [hor] at h
          cases h
        | some inner =>
          rw [Value.write_entry hkey hor] at h
          obtain ⟨r, hinner, heq⟩ := ok_of_map_eq_ok h
          obtain ⟨rfl, rfl⟩ := Prod.mk.inj heq
          refine Or.inr ⟨_, inner, r.1, .entry entry hkey .nil, trivial, ?_, hinner, rfl⟩
          rcases Option.or_eq_some_iff.mp hor with hlookup | ⟨hlookup, htemplate⟩
          · exact Or.inl hlookup
          · exact Or.inr ⟨hlookup, segment, entry, rfl, htemplate⟩
      | _ => exact Or.inl (hunwritten (Value.write_key_of_asMap?_eq_none rfl))

/-- A value that has been written is in the slot that the path leads to. -/
theorem Value.at?_of_write {v v' : Value} {path : List PathStep} {address : List SlotStep}
    (haddress : Addresses key path address)
    (h : v.write template key value path = .ok (v', true)) : v'.at? address = some value := by
  induction haddress generalizing v v' with
  | nil =>
    rw [Value.write_nil] at h
    obtain ⟨rfl, -⟩ := Prod.mk.inj (Except.ok.inj h)
    rfl
  | @field path address ident below ih =>
    cases hslot : v.slot? (.field ident) with
    | none =>
      rw [Value.write_field_of_none hslot] at h
      cases h
    | some inner =>
      rw [Value.write_field hslot] at h
      obtain ⟨⟨inner', written⟩, hinner, heq⟩ := ok_of_map_eq_ok h
      obtain ⟨rfl, rfl⟩ := Prod.mk.inj heq
      rw [Value.at?_put_self (Value.takes_of_slot?_eq hslot)]
      exact ih hinner
  | @entry path address segment k entry hkey below ih =>
    cases v with
    | map entries =>
      cases hor : (List.lookup k entries).or (template entry) with
      | none =>
        rw [Value.write, hkey] at h
        simp only [hor] at h
        cases h
      | some inner =>
        rw [Value.write_entry hkey hor] at h
        obtain ⟨⟨inner', written⟩, hinner, heq⟩ := ok_of_map_eq_ok h
        obtain ⟨rfl, rfl⟩ := Prod.mk.inj heq
        have htakes : (Value.map entries).Takes (.entry k) := trivial
        rw [Value.at?_put_self htakes]
        exact ih hinner
    | _ =>
      rw [Value.write_key_of_asMap?_eq_none rfl] at h
      cases h

/-- Placing the value of a leaf is a write into the group of its root, if the leaf's path begins
with an attribute. -/
theorem Leaf.place_eq {d : Definition} {leaf : Leaf} {name : Cursor} {root : Group}
    {ident : String} (hpath : leaf.path = .field ident :: rest) :
    (leaf.place d name value root).map (fun r => (Value.group r.1, r.2)) =
      (Value.group root).write d.template? (fun segment => name.segment? (name.position + segment))
        value leaf.path := by
  rw [Leaf.place, hpath, Value.write]
  dsimp only
  cases root.writeBelow ident fun slot =>
    slot.write d.template? (fun segment => name.segment? (name.position + segment)) value rest <;>
    rfl

/-- Placing the value of a leaf leaves the root as it is, or it is a write. -/
theorem Leaf.place_ok {d : Definition} {leaf : Leaf} {name : Cursor} {root root' : Group}
    {written : Bool} (h : leaf.place d name value root = .ok (root', written)) :
    root' = root ∨
      (Value.group root).write d.template?
        (fun segment => name.segment? (name.position + segment)) value leaf.path =
        .ok (.group root', written) := by
  cases hpath : leaf.path with
  | nil =>
    rw [Leaf.place, hpath] at h
    exact Or.inl (congrArg Prod.fst (Except.ok.inj h)).symm
  | cons step rest =>
    cases step with
    | field ident => exact Or.inr (by rw [← hpath, ← Leaf.place_eq hpath, h]; rfl)
    | key segment entry =>
      rw [Leaf.place, hpath] at h
      exact Or.inl (congrArg Prod.fst (Except.ok.inj h)).symm

/-- Placing a value that gets written is a write along the path of the leaf. -/
theorem Leaf.write_of_place {d : Definition} {leaf : Leaf} {name : Cursor} {root root' : Group}
    (h : leaf.place d name value root = .ok (root', true)) :
    (Value.group root).write d.template? (fun segment => name.segment? (name.position + segment))
      value leaf.path = .ok (.group root', true) := by
  cases hpath : leaf.path with
  | nil =>
    rw [Leaf.place, hpath] at h
    cases h
  | cons step rest =>
    cases step with
    | field ident =>
      rw [← hpath, ← Leaf.place_eq hpath, h]
      rfl
    | key segment entry =>
      rw [Leaf.place, hpath] at h
      cases h

end Write

/-! ### The value of a raw text -/

/-- Whether a raw text gives a leaf a value: the default if it is empty, else what it reads as. -/
def Leaf.Gives (leaf : Leaf) (raw : String) (value : Value) : Prop :=
  raw = "" ∧ value = leaf.defaultValue ∨ raw ≠ "" ∧ Convert.value leaf.kind raw = .ok value

/-- Whether a raw text does not read as the kind of a leaf, for a reason. The empty text stands for
the default and is not read. -/
def Leaf.Rejects (leaf : Leaf) (raw : String) (reason : ConversionError) : Prop :=
  raw ≠ "" ∧ Convert.value leaf.kind raw = .error reason

section RawText

variable {leaf : Leaf} {name raw : String} {value : Value}

/-- A raw text has a value for a leaf exactly if it gives the leaf this value. -/
theorem Leaf.valueOf_eq_ok_iff : leaf.valueOf name raw = .ok value ↔ leaf.Gives raw value := by
  rw [Leaf.valueOf]
  split_ifs with hraw
  · simp [Leaf.Gives, hraw, eq_comm]
  · cases hread : Convert.value leaf.kind raw <;> simp [Leaf.Gives, hraw, hread]

/-- A raw text gives a leaf one value. -/
theorem Leaf.Gives.unique {value' : Value} (h : leaf.Gives raw value)
    (h' : leaf.Gives raw value') : value = value' := by
  have hvalue : leaf.valueOf raw raw = .ok value := Leaf.valueOf_eq_ok_iff.mpr h
  exact Except.ok.inj (hvalue.symm.trans (Leaf.valueOf_eq_ok_iff.mpr h'))

/-- A raw text has no value for a leaf exactly if the leaf rejects it. -/
theorem Leaf.valueOf_eq_error_iff {e : BindError} : leaf.valueOf name raw = .error e ↔
    ∃ reason, leaf.Rejects raw reason ∧ e = .conversion name raw reason := by
  rw [Leaf.valueOf]
  split_ifs with hraw
  · simp [Leaf.Rejects, hraw]
  · cases hread : Convert.value leaf.kind raw <;> simp [Leaf.Rejects, hraw, hread, eq_comm]

/-- The value of a leaf is a scalar, since its default is. -/
theorem Leaf.valueOf_isScalar (hdefault : leaf.defaultValue.IsScalar)
    (h : leaf.valueOf name raw = .ok value) : value.IsScalar := by
  rcases Leaf.valueOf_eq_ok_iff.mp h with ⟨-, rfl⟩ | ⟨-, hread⟩
  · exact hdefault
  · exact Convert.value_isScalar hread

end RawText

end PropertyBinding

import Mathlib.Data.List.Sort
import PropertyBinding.Proofs.Indices
import PropertyBinding.Proofs.PlainLoading

/-!
# Map keys and wildcards

The keys of map entries should be the segments of a name that stand at the wildcards of the pattern.
Registration counts, for every map, the pieces of the key in front of the map's wildcard; loading
reads the segment with this number. In a definition that repeats no attribute, the names of a leaf
are keyed by their wildcard segments exactly if the counted segments are those at the wildcards
(`Leaf.Counted`, `Built.keysByWildcards_iff`).

If they are, a value fills the slot with the wildcard segments as keys
(`Loaded.loadName_of_counted`). If they are not, the pattern itself is a name for which they do not:
with all maps empty, a write can only fill the slot under the keys that it has read
(`Way.keys_of_write`), the segments at the wildcards are all the same, and so the counted segments,
which ascend along the path, would be those at the wildcards (`Way.counted_of_keys`).

An explicit name is cut into pieces at every dot, a quoted segment of a pattern is not. So the
segments of `quotedDecl` are counted wrong, and two of its entries are merged
(`quotedDecl_entries_merged`).
-/

namespace PropertyBinding

open Definition

/-! ### Different keys, different entries -/

/-- Whether two addresses lead to one map and there to entries with different keys. -/
def PartAtEntry (address address' : List SlotStep) : Prop :=
  ∃ before k k' rest rest', k ≠ k' ∧ address = before ++ .entry k :: rest ∧
    address' = before ++ .entry k' :: rest'

/-- Addresses of one path with different keys part at a map entry. -/
theorem partAtEntry_of_ne {path : List PathStep} {keys keys' : List String}
    {address address' : List SlotStep} (h : fillPath path keys = some address)
    (h' : fillPath path keys' = some address') (hne : keys ≠ keys') :
    PartAtEntry address address' := by
  induction path generalizing keys keys' address address' with
  | nil =>
    cases keys with
    | nil =>
      cases keys' with
      | nil => exact absurd rfl hne
      | cons k' keys' => cases h'
    | cons k keys => cases h
  | cons step path ih =>
    cases step with
    | field ident =>
      obtain ⟨below, hbelow, rfl⟩ := Option.map_eq_some_iff.mp h
      obtain ⟨below', hbelow', rfl⟩ := Option.map_eq_some_iff.mp h'
      obtain ⟨before, k, k', rest, rest', hk, rfl, rfl⟩ := ih hbelow hbelow' hne
      exact ⟨.field ident :: before, k, k', rest, rest', hk, rfl, rfl⟩
    | key segment template =>
      cases keys with
      | nil => cases h
      | cons k keys =>
        cases keys' with
        | nil => cases h'
        | cons k' keys' =>
          obtain ⟨below, hbelow, rfl⟩ := Option.map_eq_some_iff.mp h
          obtain ⟨below', hbelow', rfl⟩ := Option.map_eq_some_iff.mp h'
          by_cases hk : k = k'
          · subst hk
            have hrest : keys ≠ keys' := fun heq => hne (congrArg (k :: ·) heq)
            obtain ⟨before, l, l', rest, rest', hl, rfl, rfl⟩ := ih hbelow hbelow' hrest
            exact ⟨.entry k :: before, l, l', rest, rest', hl, rfl, rfl⟩
          · exact ⟨[], k, k', below, below', hk, rfl, rfl⟩

/-! ### Counted segments and wildcards -/

/-- The positions of a pattern's wildcards, counted from `start`. -/
theorem mem_wildcardPositions {start position : Nat} {pattern : List String} :
    position ∈ wildcardPositions start pattern ↔
      ∃ i, position = start + i ∧ pattern[i]? = some wildcard := by
  induction pattern generalizing start with
  | nil => simp [wildcardPositions]
  | cons piece pattern ih =>
    have hcons : (∃ i, position = start + i ∧ (piece :: pattern)[i]? = some wildcard) ↔
        (position = start ∧ piece = wildcard) ∨
          ∃ i, position = start + 1 + i ∧ pattern[i]? = some wildcard := by
      constructor
      · rintro ⟨i, rfl, hi⟩
        cases i with
        | zero => exact Or.inl ⟨rfl, by simpa using hi⟩
        | succ i => exact Or.inr ⟨i, by omega, by simpa using hi⟩
      · rintro (⟨rfl, rfl⟩ | ⟨i, rfl, hi⟩)
        · exact ⟨0, rfl, rfl⟩
        · exact ⟨i + 1, by omega, by simpa using hi⟩
    rw [hcons, wildcardPositions]
    split_ifs with hpiece
    · rw [List.mem_cons, ih, and_iff_left hpiece]
    · rw [ih, or_iff_right fun h => hpiece h.2]

/-- The positions of wildcards ascend. -/
theorem pairwise_wildcardPositions (start : Nat) (pattern : List String) :
    (wildcardPositions start pattern).Pairwise (· < ·) := by
  induction pattern generalizing start with
  | nil => exact .nil
  | cons piece pattern ih =>
    rw [wildcardPositions]
    split_ifs
    · refine .cons (fun position hposition => ?_) (ih (start + 1))
      obtain ⟨i, rfl, -⟩ := mem_wildcardPositions.mp hposition
      omega
    · exact ih (start + 1)

/-- In a pattern read as a name, only wildcards stand at the wildcards. -/
theorem eq_wildcard_of_mem_wildcardSegments {pattern : List String} {segment : String}
    (h : segment ∈ wildcardSegments pattern pattern) : segment = wildcard := by
  induction pattern with
  | nil => simp [wildcardSegments] at h
  | cons piece pattern ih =>
    rw [wildcardSegments] at h
    split_ifs at h with hpiece
    · rcases List.mem_cons.mp h with rfl | h
      · exact hpiece
      · exact ih h
    · exact ih h

section Way

variable {leaves : List Leaf} {templates : List Value} {piece : String → Prop} {node : Node}
  {key full : List String} {steps : List PathStep} {id : Nat}

/-- The segments that a way counts ascend from the length of the key. -/
theorem Way.pairwise_keySegments (h : Way leaves templates piece node key steps full id) :
    (∀ segment ∈ keySegments steps, key.length ≤ segment) ∧
      (keySegments steps).Pairwise (· < ·) := by
  induction h with
  | leaf key id => exact ⟨by simp [keySegments], .nil⟩
  | @field _ _ _ key more _ _ _ _ _ _ ih =>
    rw [List.length_append] at ih
    exact ⟨fun segment hsegment => Nat.le_of_add_right_le (ih.1 segment hsegment), ih.2⟩
  | entry _ _ ih =>
    rw [List.length_append, List.length_singleton] at ih
    refine ⟨List.forall_mem_cons.mpr ⟨Nat.le_refl _, fun segment hsegment => ?_⟩, .cons ih.1 ih.2⟩
    exact Nat.le_of_succ_le (ih.1 segment hsegment)

/-- **What a write into a default can fill**: a slot under the keys that it has read, since all maps
on the way are empty. -/
theorem Way.keys_of_write (h : Way leaves templates piece node key steps full id)
    (hnodup : node.Each List.Nodup) {keyAt : Nat → Option String} {value slot' : Value}
    {written : Bool} (hwrite : (defaultOver leaves node).write
      (fun template => templates[template]?) keyAt value steps = .ok (slot', written))
    {keys : List String} {address : List SlotStep} (hfill : fillPath steps keys = some address)
    (hslot : (slot'.at? address).isSome) :
    List.Forall₂ (fun segment k => keyAt segment = some k) (keySegments steps) keys := by
  induction h generalizing slot' keys address with
  | leaf key id =>
    cases keys with
    | nil => exact .nil
    | cons k keys => cases hfill
  | @field g ident child _ _ _ _ _ mem _ _ ih =>
    obtain ⟨hattribute, heach⟩ := hnodup.attribute?_eq mem
    obtain ⟨below, hbelow, rfl⟩ := Option.map_eq_some_iff.mp hfill
    have hget := defaultOver_group_slot? leaves g ident
    rw [defaultOver] at hwrite hget
    rw [hattribute, Option.map_some] at hget
    rw [Value.write_field hget] at hwrite
    obtain ⟨⟨inner', written'⟩, hinner, heq⟩ := ok_of_map_eq_ok hwrite
    obtain ⟨rfl, rfl⟩ := Prod.mk.inj heq
    have htakes : (Value.group (defaultGroupOver leaves g)).Takes (.field ident) := trivial
    rw [Value.at?_put_self htakes] at hslot
    exact ih heach hinner hbelow hslot
  | @entry child template key _ _ _ template_eq _ ih =>
    rw [Node.Each] at hnodup
    cases keys with
    | nil => cases hfill
    | cons k keys =>
      obtain ⟨below, hbelow, rfl⟩ := Option.map_eq_some_iff.mp hfill
      rw [defaultOver] at hwrite
      cases hkey : keyAt key.length with
      | none =>
        rw [Value.write, hkey] at hwrite
        obtain ⟨rfl, -⟩ := Prod.mk.inj (Except.ok.inj hwrite)
        cases hslot
      | some read =>
        rw [Value.write_entry_empty hkey template_eq] at hwrite
        obtain ⟨⟨inner', written'⟩, hinner, heq⟩ := ok_of_map_eq_ok hwrite
        obtain ⟨rfl, rfl⟩ := Prod.mk.inj heq
        -- The entry that has been made is the only one of the map.
        by_cases hk : k = read
        · subst hk
          have htakes : (Value.map []).Takes (.entry k) := trivial
          rw [Value.at?_put_self htakes] at hslot
          exact .cons hkey (ih hnodup hinner hbelow hslot)
        · rw [Value.at?_put_of_ne fun heq => hk (SlotStep.entry.inj heq)] at hslot
          cases hslot

/-- **Counted segments at which a pattern has wildcards** are those at the wildcards, if there are
as many. -/
theorem Way.counted_of_keys {leaf : Leaf}
    (h : Way leaves templates piece node key leaf.path full id)
    (hkeys : List.Forall₂ (fun segment k => (Name.segments leaf.pattern)[segment]? = some k)
      (keySegments leaf.path)
      (wildcardSegments (Name.segments leaf.pattern) (Name.segments leaf.pattern))) :
    leaf.Counted := by
  have hascend := h.pairwise_keySegments.2
  have hsubset : keySegments leaf.path ⊆ wildcardPositions 0 (Name.segments leaf.pattern) := by
    intro segment hsegment
    obtain ⟨i, hi⟩ := List.mem_iff_get.mp hsegment
    have hkey := hkeys.get i.isLt (hkeys.length_eq ▸ i.isLt)
    rw [eq_wildcard_of_mem_wildcardSegments (List.get_mem _ _), hi] at hkey
    exact mem_wildcardPositions.mpr ⟨segment, (Nat.zero_add segment).symm, hkey⟩
  have hlength : (wildcardPositions 0 (Name.segments leaf.pattern)).length =
      (keySegments leaf.path).length :=
    (forall₂_wildcardSegments rfl []).length_eq.trans hkeys.length_eq.symm
  have hperm := (List.subperm_of_subset (hascend.imp Nat.ne_of_lt) hsubset).perm_of_length_le
    (Nat.le_of_eq hlength)
  exact hperm.eq_of_pairwise (fun a b _ _ hab hba => absurd hab (Nat.lt_asymm hba)) hascend
    (pairwise_wildcardPositions 0 _)

end Way

/-! ### Loading with keys at the wildcards -/

/-- What it means that the names of a leaf are keyed by their wildcard segments. -/
structure Definition.KeysByWildcards (d : Definition) (id : Nat) (leaf : Leaf) : Prop where
  /-- A value that can be read is written under the name's segments at the wildcards as map keys. -/
  loads : ∀ (c : RealizedConfig) (l : Loader) (source : Source) (report : LoadReport)
    (before after : List LoadTarget) (name : String) (value : Value), Loaded d c →
    (Cursor.ofName name).peek? = some l.namespaceName →
    (∀ t ∈ before, t.definition.matchLeaf (Cursor.ofName name).next.2 = none) →
    d.matchLeaf (Cursor.ofName name).next.2 = some (id, leaf) → (c.get? leaf.root).isSome →
    leaf.Gives ((source.value? name).getD "") value →
    ∃ c', l.loadName source (before ++ ⟨d, c⟩ :: after) report name =
        .ok (before ++ ⟨d, c'⟩ :: after, { report with applied := report.applied + 1 }) ∧
      SlotLoaded d c id leaf (leaf.keysIn (Cursor.ofName name).next.2) value name
        ((source.value? name).getD "") c'
  /-- Names that differ in a segment at a wildcard lead to different entries of a map. -/
  parts : ∀ name name' : Cursor, d.matchLeaf name = some (id, leaf) →
    d.matchLeaf name' = some (id, leaf) → leaf.keysIn name ≠ leaf.keysIn name' →
    ∃ address address', fillPath leaf.path (leaf.keysIn name) = some address ∧
      fillPath leaf.path (leaf.keysIn name') = some address' ∧ PartAtEntry address address'

section Keyed

variable {piece : String → Prop} {d : Definition} {id : Nat} {leaf : Leaf} {c : RealizedConfig}

/-- If the segments of a leaf are counted right, a value that can be read fills the slot of the leaf
under the name's segments at the wildcards. -/
theorem Loaded.loadName_of_counted (h : Built (RootDecl.Each piece List.Nodup) d) (hc : Loaded d c)
    (hcounted : leaf.Counted) (l : Loader) (source : Source) (report : LoadReport)
    {before after : List LoadTarget} {name : String} {value : Value}
    (hname : (Cursor.ofName name).peek? = some l.namespaceName)
    (hbefore : ∀ t ∈ before, t.definition.matchLeaf (Cursor.ofName name).next.2 = none)
    (hmatch : d.matchLeaf (Cursor.ofName name).next.2 = some (id, leaf))
    (hrealized : (c.get? leaf.root).isSome)
    (hvalue : leaf.Gives ((source.value? name).getD "") value) :
    ∃ c', l.loadName source (before ++ ⟨d, c⟩ :: after) report name =
        .ok (before ++ ⟨d, c'⟩ :: after, { report with applied := report.applied + 1 }) ∧
      SlotLoaded d c id leaf (leaf.keysIn (Cursor.ofName name).next.2) value name
        ((source.value? name).getD "") c' := by
  obtain ⟨g, hget⟩ := Option.isSome_iff_exists.mp hrealized
  obtain ⟨root, hroot, hcontaining, hfits⟩ := hc.fits h _ g hget
  obtain ⟨g', address, hplace, hfill, hfilled⟩ :=
    h.place_fills_of_counted hroot hmatch hcontaining.symm hcounted value hfits
  have hget' := c.placed_get?_self leaf.root g' name ((source.value? name).getD "")
  have hroots := fun other (hne : other ≠ leaf.root) =>
    c.placed_get?_of_ne hne g' name ((source.value? name).getD "")
  refine ⟨_, Loader.loadName_of_place hname hbefore hmatch hget hvalue hplace, ?_, ?_, hroots, rfl,
    rfl⟩
  · rw [RealizedConfig.slot?_eq hget' hfill, hfilled.self]
  · intro id' leaf' keys' hleaf' hne
    exact h.slots_of_filled hroot (matchLeaf_eq_some hmatch).2 hcontaining.symm hfill hfilled hget
      hget' hroots hleaf' hne

/-- If the segments of a leaf are counted right, its names are keyed by their wildcard segments. -/
theorem Built.keysByWildcards (h : Built (RootDecl.Each piece List.Nodup) d)
    (hcounted : leaf.Counted) : d.KeysByWildcards id leaf where
  loads := fun _ l source report _ _ _ _ hc hname hbefore hmatch hrealized hvalue =>
    hc.loadName_of_counted h hcounted l source report hname hbefore hmatch hrealized hvalue
  parts := by
    intro name name' hmatch hmatch' hne
    have haddress : ∀ {name : Cursor}, d.matchLeaf name = some (id, leaf) →
        ∃ address, fillPath leaf.path (leaf.keysIn name) = some address := by
      intro name hmatch
      have hkeys := forall₂_wildcardSegments (h.sound.length_segments hmatch) []
      rw [List.length_nil, ← hcounted] at hkeys
      obtain ⟨address, -, hfill⟩ := exists_addresses hkeys
      exact ⟨address, hfill⟩
    obtain ⟨address, hfill⟩ := haddress hmatch
    obtain ⟨address', hfill'⟩ := haddress hmatch'
    exact ⟨address, address', hfill, hfill', partAtEntry_of_ne hfill hfill' hne⟩

/-- If placing a value in the default of a root has filled a slot of the leaf, then under the keys
that the name has at the counted segments. -/
theorem Built.keys_of_place (h : Built (RootDecl.Each piece List.Nodup) d) {root : Root}
    (hroot : root ∈ d.roots) (hleaf : d.leaf? id = some leaf)
    (hname : leaf.root = root.containingName) {name : Cursor} {value : Value} {g' : Group}
    {written : Bool}
    (hplace : leaf.place d name value (d.defaultGroup root.tree) = .ok (g', written))
    {keys : List String} {address : List SlotStep} (hfill : fillPath leaf.path keys = some address)
    (hslot : ((Value.group g').at? address).isSome) :
    List.Forall₂ (fun segment k => name.remaining[segment]? = some k) (keySegments leaf.path)
      keys := by
  obtain ⟨hnodup, full, way⟩ := h.way hroot hleaf hname
  obtain ⟨ident, rest, hpath, -⟩ := way.exists_field
  have hwrite : (defaultOver d.leaves (.group root.tree)).write d.template?
      (fun segment => name.segment? (name.position + segment)) value leaf.path =
        .ok (.group g', written) := by
    rw [defaultOver]
    refine (Leaf.place_eq hpath).symm.trans ?_
    exact congrArg _ hplace
  simp only [Cursor.remaining_getElem?]
  exact way.keys_of_write hnodup hwrite hfill hslot

/-- If the names of a leaf are keyed by their wildcard segments, its segments are counted right:
otherwise the pattern itself is a name whose value is written under other keys. -/
theorem Definition.KeysByWildcards.counted (h : Built (RootDecl.Each piece List.Nodup) d)
    (hleaf : d.leaf? id = some leaf) (hkeyed : d.KeysByWildcards id leaf) : leaf.Counted := by
  have happ : Name.Bare "app" := ⟨by decide, by decide, by decide⟩
  obtain ⟨root, hroot, hcontaining, -, -, full, -, way⟩ := h.exists_way hleaf
  obtain ⟨hname, hmatch⟩ := h.sound.matchLeaf_pattern hleaf happ
  have hget : (d.realize .build).get? leaf.root = some (d.defaultGroup root.tree) := by
    rw [← hcontaining]
    exact realize_get?_eq h.sound.names hroot rfl
  -- The name has no value, so the leaf's default is written into a graph with empty maps.
  obtain ⟨c', hload, hloaded⟩ := hkeyed.loads (d.realize .build) (Loader.ofNamespace "app")
    ⟨[], fun _ => none⟩ {} [] [] _ leaf.defaultValue (.walked .build) hname (List.forall_mem_nil _)
    hmatch (Option.isSome_iff_exists.mpr ⟨_, hget⟩) (Or.inl ⟨rfl, rfl⟩)
  obtain ⟨value, g', written, hplace, hget'⟩ :=
    Loader.exists_place_of_loadName hname hmatch hget hload
  have hslot := hloaded.slot
  rw [RealizedConfig.slot?, hget', Option.bind_eq_bind, Option.bind_some] at hslot
  obtain ⟨address, hfill, hat⟩ := Option.bind_eq_some_iff.mp hslot
  have hkeys := h.keys_of_place hroot hleaf hcontaining.symm hplace hfill
    (Option.isSome_iff_exists.mpr ⟨_, hat⟩)
  rw [Cursor.next_ofName hname, Leaf.keysIn, Cursor.remaining_append happ] at hkeys
  exact way.counted_of_keys hkeys

/-- **Keys and wildcards.** In a definition built by accepted declarations that repeat no attribute,
the names of a leaf are keyed by their segments at the wildcards exactly if the segments counted at
registration are those at the wildcards. -/
theorem Built.keysByWildcards_iff (h : Built (RootDecl.Each piece List.Nodup) d)
    (hleaf : d.leaf? id = some leaf) : d.KeysByWildcards id leaf ↔ leaf.Counted :=
  ⟨fun hkeyed => hkeyed.counted h hleaf, fun hcounted => h.keysByWildcards hcounted⟩

end Keyed

/-! ### A quoted segment with a dot -/

/-- A root `a` with a map whose name is one quoted segment with a dot, and a map whose name is two
segments. -/
def quotedDecl : RootDecl where
  group := ⟨"AConfig", false,
    [⟨"m", .explicit "\"x.y\"", none, .map (some .string) (some (.group ⟨"G", true,
        [⟨"v", .hyphenated, none, .object .string, false, none⟩]⟩)), false, none⟩,
      ⟨"n", .explicit "x.y", none, .map (some .string) (some (.object .string)), false, none⟩]⟩
  name := .hyphenated
  phase := .runTime

theorem built_quotedDecl :
    Built (RootDecl.Each (fun _ => True) List.Nodup) (empty.registerRoot quotedDecl).1 := by
  refine .register .empty ⟨fun _ _ _ _ => trivial, ?_⟩ (Prod.ext rfl (by decide +kernel))
  simp [quotedDecl, GroupDecl.Each, FieldsEach, FieldDecl.Each, Shape.Each]

/-- The entries of the map with the name of two segments are keyed by their wildcard, those of the
map with the quoted name are not. -/
theorem keysByWildcards_quotedDecl :
    let d := (empty.registerRoot quotedDecl).1
    (∀ leaf, d.leaf? 0 = some leaf → ¬d.KeysByWildcards 0 leaf) ∧
      ∀ leaf, d.leaf? 1 = some leaf → d.KeysByWildcards 1 leaf := by
  intro d
  have hcounted : d.leaves.map (fun leaf => decide leaf.Counted) = [false, true] := by
    decide +kernel
  have hat : ∀ {id : Nat} {leaf : Leaf}, d.leaf? id = some leaf →
      [false, true][id]? = some (decide leaf.Counted) := by
    intro id leaf hleaf
    rw [← hcounted, List.getElem?_map, show d.leaves[id]? = some leaf from hleaf, Option.map_some]
  refine ⟨fun leaf hleaf hkeyed => ?_, fun leaf hleaf => ?_⟩
  · have hright := (built_quotedDecl.keysByWildcards_iff hleaf).mp hkeyed
    simpa [hright] using hat hleaf
  · refine (built_quotedDecl.keysByWildcards_iff hleaf).mpr ?_
    simpa using hat hleaf

/-- **Entries can be merged.** Two names of one leaf with different segments at its wildcard are
both applied, and write to the same entry, under the attribute's name. -/
theorem quotedDecl_entries_merged :
    let d := (empty.registerRoot quotedDecl).1
    let names := ["app.a.\"x.y\".k1.v", "app.a.\"x.y\".k2.v"]
    let source := (Properties.ofPairs (names.zip ["1", "2"])).toSource
    let run := (Loader.ofNamespace "app").load source [⟨d, d.realize .build⟩]
    (¬∀ id leaf, d.leaf? id = some leaf → d.KeysByWildcards id leaf) ∧
      names.map (fun name => (d.matchLeaf (Cursor.ofName name).next.2).map fun found =>
        (found.1, found.2.keysIn (Cursor.ofName name).next.2)) =
          [some (0, ["k1"]), some (0, ["k2"])] ∧
      run.2.toOption = some { applied := 2 } ∧
      run.1.map (fun target => do
        let g ← target.config.get? "a"
        let entries ← (g.get? "m").bind Value.asMap?
        return (Entries.keys entries,
          ((Value.map entries).at? [.entry "v", .field "v"]).bind Value.asString?)) =
          [some (["v"], some "2")] := by
  intro d names source run
  refine ⟨fun hkeyed => ?_, by decide +kernel, by decide +kernel, by decide +kernel⟩
  have hwrong : d.leaves[0]?.map (fun leaf => decide leaf.Counted) = some false := by decide +kernel
  obtain ⟨leaf, hleaf, hnot⟩ := Option.map_eq_some_iff.mp hwrong
  exact of_decide_eq_false hnot ((hkeyed 0 leaf hleaf).counted built_quotedDecl hleaf)

end PropertyBinding

import PropertyBinding.Frozen
import PropertyBinding.Proofs.MapKeys
import PropertyBinding.Proofs.Traces

/-!
# Freezing

Freezing a config makes cells from the realized slots of the overridable leaves. The name of a cell
is made from the text of the leaf's pattern and from the map keys on the way to the slot; in a plain
definition it is the dotted name of the pattern's segments with the keys in place of the wildcards
(`Built.concreteName_eq`).

Such names tell the slots apart, so no cell replaces another, and a loader reads them as they are
meant: what is loaded under the name of a cell overwrites the slot of the cell and nothing else
(`Loaded.freezes`). Only of an empty key at its end a name keeps no trace when it is read.
-/

namespace PropertyBinding

open Definition

/-! ### Pieces of a pattern -/

namespace Text

/-- A piece without separators in front of one is the first piece. -/
theorem pieces_append {sep : Char} {piece : List Char} (h : sep ∉ piece) (rest : List Char) :
    pieces sep (piece ++ sep :: rest) = piece :: pieces sep rest := by
  induction piece with
  | nil => rw [List.nil_append, pieces, if_pos rfl]
  | cons c piece ih =>
    obtain ⟨hc, hrest⟩ := List.ne_and_not_mem_of_not_mem_cons h
    rw [List.cons_append, pieces, if_neg hc.symm, ih hrest]

/-- A text without separators is the only piece. -/
theorem pieces_of_not_mem {sep : Char} {piece : List Char} (h : sep ∉ piece) :
    pieces sep piece = [piece] := by
  induction piece with
  | nil => rfl
  | cons c piece ih =>
    obtain ⟨hc, hrest⟩ := List.ne_and_not_mem_of_not_mem_cons h
    rw [pieces, if_neg hc.symm, ih hrest]

/-- Cutting joined pieces gives the pieces back. -/
theorem pieces_intercalate {sep : Char} {texts : List (List Char)} (h : ∀ text ∈ texts, sep ∉ text)
    (hne : texts ≠ []) : pieces sep ([sep].intercalate texts) = texts := by
  induction texts with
  | nil => exact absurd rfl hne
  | cons text texts ih =>
    obtain ⟨htext, htexts⟩ := List.forall_mem_cons.mp h
    cases texts with
    | nil => rw [List.intercalate_singleton, pieces_of_not_mem htext]
    | cons next texts =>
      rw [List.intercalate_cons_cons, List.append_assoc, List.singleton_append, pieces_append htext,
        ih htexts (List.cons_ne_nil _ _)]

/-- Cutting joined strings at the dots gives the strings back. -/
theorem split_intercalate {texts : List String} (h : ∀ text ∈ texts, '.' ∉ text.toList)
    (hne : texts ≠ []) : split '.' (String.intercalate "." texts) = texts := by
  have hpieces : pieces '.' (['.'].intercalate (texts.map String.toList)) =
      texts.map String.toList :=
    pieces_intercalate (List.forall_mem_map.mpr h) (by simpa using hne)
  rw [split, String.toList_intercalate, show ".".toList = ['.'] from rfl, hpieces, List.map_map]
  simp [Function.comp_def]

end Text

section Pieces

variable {pattern keys : List String}

/-- Replacing the wildcards of a pattern piece by piece puts the keys into a name. -/
theorem fillWildcards_eq (h : ∀ piece ∈ pattern, Name.Bare piece) (keys : List String) :
    fillWildcards pattern keys = (fillKeys pattern keys).map Name.quoteSegment := by
  induction pattern generalizing keys with
  | nil => rfl
  | cons piece pattern ih =>
    obtain ⟨hpiece, hpattern⟩ := List.forall_mem_cons.mp h
    cases keys with
    | nil =>
      have hrest := ih hpattern []
      rw [fillKeys_nil] at hrest ⊢
      rw [fillWildcards, List.map_cons, hpiece.quoteSegment_eq, hrest]
      split_ifs <;> rfl
    | cons key keys =>
      rw [fillWildcards, fillKeys]
      split_ifs
      · rw [List.map_cons, ← ih hpattern keys]
      · rw [List.map_cons, hpiece.quoteSegment_eq, ih hpattern]

/-- Every segment of a filled pattern is one of the pattern or a key. -/
theorem mem_fillKeys {segment : String} (h : segment ∈ fillKeys pattern keys) :
    segment ∈ pattern ∨ segment ∈ keys := by
  induction pattern generalizing keys with
  | nil => cases h
  | cons piece pattern ih =>
    cases keys with
    | nil =>
      rw [fillKeys_nil] at h
      exact Or.inl h
    | cons key keys =>
      rw [fillKeys] at h
      split_ifs at h
      · rcases List.mem_cons.mp h with rfl | h
        · exact Or.inr List.mem_cons_self
        · exact (ih h).imp (List.mem_cons_of_mem _) (List.mem_cons_of_mem _)
      · rcases List.mem_cons.mp h with rfl | h
        · exact Or.inl List.mem_cons_self
        · exact (ih h).imp_left (List.mem_cons_of_mem _)

theorem fillKeys_ne_nil (h : pattern ≠ []) (keys : List String) : fillKeys pattern keys ≠ [] := by
  intro hnil
  have hcovers := (covers_fillKeys pattern keys).length_eq
  rw [hnil] at hcovers
  exact h (List.length_eq_zero_iff.mp hcovers)

/-- An empty segment at the end of a filled pattern is the last key. -/
theorem getLast?_fillKeys (h : ∀ piece ∈ pattern, piece ≠ "") {start : Nat}
    (hlength : (wildcardPositions start pattern).length = keys.length)
    (hlast : (fillKeys pattern keys).getLast? = some "") :
    pattern.getLast? = some wildcard ∧ keys.getLast? = some "" := by
  induction pattern generalizing keys start with
  | nil => cases hlast
  | cons piece pattern ih =>
    obtain ⟨hpiece, hpattern⟩ := List.forall_mem_cons.mp h
    cases keys with
    | nil =>
      rw [fillKeys_nil] at hlast
      exact absurd rfl (h "" (List.mem_of_getLast? hlast))
    | cons key keys =>
      rw [wildcardPositions] at hlength
      rw [fillKeys] at hlast
      by_cases hempty : pattern = []
      · subst hempty
        split_ifs at hlength hlast with hwild
        · obtain rfl : keys = [] := by simpa [wildcardPositions, eq_comm] using hlength
          obtain rfl : key = "" := by simpa [fillKeys] using hlast
          exact ⟨by rw [hwild]; rfl, rfl⟩
        · exact absurd (by simpa [fillKeys] using hlast) hpiece
      · rw [List.getLast?_cons_of_ne_nil hempty]
        split_ifs at hlength hlast with hwild
        · rw [List.getLast?_cons_of_ne_nil (fillKeys_ne_nil hempty keys)] at hlast
          obtain ⟨hpattern, hkeys⟩ := ih hpattern (Nat.succ.inj hlength) hlast
          exact ⟨hpattern, by
            rw [List.getLast?_cons_of_ne_nil (by rintro rfl; cases hkeys), hkeys]⟩
        · rw [List.getLast?_cons_of_ne_nil (fillKeys_ne_nil hempty (key :: keys))] at hlast
          exact ih hpattern hlength hlast

end Pieces

/-! ### Cells -/

section Cells

variable {d : Definition} {c : RealizedConfig} {id : Nat} {leaf : Leaf} {keys : List String}

/-- **What is collected below a value**: what stands at the addresses that the path has with map
keys, each with the keys. -/
theorem Value.mem_collect_iff {v x : Value} (h : v.Ascends) {path : List PathStep}
    {keys : List String} : (keys, x) ∈ v.collect path ↔
      ∃ address, fillPath path keys = some address ∧ v.at? address = some x := by
  induction path generalizing v keys with
  | nil =>
    rw [collect, List.mem_singleton]
    constructor
    · intro heq
      obtain ⟨rfl, rfl⟩ := Prod.mk.inj heq
      exact ⟨[], rfl, rfl⟩
    · rintro ⟨address, hfill, hat⟩
      cases keys with
      | nil =>
        obtain rfl := Option.some.inj hfill
        rw [Option.some.inj hat]
      | cons key keys => cases hfill
  | cons step path ih =>
    cases step with
    | field ident =>
      have hcollect : (keys, x) ∈ v.collect (.field ident :: path) ↔
          ∃ inner, v.slot? (.field ident) = some inner ∧ (keys, x) ∈ inner.collect path := by
        cases v with
        | group g =>
          rw [collect, slot?]
          cases g.get? ident <;> simp
        | _ => simp [collect, slot?]
      rw [hcollect]
      constructor
      · rintro ⟨inner, hslot, hmem⟩
        obtain ⟨address, hfill, hat⟩ := (ih (h.slot hslot)).mp hmem
        exact ⟨.field ident :: address, by rw [fillPath, hfill]; rfl,
          by rw [at?_cons, hslot]; exact hat⟩
      · rintro ⟨address, hfill, hat⟩
        obtain ⟨below, hbelow, rfl⟩ := Option.map_eq_some_iff.mp hfill
        obtain ⟨inner, hslot, hinner⟩ := Option.bind_eq_some_iff.mp hat
        exact ⟨inner, hslot, (ih (h.slot hslot)).mpr ⟨below, hbelow, hinner⟩⟩
    | key segment template =>
      have hcollect : (keys, x) ∈ v.collect (.key segment template :: path) ↔
          ∃ key rest inner, v.slot? (.entry key) = some inner ∧ keys = key :: rest ∧
            (rest, x) ∈ inner.collect path := by
        cases v with
        | map entries =>
          have hnodup := (h [] entries rfl).nodup
          simp only [collect, List.mem_flatMap, List.mem_map, slot?]
          constructor
          · rintro ⟨⟨key, inner⟩, hentry, ⟨rest, value⟩, hmem, heq⟩
            obtain ⟨rfl, rfl⟩ := Prod.mk.inj heq
            exact ⟨key, rest, inner, Entries.lookup_eq_of_mem hnodup hentry, rfl, hmem⟩
          · rintro ⟨key, rest, inner, hslot, rfl, hmem⟩
            exact ⟨(key, inner), Entries.mem_of_lookup hslot, (rest, x), hmem, rfl⟩
        | _ => simp [collect, slot?]
      rw [hcollect]
      constructor
      · rintro ⟨key, rest, inner, hslot, rfl, hmem⟩
        obtain ⟨address, hfill, hat⟩ := (ih (h.slot hslot)).mp hmem
        exact ⟨.entry key :: address, by rw [fillPath, hfill]; rfl,
          by rw [at?_cons, hslot]; exact hat⟩
      · rintro ⟨address, hfill, hat⟩
        cases keys with
        | nil => cases hfill
        | cons key rest =>
          obtain ⟨below, hbelow, rfl⟩ := Option.map_eq_some_iff.mp hfill
          obtain ⟨inner, hslot, hinner⟩ := Option.bind_eq_some_iff.mp hat
          exact ⟨key, rest, inner, hslot, rfl, (ih (h.slot hslot)).mpr ⟨below, hbelow, hinner⟩⟩

/-- The cells of a leaf are made from the slots that it has in the realized graph. -/
theorem Loaded.mem_cells_iff {good : RootDecl → Prop} (h : Built good d) (hc : Loaded d c)
    {name : String} {cell : RuntimeCell} : (name, cell) ∈ leaf.cells id c ↔
      leaf.overridable = true ∧ cell.leaf = id ∧ ∃ keys, c.slot? leaf keys = some cell.value ∧
        name = concreteName leaf.pattern keys := by
  rw [Leaf.cells]
  split_ifs with hoverridable
  swap
  · simp [hoverridable]
  rw [and_iff_right hoverridable]
  cases hget : c.get? leaf.root with
  | none => simp [RealizedConfig.slot?, hget]
  | some g =>
    obtain ⟨-, -, -, hascends, -⟩ := hc.ascends_outlined h _ g hget
    have hslot : ∀ keys value, c.slot? leaf keys = some value ↔
        (keys, value) ∈ (Value.group g).collect leaf.path := by
      intro keys value
      rw [Value.mem_collect_iff hascends, RealizedConfig.slot?, hget]
      change (fillPath leaf.path keys).bind (Value.group g).at? = some value ↔ _
      exact Option.bind_eq_some_iff
    simp only [hslot, List.mem_map]
    constructor
    · rintro ⟨⟨keys, value⟩, hmem, heq⟩
      obtain ⟨rfl, rfl⟩ := Prod.mk.inj heq
      exact ⟨rfl, keys, hmem, rfl⟩
    · rintro ⟨rfl, keys, hmem, rfl⟩
      exact ⟨(keys, cell.value), hmem, rfl⟩

/-! ### Names of cells -/

/-- In a plain definition, a pattern is its segments joined with dots, and all of them are one
segment as they stand. -/
theorem Built.pattern_eq (h : Built RootDecl.Plain d) (hleaf : d.leaf? id = some leaf) :
    leaf.pattern = String.intercalate "." (Name.segments leaf.pattern) ∧
      Name.segments leaf.pattern ≠ [] ∧
      ∀ piece ∈ Name.segments leaf.pattern, Name.Bare piece := by
  obtain ⟨root, -, -, -, hpieces, full, hpattern, way⟩ := h.exists_way hleaf
  obtain ⟨suffix, hfull, hsuffix⟩ := way.exists_suffix
  have hbare : ∀ p ∈ full, Name.Bare p := hfull ▸ bare_of_mem_append hpieces hsuffix
  rw [hpattern, Name.segments_intercalate hbare]
  refine ⟨rfl, ?_, hbare⟩
  rintro rfl
  exact Text.pieces_ne_nil _ _ (List.map_eq_nil_iff.mp (List.append_eq_nil_iff.mp hfull.symm).1)

/-- In a plain definition, the name of a cell is the name of the pattern's segments with the keys in
place of the wildcards. -/
theorem Built.concreteName_eq (h : Built RootDecl.Plain d) (hleaf : d.leaf? id = some leaf)
    (keys : List String) : concreteName leaf.pattern keys =
      Name.joinSegments (fillKeys (Name.segments leaf.pattern) keys) := by
  obtain ⟨hpattern, hne, hbare⟩ := h.pattern_eq hleaf
  rw [concreteName, hpattern, Text.split_intercalate (fun p hp => (hbare p hp).no_dot) hne,
    fillWildcards_eq hbare, Name.segments_intercalate hbare]
  rfl

/-- Whether the name that a slot's cell has ends in an empty map key. -/
def Leaf.EndsInEmptyKey (leaf : Leaf) (keys : List String) : Prop :=
  (Name.segments leaf.pattern).getLast? = some wildcard ∧ keys.getLast? = some ""

instance (leaf : Leaf) (keys : List String) : Decidable (leaf.EndsInEmptyKey keys) :=
  inferInstanceAs (Decidable (_ ∧ _))

/-- A realized slot has a key for every wildcard. -/
theorem Built.length_keys (h : Built RootDecl.Plain d) (hleaf : d.leaf? id = some leaf)
    (hslot : (c.slot? leaf keys).isSome) :
    (wildcardPositions 0 (Name.segments leaf.pattern)).length = keys.length := by
  obtain ⟨value, hslot⟩ := Option.isSome_iff_exists.mp hslot
  obtain ⟨g, -, hslot⟩ := Option.bind_eq_some_iff.mp hslot
  obtain ⟨address, hfill, -⟩ := Option.bind_eq_some_iff.mp hslot
  rw [← h.counted hleaf, length_keySegments hfill]

/-- What the name of a realized slot is joined from can be read back. -/
theorem Loaded.quotable_fillKeys (h : Built RootDecl.Plain d) (hc : Loaded d c)
    (hleaf : d.leaf? id = some leaf) (hslot : (c.slot? leaf keys).isSome) :
    ∀ segment ∈ fillKeys (Name.segments leaf.pattern) keys, Name.Quotable segment := by
  intro segment hmem
  rcases mem_fillKeys hmem with hmem | hmem
  · exact ((h.pattern_eq hleaf).2.2 segment hmem).unmarked.quotable
  · exact (hc.ledAlong_fillKeys h hleaf hslot).1 segment hmem

/-- **Reading the name of a cell**: where the name of a realized slot remains of a name, it leads to
the leaf, under the keys of the slot. -/
theorem Loaded.matchLeaf_concreteName (h : Built RootDecl.Plain d) (hc : Loaded d c)
    (hleaf : d.leaf? id = some leaf) (hslot : (c.slot? leaf keys).isSome)
    (hend : ¬leaf.EndsInEmptyKey keys) {cursor : Cursor}
    (hremaining : cursor.remaining = Name.segments (concreteName leaf.pattern keys)) :
    d.matchLeaf cursor = some (id, leaf) ∧ leaf.keysIn cursor = keys := by
  obtain ⟨-, hkeys, hled⟩ := hc.ledAlong_fillKeys h hleaf hslot
  have hsegments : cursor.remaining = fillKeys (Name.segments leaf.pattern) keys := by
    rw [hremaining, h.concreteName_eq hleaf,
      Name.segments_joinSegments (hc.quotable_fillKeys h hleaf hslot), if_neg]
    exact fun hlast => hend (getLast?_fillKeys
      (fun p hp => ((h.pattern_eq hleaf).2.2 p hp).ne_empty) (h.length_keys hleaf hslot) hlast)
  exact ⟨h.sound.matchLeaf_iff.mpr ⟨hleaf, hsegments ▸ hled⟩, by rw [Leaf.keysIn, hsegments, hkeys]⟩

/-- **Names tell slots**: realized slots with the same name are the same. -/
theorem Loaded.concreteName_inj (h : Built RootDecl.Plain d) (hc : Loaded d c) {id' : Nat}
    {leaf' : Leaf} {keys' : List String} (hleaf : d.leaf? id = some leaf)
    (hleaf' : d.leaf? id' = some leaf') (hslot : (c.slot? leaf keys).isSome)
    (hslot' : (c.slot? leaf' keys').isSome)
    (heq : concreteName leaf.pattern keys = concreteName leaf'.pattern keys') :
    id = id' ∧ keys = keys' := by
  rw [h.concreteName_eq hleaf, h.concreteName_eq hleaf'] at heq
  have hfill := Name.joinSegments_inj (hc.quotable_fillKeys h hleaf hslot)
    (hc.quotable_fillKeys h hleaf' hslot') (fillKeys_ne_nil (h.pattern_eq hleaf).2.1 keys)
    (fillKeys_ne_nil (h.pattern_eq hleaf').2.1 keys') heq
  obtain ⟨-, hkeys, hled⟩ := hc.ledAlong_fillKeys h hleaf hslot
  obtain ⟨-, hkeys', hled'⟩ := hc.ledAlong_fillKeys h hleaf' hslot'
  -- The same segments match one leaf only.
  have hmatch := (PatternMap.matchSegments_iff h.sound.tidy).mpr
    ⟨_, h.sound.bound id leaf hleaf, hled⟩
  have hmatch' := (PatternMap.matchSegments_iff h.sound.tidy).mpr
    ⟨_, h.sound.bound id' leaf' hleaf', hled'⟩
  rw [hfill] at hmatch
  obtain rfl := Option.some.inj (hmatch.symm.trans hmatch')
  obtain rfl := Option.some.inj (hleaf.symm.trans hleaf')
  exact ⟨rfl, by rw [← hkeys, hfill, hkeys']⟩

end Cells

/-! ### Frozen configs -/

/-- What a config has come to when a value has been loaded into a slot of the leaf `id` that was
there: the slot holds the value, and nothing else has changed, nor has anything been made. The raw
text is noted under the full name. -/
structure SlotOverwritten (d : Definition) (c : RealizedConfig) (id : Nat) (leaf : Leaf)
    (keys : List String) (value : Value) (name raw : String) (c' : RealizedConfig) : Prop where
  slot : c'.slot? leaf keys = some value
  /-- The other leaf slots of all roots read as before. -/
  others : ∀ (id' : Nat) (leaf' : Leaf) (keys' : List String), d.leaf? id' = some leaf' →
    (id', keys') ≠ (id, keys) → c'.slot? leaf' keys' = c.slot? leaf' keys'
  /-- Whatever is not on the way to the slot reads as before. -/
  apart : ∀ (g g' : Group) (address other : List SlotStep), c.get? leaf.root = some g →
    c'.get? leaf.root = some g' → fillPath leaf.path keys = some address → ¬other <+: address →
    ¬address <+: other → (Value.group g').at? other = (Value.group g).at? other
  roots : ∀ root, root ≠ leaf.root → c'.get? root = c.get? root
  byType : c'.byType = c.byType
  loaded : c'.loaded = Entries.insert name raw c.loaded

/-- Whether a cell under a name is one of the slot that an overridable leaf has under map keys. -/
structure RealizedConfig.CellOf (c : RealizedConfig) (d : Definition) (name : String)
    (cell : RuntimeCell) (leaf : Leaf) (keys : List String) : Prop where
  leaf_eq : d.leaf? cell.leaf = some leaf
  overridable : leaf.overridable = true
  slot_eq : c.slot? leaf keys = some cell.value
  name_eq : name = concreteName leaf.pattern keys

/-- What freezing makes of a config: the cells of the realized slots of overridable leaves, under
names that a loader reads. -/
structure RealizedConfig.Freezes (c : RealizedConfig) (d : Definition) : Prop where
  /-- Every slot has its cell, and there are no others. -/
  cells : ∀ name cell, (name, cell) ∈ (c.freeze d).cells ↔
    ∃ leaf keys, c.CellOf d name cell leaf keys
  distinct : (Entries.keys (c.freeze d).cells).Nodup
  /-- Slots with the same name are the same. -/
  apart : ∀ name cell leaf keys cell' leaf' keys', c.CellOf d name cell leaf keys →
    c.CellOf d name cell' leaf' keys' → cell.leaf = cell'.leaf ∧ keys = keys'
  matched : ∀ name cell leaf keys, c.CellOf d name cell leaf keys → ¬leaf.EndsInEmptyKey keys →
    d.matchLeaf (Cursor.ofName name) = some (cell.leaf, leaf)
  /-- Loading the name of a cell in any namespace overwrites the slot of the cell. -/
  loads : ∀ name cell leaf keys, c.CellOf d name cell leaf keys → ¬leaf.EndsInEmptyKey keys →
    ∀ (l : Loader) (value? : String → Option String) (value : Value),
      Name.Bare l.namespaceName →
      leaf.Gives ((value? (l.namespaceName ++ "." ++ name)).getD "") value →
      ∃ c', l.load ⟨[l.namespaceName ++ "." ++ name], value?⟩ [⟨d, c⟩] =
          ([⟨d, c'⟩], .ok { applied := 1 }) ∧
        SlotOverwritten d c cell.leaf leaf keys value (l.namespaceName ++ "." ++ name)
          ((value? (l.namespaceName ++ "." ++ name)).getD "") c'

section Freezes

variable {d : Definition} {c : RealizedConfig} {id : Nat} {leaf : Leaf} {keys : List String}

/-- In a plain definition, loading a value for a slot that is there overwrites it. -/
theorem Loaded.load_overwrites (h : Built RootDecl.Plain d) (hc : Loaded d c)
    {l : Loader} {value? : String → Option String} {name : String} {value : Value}
    (hname : l.Owns name) (hmatch : d.matchLeaf (Cursor.ofName name).next.2 = some (id, leaf))
    (hslot : (c.slot? leaf (leaf.keysIn (Cursor.ofName name).next.2)).isSome)
    (hgives : leaf.Gives ((value? name).getD "") value) :
    ∃ c', l.load ⟨[name], value?⟩ [⟨d, c⟩] = ([⟨d, c'⟩], .ok { applied := 1 }) ∧
      SlotOverwritten d c id leaf (leaf.keysIn (Cursor.ofName name).next.2) value name
        ((value? name).getD "") c' := by
  have hleaf := (matchLeaf_eq_some hmatch).2
  have hcounted := h.counted hleaf
  obtain ⟨old, hold⟩ := Option.isSome_iff_exists.mp hslot
  obtain ⟨g, hget, -⟩ := Option.bind_eq_some_iff.mp hold
  obtain ⟨root, hroot, hcontaining, hfits⟩ := hc.fits h _ g hget
  obtain ⟨g', address, hplace, hfill, heq⟩ :=
    h.place_eq_fill hroot hmatch hcontaining.symm hcounted value hfits
  have hat := h.at?_eq hroot hleaf hcontaining.symm hfill
  rw [RealizedConfig.slot?_eq hget hfill] at hslot
  have hself := (Value.filled_fill h.sound.scalar hat value hfits).self
  have hapart : ∀ other : List SlotStep, ¬other <+: address → ¬address <+: other →
      (Value.group g').at? other = (Value.group g).at? other := by
    intro other hto hbelow
    rw [heq, Value.at?_fill_of_apart hto hbelow value hslot]
  have hload := @Loader.loadName_of_place l ⟨[name], value?⟩ {} [] [] name d c id leaf value g g'
    hname (List.forall_mem_nil _) hmatch hget hgives hplace
  have hget' := c.placed_get?_self leaf.root g' name ((value? name).getD "")
  have hroots : ∀ other, other ≠ leaf.root →
      (c.placed leaf.root g' name ((value? name).getD "")).get? other = c.get? other :=
    fun other hne => c.placed_get?_of_ne hne g' name _
  rw [List.nil_append, List.nil_append] at hload
  refine ⟨_, by rw [Loader.load, Loader.loadNames, hload]; rfl, ?_, ?_, ?_, hroots, rfl, rfl⟩
  · rw [RealizedConfig.slot?_eq hget' hfill, heq, hself]
  · intro id' leaf' keys' hleaf' hne
    by_cases hsame : leaf'.root = leaf.root
    swap
    · rw [RealizedConfig.slot?, RealizedConfig.slot?, hroots _ hsame]
    cases hfill' : fillPath leaf'.path keys' with
    | none =>
      rw [RealizedConfig.slot?, RealizedConfig.slot?, hfill', hsame, hget, hget']
      rfl
    | some address' =>
      have hcontaining' := hsame.trans hcontaining.symm
      have hne' := h.address_ne hroot hleaf hleaf' hcontaining.symm hcontaining' hfill hfill' hne
      have hat' := h.at?_eq hroot hleaf' hcontaining' hfill'
      rw [RealizedConfig.slot?_eq (by rw [hsame, hget']) hfill',
        RealizedConfig.slot?_eq (by rw [hsame, hget]) hfill']
      exact hapart address' (fun hto => hne' (Node.eq_of_prefix_leaf hat hat' hto))
        fun hbelow => hne' (Node.eq_of_prefix_leaf hat' hat hbelow).symm
  · intro g₁ g₁' address₁ other hget₁ hget₁' hfill₁ hto hbelow
    obtain rfl := Option.some.inj (hget.symm.trans hget₁)
    obtain rfl := Option.some.inj (hget'.symm.trans hget₁')
    obtain rfl := Option.some.inj (hfill.symm.trans hfill₁)
    exact hapart other hto hbelow

theorem RealizedConfig.CellOf.isSome_slot {name : String} {cell : RuntimeCell}
    (h : c.CellOf d name cell leaf keys) : (c.slot? leaf keys).isSome := by
  rw [h.slot_eq]
  rfl

/-- The name of a slot tells the slot, and the slot its cell. -/
theorem Loaded.cellOf_inj (h : Built RootDecl.Plain d) (hc : Loaded d c) {name : String}
    {cell cell' : RuntimeCell} {leaf' : Leaf} {keys' : List String}
    (hcell : c.CellOf d name cell leaf keys) (hcell' : c.CellOf d name cell' leaf' keys') :
    cell = cell' ∧ keys = keys' := by
  obtain ⟨hid, rfl⟩ := hc.concreteName_inj h hcell.leaf_eq hcell'.leaf_eq hcell.isSome_slot
    hcell'.isSome_slot (hcell.name_eq.symm.trans hcell'.name_eq)
  obtain ⟨id, value⟩ := cell
  obtain ⟨id', value'⟩ := cell'
  obtain rfl : id = id' := hid
  obtain rfl := Option.some.inj (hcell.leaf_eq.symm.trans hcell'.leaf_eq)
  obtain rfl : value = value' := Option.some.inj (hcell.slot_eq.symm.trans hcell'.slot_eq)
  exact ⟨rfl, rfl⟩

/-- The cells that freezing sorts are those of the slots. -/
theorem Loaded.freeze_cells {good : RootDecl → Prop} (h : Built good d) (hc : Loaded d c) :
    ∃ made : Entries RuntimeCell, (c.freeze d).cells = Entries.sorted made ∧
      ∀ name cell, (name, cell) ∈ made ↔ ∃ leaf keys, c.CellOf d name cell leaf keys := by
  obtain ⟨made, hfreeze, hmade⟩ := c.freeze_cells d
  refine ⟨made, hfreeze, fun name cell => (hmade _).trans ?_⟩
  constructor
  · rintro ⟨id, leaf, hleaf, hcell⟩
    obtain ⟨hoverridable, rfl, keys, hslot, hname⟩ := (hc.mem_cells_iff h).mp hcell
    exact ⟨leaf, keys, hleaf, hoverridable, hslot, hname⟩
  · rintro ⟨leaf, keys, hleaf, hoverridable, hslot, hname⟩
    exact ⟨cell.leaf, leaf, hleaf,
      (hc.mem_cells_iff h).mpr ⟨hoverridable, rfl, keys, hslot, hname⟩⟩

/-- Every cell of a frozen config is one of a slot. -/
theorem Loaded.exists_cellOf {good : RootDecl → Prop} (h : Built good d) (hc : Loaded d c)
    {name : String} {cell : RuntimeCell} (hmem : (name, cell) ∈ (c.freeze d).cells) :
    ∃ leaf keys, c.CellOf d name cell leaf keys := by
  obtain ⟨made, hfreeze, hmade⟩ := hc.freeze_cells h
  rw [hfreeze] at hmem
  exact (hmade name cell).mp (Entries.mem_sorted hmem)

/-- In a plain definition, the cells of a frozen config are those of the slots: sorting them by name
leaves none out. -/
theorem Loaded.mem_freeze_iff (h : Built RootDecl.Plain d) (hc : Loaded d c) {name : String}
    {cell : RuntimeCell} :
    (name, cell) ∈ (c.freeze d).cells ↔ ∃ leaf keys, c.CellOf d name cell leaf keys := by
  obtain ⟨made, hfreeze, hmade⟩ := hc.freeze_cells h
  rw [hfreeze, Entries.mem_sorted_iff, hmade]
  rintro ⟨name, cell⟩ hcell ⟨_, cell'⟩ hcell' rfl
  obtain ⟨leaf, keys, hcell⟩ := (hmade _ _).mp hcell
  obtain ⟨leaf', keys', hcell'⟩ := (hmade _ _).mp hcell'
  rw [(hc.cellOf_inj h hcell hcell').1]

/-- Where the name of a cell remains of a name, it leads to the leaf of the cell, under the keys of
its slot. -/
theorem RealizedConfig.CellOf.matchLeaf (h : Built RootDecl.Plain d) (hc : Loaded d c)
    {name : String} {cell : RuntimeCell} (hcell : c.CellOf d name cell leaf keys)
    (hend : ¬leaf.EndsInEmptyKey keys) {cursor : Cursor}
    (hremaining : cursor.remaining = Name.segments name) :
    d.matchLeaf cursor = some (cell.leaf, leaf) ∧ leaf.keysIn cursor = keys :=
  hc.matchLeaf_concreteName h hcell.leaf_eq hcell.isSome_slot hend (hcell.name_eq ▸ hremaining)

/-- A name behind a namespace that is one segment lies in the namespace. -/
theorem Loader.owns_append {l : Loader} (hns : Name.Bare l.namespaceName) (name : String) :
    l.Owns (l.namespaceName ++ "." ++ name) := by
  rw [Loader.Owns, Cursor.peek?, Cursor.segment?, Cursor.ofName, hns.segments_append]
  rfl

/-- Behind the namespace, the name remains. -/
theorem Loader.remaining_append {l : Loader} (hns : Name.Bare l.namespaceName) (name : String) :
    (Cursor.ofName (l.namespaceName ++ "." ++ name)).next.2.remaining = Name.segments name := by
  rw [Cursor.next_ofName (l.owns_append hns name), Cursor.remaining_append hns]

/-- **Freezing is exact**, and the names of cells are names of the loader: in a plain definition,
every config that has been realized and then only loaded has a cell for every realized slot of an
overridable leaf, under a name by which a loader finds the slot again. -/
theorem Loaded.freezes (h : Built RootDecl.Plain d) (hc : Loaded d c) : c.Freezes d where
  cells := fun name cell => hc.mem_freeze_iff h
  distinct := (Entries.ascending_sorted _).nodup
  apart := by
    intro name cell leaf keys cell' leaf' keys' hcell hcell'
    obtain ⟨rfl, hkeys⟩ := hc.cellOf_inj h hcell hcell'
    exact ⟨rfl, hkeys⟩
  matched := fun name cell leaf keys hcell hend => (hcell.matchLeaf h hc hend rfl).1
  loads := by
    intro name cell leaf keys hcell hend l value? value hns hgives
    obtain ⟨hmatch, hkeys⟩ := hcell.matchLeaf h hc hend (l.remaining_append hns name)
    have hslot := hcell.isSome_slot
    rw [← hkeys] at hslot
    obtain ⟨c', hload, hoverwritten⟩ :=
      hc.load_overwrites h (l.owns_append hns name) hmatch hslot hgives
    exact ⟨c', hload, hkeys ▸ hoverwritten⟩

end Freezes

/-- A root `a` with two overridable maps, one of groups and one of texts, and an attribute that is
not overridable. -/
def cellsDecl : RootDecl where
  group := ⟨"AConfig", false,
    [⟨"m", .element, none, .map (some .string) (some (.group ⟨"G", true,
        [⟨"v", .element, none, .object .string, false, none⟩]⟩)), true, none⟩,
      ⟨"n", .element, none, .map (some .string) (some (.object .string)), true, none⟩,
      ⟨"o", .element, none, .object .string, false, none⟩]⟩
  name := .explicit "a"
  phase := .runTime

theorem plain_cellsDecl : cellsDecl.Plain := by
  have ha : PlainPiece "a" := ⟨by decide, by decide, by decide, by decide⟩
  have hm : PlainPiece "m" := ⟨by decide, by decide, by decide, by decide⟩
  have hv : PlainPiece "v" := ⟨by decide, by decide, by decide, by decide⟩
  have hn : PlainPiece "n" := ⟨by decide, by decide, by decide, by decide⟩
  have ho : PlainPiece "o" := ⟨by decide, by decide, by decide, by decide⟩
  refine ⟨fun rootName hname p hp => ?_, ?_⟩
  · obtain rfl : "a" = rootName := Option.some.inj hname
    obtain rfl : p = "a" := by simpa [Text.split, Text.pieces] using hp
    exact ha
  · simp [cellsDecl, GroupDecl.Each, FieldsEach, FieldDecl.Each, Shape.Each, subKey, hm, hv, hn, ho]

theorem built_cellsDecl : Built RootDecl.Plain (empty.registerRoot cellsDecl).1 :=
  .register .empty plain_cellsDecl (Prod.ext rfl (by decide +kernel))

/-- Keys with dots and quotation marks, one that is spelled like an attribute, and an empty one. -/
theorem freezes_cellsDecl :
    let d := (empty.registerRoot cellsDecl).1
    let source := (Properties.ofPairs [("app.a.m.\"x.y\".v", "1"), ("app.a.m.v.v", "2"),
      ("app.a.n.\"\"\"", "3"), ("app.a.n.\"\"", "4"), ("app.a.o", "5")]).toSource
    ∃ c report, (Loader.ofNamespace "app").load source [⟨d, d.realize .runtime⟩] =
        ([⟨d, c⟩], .ok report) ∧ Loaded d c ∧ c.Freezes d ∧ report = { applied := 5 } ∧
      (c.freeze d).cells.map (fun cell => (cell.1, cell.2.leaf, cell.2.value.asString?)) =
        [("a.m.\"x.y\".v", 0, some "1"), ("a.m.v.v", 0, some "2"), ("a.n.", 1, some "4"),
          ("a.n.\"\"\"", 1, some "3")] := by
  intro d source
  have hreport : ((Loader.ofNamespace "app").load source [⟨d, d.realize .runtime⟩]).2.toOption =
      some { applied := 5 } := by decide +kernel
  have hcells : ((Loader.ofNamespace "app").load source [⟨d, d.realize .runtime⟩]).1.map (fun t =>
        (t.config.freeze d).cells.map fun cell =>
          (cell.1, cell.2.leaf, cell.2.value.asString?)) =
      [[("a.m.\"x.y\".v", 0, some "1"), ("a.m.v.v", 0, some "2"), ("a.n.", 1, some "4"),
        ("a.n.\"\"\"", 1, some "3")]] := by decide +kernel
  obtain ⟨c, hload, hc⟩ := Loader.exists_load_of_toOption (.walked .runtime) hreport
  rw [hload] at hcells
  exact ⟨c, _, hload, hc, hc.freezes built_cellsDecl, rfl, (List.cons.inj hcells).1⟩

end PropertyBinding

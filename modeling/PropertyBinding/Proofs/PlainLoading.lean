import PropertyBinding.Proofs.Filling
import PropertyBinding.Proofs.Loading
import PropertyBinding.Proofs.Segments

/-!
# Loading into plain definitions

Registration counts, for every map on the path of a leaf, the segments of a name in front of the
map's key. If the counted segments are those at the wildcards of the leaf's pattern
(`Leaf.Counted`), a value that is placed fills the one slot that the name leads to
(`Built.place_fills_of_counted`).

A declaration is plain if no group repeats an attribute and every name piece that it contributes
reads as one segment (`RootDecl.Plain`). The pattern of a leaf then has the pieces of the leaf's key
as its segments, so its segments are counted right (`Way.keySegments_eq`, `Built.counted`). In a
definition built by accepted plain declarations, a value that can be read is written wherever a name
leads: it fills one leaf slot of a realized root, and the other leaf slots stay
(`Loaded.loadName_fills`).
-/

namespace PropertyBinding

open Definition

/-- Whether a name piece reads as one segment, and not as the wildcard. -/
structure PlainPiece (piece : String) : Prop where
  ne_empty : piece ≠ ""
  no_dot : '.' ∉ piece.toList
  no_mark : '"' ∉ piece.toList
  ne_wildcard : piece ≠ wildcard

/-- Whether no group of a declared root repeats an attribute, and all name pieces are plain. -/
def RootDecl.Plain (decl : RootDecl) : Prop := decl.Each PlainPiece List.Nodup

theorem PlainPiece.bare {piece : String} (h : PlainPiece piece) : Name.Bare piece where
  ne_empty := h.ne_empty
  no_dot := h.no_dot
  no_mark := fun hhead => h.no_mark (List.mem_of_head? hhead)

theorem bare_wildcard : Name.Bare wildcard where
  ne_empty := by decide
  no_dot := by decide
  no_mark := by decide

/-- The plain pieces of a root's name, and the pieces below it, are segments as they stand. -/
theorem bare_of_mem_append {base suffix : List String} (hbase : ∀ p ∈ base, PlainPiece p)
    (hsuffix : ∀ p ∈ suffix, PlainPiece p ∨ p = wildcard) : ∀ p ∈ base ++ suffix, Name.Bare p := by
  intro p hp
  rcases List.mem_append.mp hp with hp | hp
  · exact (hbase p hp).bare
  · rcases hsuffix p hp with hpiece | rfl
    · exact hpiece.bare
    · exact bare_wildcard

/-! ### Keys and names -/

/-- The segments that stand at the wildcards of a pattern. -/
def wildcardSegments : List String → List String → List String
  | piece :: pattern, segment :: segments =>
    if piece = wildcard then segment :: wildcardSegments pattern segments
    else wildcardSegments pattern segments
  | _, _ => []

/-- The numbers of the segments that stand at the wildcards of a pattern, whose first one has the
number `start`. -/
def wildcardPositions (start : Nat) : List String → List Nat
  | [] => []
  | piece :: pattern =>
    if piece = wildcard then start :: wildcardPositions (start + 1) pattern
    else wildcardPositions (start + 1) pattern

/-- Pieces that are no wildcards are only counted. -/
theorem wildcardPositions_append {more : List String} (h : ∀ p ∈ more, p ≠ wildcard)
    (start : Nat) (pattern : List String) : wildcardPositions start (more ++ pattern) =
      wildcardPositions (start + more.length) pattern := by
  induction more generalizing start with
  | nil => rfl
  | cons piece more ih =>
    obtain ⟨hpiece, hmore⟩ := List.forall_mem_cons.mp h
    rw [List.cons_append, wildcardPositions, if_neg hpiece, ih hmore, List.length_cons,
      Nat.add_right_comm, Nat.add_assoc]

/-- The segments at the wildcards have their numbers. -/
theorem forall₂_wildcardSegments {pattern segments : List String}
    (hlength : pattern.length = segments.length) (before : List String) :
    List.Forall₂ (fun position segment => (before ++ segments)[position]? = some segment)
      (wildcardPositions before.length pattern) (wildcardSegments pattern segments) := by
  induction pattern generalizing segments before with
  | nil =>
    rw [wildcardPositions, wildcardSegments] <;> simp
  | cons piece pattern ih =>
    cases segments with
    | nil => cases hlength
    | cons segment segments =>
      have hrest := ih (Nat.succ.inj hlength) (before ++ [segment])
      rw [List.length_append, List.length_singleton, List.append_assoc,
        List.singleton_append] at hrest
      rw [wildcardPositions, wildcardSegments]
      split_ifs
      · exact .cons (by simp) hrest
      · exact hrest

/-- The numbers of the segments that a path reads its map keys from. -/
def keySegments : List PathStep → List Nat
  | [] => []
  | .field _ :: path => keySegments path
  | .key segment _ :: path => segment :: keySegments path

/-- A path has an address if the segments that it reads are there: the one with these keys. -/
theorem exists_addresses {key : Nat → Option String} {path : List PathStep} {keys : List String}
    (h : List.Forall₂ (fun segment k => key segment = some k) (keySegments path) keys) :
    ∃ address, Addresses key path address ∧ fillPath path keys = some address := by
  induction path generalizing keys with
  | nil =>
    cases h
    exact ⟨[], .nil, rfl⟩
  | cons step path ih =>
    cases step with
    | field ident =>
      obtain ⟨address, haddresses, hfill⟩ := ih h
      exact ⟨_, .field ident haddresses, by rw [fillPath, hfill, Option.map_some]⟩
    | key segment template =>
      cases h with
      | cons hkey hrest =>
        obtain ⟨address, haddresses, hfill⟩ := ih hrest
        exact ⟨_, .entry template hkey haddresses, by rw [fillPath, hfill, Option.map_some]⟩

/-- Whether the segments that a leaf reads map keys from are those at the wildcards of its
pattern. -/
def Leaf.Counted (leaf : Leaf) : Prop :=
  keySegments leaf.path = wildcardPositions 0 (Name.segments leaf.pattern)

instance (leaf : Leaf) : Decidable leaf.Counted :=
  inferInstanceAs (Decidable (keySegments leaf.path = _))

section Way

variable {leaves : List Leaf} {templates : List Value} {piece : String → Prop} {node : Node}
  {key full : List String} {steps : List PathStep} {id : Nat}

/-- **The segments counted at registration** are those at the wildcards, if all pieces of the key
are segments. -/
theorem Way.keySegments_eq (h : Way leaves templates PlainPiece node key steps full id)
    {suffix : List String} (hfull : full = key ++ suffix) :
    keySegments steps = wildcardPositions key.length suffix := by
  induction h generalizing suffix with
  | leaf key id =>
    obtain rfl : suffix = [] := by simpa using hfull
    rfl
  | field _ pieces way ih =>
    obtain ⟨below, hbelow, -⟩ := way.exists_suffix
    obtain rfl : suffix = _ ++ below := by
      rw [hfull, List.append_assoc] at hbelow
      exact List.append_cancel_left hbelow
    rw [keySegments, ih hbelow, wildcardPositions_append fun p hp => (pieces p hp).ne_wildcard,
      List.length_append]
  | entry _ way ih =>
    obtain ⟨below, hbelow, -⟩ := way.exists_suffix
    obtain rfl : suffix = wildcard :: below := by
      rw [hfull, List.append_assoc] at hbelow
      exact List.append_cancel_left hbelow
    -- The wildcard of this map comes right after the key, so it stands at the counted segment.
    rw [keySegments, ih hbelow, wildcardPositions, if_pos rfl, List.length_append,
      List.length_singleton]

end Way

/-! ### Placing a value -/

section Placing

variable {piece : String → Prop} {d : Definition}

/-- In a definition built by accepted declarations, the tree of the root that a leaf belongs to
leads to the leaf. -/
theorem Built.exists_way (h : Built (RootDecl.Each piece List.Nodup) d) {id : Nat} {leaf : Leaf}
    (hleaf : d.leaves[id]? = some leaf) :
    ∃ root ∈ d.roots, root.containingName = leaf.root ∧ (Node.group root.tree).Each List.Nodup ∧
      (∀ p ∈ Text.split '.' root.rootName, piece p) ∧
      ∃ full, leaf.pattern = String.intercalate "." full ∧
        Way d.leaves d.templates piece (.group root.tree) (Text.split '.' root.rootName)
          leaf.path full id := by
  obtain ⟨root, hroot, hid⟩ := h.owned (List.getElem?_eq_some_iff.mp hleaf).1
  have hlaid := h.sound.laid root hroot
  obtain ⟨leaf', hleaf', hname, steps, full, hpath, hpattern, way⟩ := hlaid.exists_leaf hid
  obtain rfl := Option.some.inj (hleaf.symm.trans hleaf')
  refine ⟨root, hroot, hname.symm, hlaid.idents, hlaid.pieces, full, hpattern, ?_⟩
  rw [hpath]
  exact way

/-- The tree of a root leads to its leaves. -/
theorem Built.way (h : Built (RootDecl.Each piece List.Nodup) d) {root : Root}
    (hroot : root ∈ d.roots) {id : Nat} {leaf : Leaf} (hleaf : d.leaf? id = some leaf)
    (hname : leaf.root = root.containingName) :
    (Node.group root.tree).Each List.Nodup ∧ ∃ full,
      Way d.leaves d.templates piece (.group root.tree) (Text.split '.' root.rootName) leaf.path
        full id := by
  obtain ⟨other, hother, hname', hnodup, -, full, -, way⟩ := h.exists_way hleaf
  obtain rfl : other = root :=
    List.inj_on_of_nodup_map h.sound.names hother hroot (hname'.trans hname)
  exact ⟨hnodup, full, way⟩

/-- In the tree of its root, every address of a leaf's path leads to the leaf. -/
theorem Built.at?_eq (h : Built (RootDecl.Each piece List.Nodup) d) {root : Root}
    (hroot : root ∈ d.roots) {id : Nat} {leaf : Leaf} (hleaf : d.leaf? id = some leaf)
    (hname : leaf.root = root.containingName) {keys : List String} {address : List SlotStep}
    (hfill : fillPath leaf.path keys = some address) :
    (Node.group root.tree).at? address = some (.leaf id) := by
  obtain ⟨hnodup, full, way⟩ := h.way hroot hleaf hname
  exact way.at?_eq hnodup hfill

/-- In a plain definition, the segments of all leaves are counted right. -/
theorem Built.counted (h : Built RootDecl.Plain d) {id : Nat} {leaf : Leaf}
    (hleaf : d.leaf? id = some leaf) : leaf.Counted := by
  obtain ⟨root, -, -, -, hpieces, full, hpattern, way⟩ := h.exists_way hleaf
  obtain ⟨suffix, hfull, hsuffix⟩ := way.exists_suffix
  have hbare : ∀ p ∈ full, Name.Bare p := hfull ▸ bare_of_mem_append hpieces hsuffix
  -- The segments of the root's name have no wildcard among them.
  rw [Leaf.Counted, hpattern, Name.segments_intercalate hbare, way.keySegments_eq hfull, hfull,
    wildcardPositions_append fun p hp => (hpieces p hp).ne_wildcard, Nat.zero_add]

/-- The map keys that a name has for a leaf: its segments at the wildcards of the pattern. -/
def Leaf.keysIn (leaf : Leaf) (name : Cursor) : List String :=
  wildcardSegments (Name.segments leaf.pattern) name.remaining

/-- If the segments of a leaf are counted right, a write for a name of the leaf has the address that
the leaf's path has with the name's map keys. -/
theorem Definition.Sound.exists_addresses {idents : List String → Prop} (h : d.Sound piece idents)
    {name : Cursor} {id : Nat} {leaf : Leaf} (hmatch : d.matchLeaf name = some (id, leaf))
    (hcounted : leaf.Counted) : ∃ address,
      Addresses (fun segment => name.segment? (name.position + segment)) leaf.path address ∧
        fillPath leaf.path (leaf.keysIn name) = some address := by
  have hkeys : List.Forall₂ (fun segment k => name.segment? (name.position + segment) = some k)
      (keySegments leaf.path) (leaf.keysIn name) := by
    have hpositions := forall₂_wildcardSegments (h.length_segments hmatch) []
    rw [hcounted, Leaf.keysIn]
    simpa only [List.nil_append, List.length_nil, Cursor.remaining_getElem?] using hpositions
  exact PropertyBinding.exists_addresses hkeys

/-- Placing a value in a root that fits fills the slot that the name leads to, if there is one. -/
theorem Built.place_eq_fill_of_addresses (h : Built (RootDecl.Each piece List.Nodup) d)
    {root : Root} (hroot : root ∈ d.roots) {name : Cursor} {id : Nat} {leaf : Leaf}
    (hleaf : d.leaf? id = some leaf) (hname : leaf.root = root.containingName)
    {address : List SlotStep}
    (haddresses : Addresses (fun segment => name.segment? (name.position + segment)) leaf.path
      address) (value : Value) {g : Group} (hfits : Fits (.group root.tree) (.group g)) :
    ∃ g', leaf.place d name value g = .ok (g', true) ∧
      .group g' = value.fill d.leaves (.group root.tree) address (.group g) := by
  obtain ⟨hnodup, full, way⟩ := h.way hroot hleaf hname
  obtain ⟨ident, rest, hpath, -⟩ := way.exists_field
  have hplace := (Leaf.place_eq hpath).trans
    (way.write_eq_fill hnodup h.sound.scalar haddresses value hfits)
  obtain ⟨⟨g', written⟩, hok, heq⟩ := ok_of_map_eq_ok hplace
  obtain ⟨hg', rfl⟩ := Prod.mk.inj heq
  exact ⟨g', hok, hg'⟩

/-- Placing a value in a root that fits keeps all leaf slots but the one that the name leads to. -/
theorem Built.place_kept (h : Built (RootDecl.Each piece List.Nodup) d) {root : Root}
    (hroot : root ∈ d.roots) {name : Cursor} {id : Nat} {leaf : Leaf}
    (hleaf : d.leaf? id = some leaf) (hname : leaf.root = root.containingName) {value : Value}
    {g g' : Group} {written : Bool} (hfits : Fits (.group root.tree) (.group g))
    (hplace : leaf.place d name value g = .ok (g', written)) :
    LeavesKept d.leaves (.group root.tree)
      (Addresses (fun segment => name.segment? (name.position + segment)) leaf.path) (.group g)
      (.group g') := by
  obtain ⟨hnodup, full, way⟩ := h.way hroot hleaf hname
  rcases Leaf.place_ok hplace with rfl | hwrite
  · exact fun _ _ _ _ => Or.inl rfl
  · exact way.write_kept hnodup h.sound.scalar hfits hwrite

/-- If the segments of a leaf are counted right, placing a value in a root that fits fills the slot
at the address that the leaf's path has with the name's map keys. -/
theorem Built.place_eq_fill (h : Built (RootDecl.Each piece List.Nodup) d) {root : Root}
    (hroot : root ∈ d.roots) {name : Cursor} {id : Nat} {leaf : Leaf}
    (hmatch : d.matchLeaf name = some (id, leaf)) (hname : leaf.root = root.containingName)
    (hcounted : leaf.Counted) (value : Value) {g : Group}
    (hfits : Fits (.group root.tree) (.group g)) :
    ∃ g' address, leaf.place d name value g = .ok (g', true) ∧
      fillPath leaf.path (leaf.keysIn name) = some address ∧
      .group g' = value.fill d.leaves (.group root.tree) address (.group g) := by
  obtain ⟨address, haddresses, hfill⟩ := h.sound.exists_addresses hmatch hcounted
  obtain ⟨g', hplace, hg'⟩ := h.place_eq_fill_of_addresses hroot (matchLeaf_eq_some hmatch).2 hname
    haddresses value hfits
  exact ⟨g', address, hplace, hfill, hg'⟩

/-- If the segments of a leaf are counted right, placing a value in a root that fits fills the slot
that the leaf's path and the name's map keys lead to. -/
theorem Built.place_fills_of_counted (h : Built (RootDecl.Each piece List.Nodup) d) {root : Root}
    (hroot : root ∈ d.roots) {name : Cursor} {id : Nat} {leaf : Leaf}
    (hmatch : d.matchLeaf name = some (id, leaf)) (hname : leaf.root = root.containingName)
    (hcounted : leaf.Counted) (value : Value) {g : Group}
    (hfits : Fits (.group root.tree) (.group g)) :
    ∃ g' address, leaf.place d name value g = .ok (g', true) ∧
      fillPath leaf.path (leaf.keysIn name) = some address ∧
      Filled d.leaves (.group root.tree) address value (.group g) (.group g') := by
  obtain ⟨g', address, hplace, hfill, heq⟩ :=
    h.place_eq_fill hroot hmatch hname hcounted value hfits
  have hat := h.at?_eq hroot (matchLeaf_eq_some hmatch).2 hname hfill
  exact ⟨g', address, hplace, hfill, heq ▸ Value.filled_fill h.sound.scalar hat value hfits⟩

/-- In a plain definition, placing a value in a root that fits fills the slot that the leaf's path
and the name's map keys lead to. -/
theorem Built.place_fills (h : Built RootDecl.Plain d) {root : Root}
    (hroot : root ∈ d.roots) {name : Cursor} {id : Nat} {leaf : Leaf}
    (hmatch : d.matchLeaf name = some (id, leaf)) (hname : leaf.root = root.containingName)
    (value : Value) {g : Group} (hfits : Fits (.group root.tree) (.group g)) :
    ∃ g' address, leaf.place d name value g = .ok (g', true) ∧
      fillPath leaf.path (leaf.keysIn name) = some address ∧
      Filled d.leaves (.group root.tree) address value (.group g) (.group g') :=
  h.place_fills_of_counted hroot hmatch hname (h.counted (matchLeaf_eq_some hmatch).2) value hfits

/-- If no declaration repeats an attribute, every root of a loaded config fits its tree. -/
theorem Loaded.fits {c : RealizedConfig} (hc : Loaded d c)
    (h : Built (RootDecl.Each piece List.Nodup) d) :
    c.Holds d fun root g => Fits (.group root.tree) (.group g) := by
  refine hc.holds h.sound (fun root _ => ?_) ?_
  · have hdefault := fits_defaultOver h.sound.scalar (.group root.tree)
    rwa [defaultOver] at hdefault
  · intro root hroot name id leaf raw value g g' written hmatch hname _ hfits hplace
    obtain ⟨hnodup, full, way⟩ := h.way hroot (matchLeaf_eq_some hmatch).2 hname
    rcases Leaf.place_ok hplace with rfl | hwrite
    · exact hfits
    · exact way.write_fits hnodup h.sound.scalar hfits hwrite

/-- The group of a root in a loaded config fits the tree of this root, and not only that of some
root with the same name. -/
theorem Loaded.fits_root {c : RealizedConfig} (hc : Loaded d c)
    (h : Built (RootDecl.Each piece List.Nodup) d) {root : Root} (hroot : root ∈ d.roots)
    {g : Group} (hget : c.get? root.containingName = some g) :
    Fits (.group root.tree) (.group g) := by
  obtain ⟨other, hother, hname, hfits⟩ := hc.fits h _ g hget
  rwa [List.inj_on_of_nodup_map h.sound.names hother hroot hname] at hfits

end Placing

/-! ### Loading a name -/

/-- The slot of a leaf under map keys, the outermost first. -/
def RealizedConfig.slot? (c : RealizedConfig) (leaf : Leaf) (keys : List String) :
    Option Value := do
  let g ← c.get? leaf.root
  let address ← fillPath leaf.path keys
  (Value.group g).at? address

/-- What a config has come to when a value has been loaded for the leaf `id` under map keys: the
leaf slot with these keys holds the value, and every other leaf slot reads as before, except that
one that was not there may have been made with the default of its leaf. The raw text is noted under
the full name. -/
structure SlotLoaded (d : Definition) (c : RealizedConfig) (id : Nat) (leaf : Leaf)
    (keys : List String) (value : Value) (name raw : String) (c' : RealizedConfig) : Prop where
  slot : c'.slot? leaf keys = some value
  others : ∀ (id' : Nat) (leaf' : Leaf) (keys' : List String), d.leaf? id' = some leaf' →
    (id', keys') ≠ (id, keys) → c'.slot? leaf' keys' = c.slot? leaf' keys' ∨
      c.slot? leaf' keys' = none ∧ c'.slot? leaf' keys' = some leaf'.defaultValue
  roots : ∀ root, root ≠ leaf.root → c'.get? root = c.get? root
  byType : c'.byType = c.byType
  loaded : c'.loaded = Entries.insert name raw c.loaded

/-- A name that a definition has a leaf for is given to its target, if no earlier one has. -/
theorem Loader.applyFirst_eq {name : Cursor} (raw : String) {before : List LoadTarget}
    (after : List LoadTarget) {target : LoadTarget} {id : Nat} {leaf : Leaf}
    (hbefore : ∀ t ∈ before, t.definition.matchLeaf name = none)
    (hmatch : target.definition.matchLeaf name = some (id, leaf)) :
    Loader.applyFirst name raw (before ++ target :: after) =
      (Loader.applyTo target leaf name raw).map fun r => (before ++ r.1 :: after, r.2) := by
  induction before with
  | nil =>
    rw [List.nil_append, applyFirst, hmatch]
    dsimp only
    cases applyTo target leaf name raw <;> rfl
  | cons t before ih =>
    obtain ⟨ht, hrest⟩ := List.forall_mem_cons.mp hbefore
    rw [List.cons_append, applyFirst, ht]
    dsimp only
    rw [ih hrest]
    cases applyTo target leaf name raw <;> rfl

/-- Giving a raw value to the first target that has a leaf for the name. -/
theorem Loader.applyFirst_append {name : Cursor} {raw : String} {before after : List LoadTarget}
    {target target' : LoadTarget} {id : Nat} {leaf : Leaf} {outcome : Loader.Outcome}
    (hbefore : ∀ t ∈ before, t.definition.matchLeaf name = none)
    (hmatch : target.definition.matchLeaf name = some (id, leaf))
    (happly : Loader.applyTo target leaf name raw = .ok (target', outcome)) :
    Loader.applyFirst name raw (before ++ target :: after) =
      .ok (before ++ target' :: after, outcome) := by
  rw [applyFirst_eq raw after hbefore hmatch, happly]
  rfl

/-- A config after a value has been placed in one of its roots, for a name and its raw text. -/
def RealizedConfig.placed (c : RealizedConfig) (containingName : String) (g : Group)
    (name raw : String) : RealizedConfig :=
  ({ c with roots := Entries.put containingName g c.roots } : RealizedConfig).record name raw

theorem RealizedConfig.placed_get?_self (c : RealizedConfig) (containingName : String) (g : Group)
    (name raw : String) : (c.placed containingName g name raw).get? containingName = some g :=
  Entries.lookup_put_self _ _ _

theorem RealizedConfig.placed_get?_of_ne (c : RealizedConfig) {containingName other : String}
    (hne : other ≠ containingName) (g : Group) (name raw : String) :
    (c.placed containingName g name raw).get? other = c.get? other :=
  Entries.lookup_put_of_ne hne _ _

/-- A config with another group in the place of a root. -/
def RealizedConfig.withRoot (c : RealizedConfig) (root : String) (g : Group) : RealizedConfig :=
  { c with roots := Entries.put root g c.roots }

/-- A raw text with a value that is placed in the realized root of its leaf. -/
theorem Loader.applyTo_of_place {t : LoadTarget} {leaf : Leaf} {cursor : Cursor} {raw : String}
    {before g : Group} {value : Value} {written : Bool}
    (hget : t.config.get? leaf.root = some before) (hgives : leaf.Gives raw value)
    (hplace : leaf.place t.definition cursor value before = .ok (g, written)) :
    Loader.applyTo t leaf cursor raw = .ok
      ({ t with config := if written then t.config.placed leaf.root g cursor.name raw
                  else t.config.withRoot leaf.root g },
        if written then .applied else .skipped) := by
  rw [Loader.applyTo]
  simp only [hget, Leaf.valueOf_eq_ok_iff.mpr hgives, hplace]
  cases written <;> rfl

/-- What loading a name for the first target with a leaf for it comes to, if placing the value in
the leaf's root does. -/
theorem Loader.loadName_of_place {l : Loader} {source : Source} {report : LoadReport}
    {before after : List LoadTarget} {name : String} {d : Definition} {c : RealizedConfig}
    {id : Nat} {leaf : Leaf} {value : Value} {g g' : Group}
    (hname : (Cursor.ofName name).peek? = some l.namespaceName)
    (hbefore : ∀ t ∈ before, t.definition.matchLeaf (Cursor.ofName name).next.2 = none)
    (hmatch : d.matchLeaf (Cursor.ofName name).next.2 = some (id, leaf))
    (hget : c.get? leaf.root = some g) (hvalue : leaf.Gives ((source.value? name).getD "") value)
    (hplace : leaf.place d (Cursor.ofName name).next.2 value g = .ok (g', true)) :
    l.loadName source (before ++ ⟨d, c⟩ :: after) report name =
      .ok (before ++ ⟨d, c.placed leaf.root g' name ((source.value? name).getD "")⟩ :: after,
        { report with applied := report.applied + 1 }) := by
  rw [Cursor.next_ofName hname] at hbefore hmatch hplace
  rw [Loader.loadName, if_neg (not_not.mpr hname), Cursor.next_ofName hname,
    Loader.applyFirst_append hbefore hmatch (Loader.applyTo_of_place hget hvalue hplace)]
  rfl

theorem RealizedConfig.slot?_eq {c : RealizedConfig} {leaf : Leaf} {keys : List String} {g : Group}
    {address : List SlotStep} (hget : c.get? leaf.root = some g)
    (hfill : fillPath leaf.path keys = some address) :
    c.slot? leaf keys = (Value.group g).at? address := by
  rw [slot?, hget, hfill]
  rfl

/-- The slots of different leaves, or under different keys, have different addresses in a root. -/
theorem Built.address_ne {piece : String → Prop} {d : Definition}
    (h : Built (RootDecl.Each piece List.Nodup) d) {root : Root} (hroot : root ∈ d.roots)
    {id id' : Nat} {leaf leaf' : Leaf} {keys keys' : List String} {address address' : List SlotStep}
    (hleaf : d.leaf? id = some leaf) (hleaf' : d.leaf? id' = some leaf')
    (hname : leaf.root = root.containingName) (hname' : leaf'.root = root.containingName)
    (hfill : fillPath leaf.path keys = some address)
    (hfill' : fillPath leaf'.path keys' = some address') (hne : (id', keys') ≠ (id, keys)) :
    address' ≠ address := by
  rintro rfl
  have hat := h.at?_eq hroot hleaf hname hfill
  have hat' := h.at?_eq hroot hleaf' hname' hfill'
  -- The address tells the leaf and the keys.
  obtain rfl : id' = id := by simpa using hat'.symm.trans hat
  obtain rfl := Option.some.inj (hleaf.symm.trans hleaf')
  exact hne (by rw [fillPath_inj hfill' hfill])

/-- Keeping the leaf slots of one root, in terms of all leaf slots of a config. -/
theorem Built.slots_of_kept {piece : String → Prop} {d : Definition}
    (h : Built (RootDecl.Each piece List.Nodup) d) {c c' : RealizedConfig} {root : Root}
    (hroot : root ∈ d.roots) {g g' : Group} {touched : List SlotStep → Prop}
    (hkept : LeavesKept d.leaves (.group root.tree) touched (.group g) (.group g'))
    (hget : c.get? root.containingName = some g) (hget' : c'.get? root.containingName = some g')
    (hroots : ∀ other, other ≠ root.containingName → c'.get? other = c.get? other) {id : Nat}
    {leaf : Leaf} {keys : List String} (hleaf : d.leaf? id = some leaf)
    (hnot : leaf.root = root.containingName → ∀ address, fillPath leaf.path keys = some address →
      ¬touched address) :
    c'.slot? leaf keys = c.slot? leaf keys ∨
      c.slot? leaf keys = none ∧ c'.slot? leaf keys = some leaf.defaultValue := by
  by_cases hname : leaf.root = root.containingName
  swap
  · rw [RealizedConfig.slot?, RealizedConfig.slot?, hroots _ hname]
    exact Or.inl rfl
  rw [← hname] at hget hget'
  cases hfill : fillPath leaf.path keys with
  | none =>
    rw [RealizedConfig.slot?, RealizedConfig.slot?, hfill, hget, hget']
    exact Or.inl rfl
  | some address =>
    have hat := h.at?_eq hroot hleaf hname hfill
    rw [RealizedConfig.slot?_eq hget hfill, RealizedConfig.slot?_eq hget' hfill]
    rcases hkept address id (hnot hname address hfill) hat with heq | ⟨hnone, hdefault⟩
    · exact Or.inl heq
    · refine Or.inr ⟨hnone, ?_⟩
      have hgetElem : d.leaves[id]? = some leaf := hleaf
      rw [hdefault, defaultOver, hgetElem]
      rfl

/-- Filling the slot of one leaf in its root, in terms of all leaf slots of a config. -/
theorem Built.slots_of_filled {piece : String → Prop} {d : Definition}
    (h : Built (RootDecl.Each piece List.Nodup) d) {c c' : RealizedConfig} {root : Root}
    (hroot : root ∈ d.roots) {id : Nat} {leaf : Leaf} {keys : List String}
    (hleaf : d.leaf? id = some leaf) (hname : leaf.root = root.containingName) {g g' : Group}
    {address : List SlotStep} {value : Value} (hfill : fillPath leaf.path keys = some address)
    (hfilled : Filled d.leaves (.group root.tree) address value (.group g) (.group g'))
    (hget : c.get? leaf.root = some g) (hget' : c'.get? leaf.root = some g')
    (hroots : ∀ other, other ≠ leaf.root → c'.get? other = c.get? other) {id' : Nat} {leaf' : Leaf}
    {keys' : List String} (hleaf' : d.leaf? id' = some leaf') (hne : (id', keys') ≠ (id, keys)) :
    c'.slot? leaf' keys' = c.slot? leaf' keys' ∨
      c.slot? leaf' keys' = none ∧ c'.slot? leaf' keys' = some leaf'.defaultValue := by
  rw [hname] at hget hget' hroots
  exact h.slots_of_kept hroot hfilled.others hget hget' hroots hleaf' fun hname' _ hfill' =>
    h.address_ne hroot hleaf hleaf' hname hname' hfill hfill' hne

/-- **Loading a name** into a plain definition's config: the raw text is applied, to the first
target that has a leaf for the name, and fills the slot of this leaf under the name's map keys. -/
theorem Loaded.loadName_fills {d : Definition} (h : Built RootDecl.Plain d) {c : RealizedConfig}
    (hc : Loaded d c) (l : Loader) (source : Source) (report : LoadReport)
    {before after : List LoadTarget} {name : String} {id : Nat} {leaf : Leaf} {value : Value}
    (hname : (Cursor.ofName name).peek? = some l.namespaceName)
    (hbefore : ∀ t ∈ before, t.definition.matchLeaf (Cursor.ofName name).next.2 = none)
    (hmatch : d.matchLeaf (Cursor.ofName name).next.2 = some (id, leaf))
    (hrealized : (c.get? leaf.root).isSome)
    (hvalue : leaf.Gives ((source.value? name).getD "") value) :
    ∃ c', l.loadName source (before ++ ⟨d, c⟩ :: after) report name =
        .ok (before ++ ⟨d, c'⟩ :: after, { report with applied := report.applied + 1 }) ∧
      SlotLoaded d c id leaf (leaf.keysIn (Cursor.ofName name).next.2) value name
        ((source.value? name).getD "") c' := by
  rw [Cursor.next_ofName hname] at hbefore hmatch ⊢
  obtain ⟨g, hget⟩ := Option.isSome_iff_exists.mp hrealized
  obtain ⟨root, hroot, hcontaining, hfits⟩ := hc.fits h _ g hget
  obtain ⟨g', address, hplace, hfill, hfilled⟩ :=
    h.place_fills hroot hmatch hcontaining.symm value hfits
  let c' : RealizedConfig :=
    ({ c with roots := Entries.put leaf.root g' c.roots } : RealizedConfig).record name
      ((source.value? name).getD "")
  have happly : Loader.applyTo ⟨d, c⟩ leaf ⟨name, 1⟩ ((source.value? name).getD "") =
      .ok (⟨d, c'⟩, .applied) := by
    rw [Loader.applyTo]
    simp only [hget, Leaf.valueOf_eq_ok_iff.mpr hvalue, hplace]
    rfl
  have hget' : c'.get? leaf.root = some g' := Entries.lookup_put_self _ _ _
  have hroots : ∀ other, other ≠ leaf.root → c'.get? other = c.get? other :=
    fun other hne => Entries.lookup_put_of_ne hne _ _
  have hleaf := (matchLeaf_eq_some hmatch).2
  refine ⟨c', ?_, ?_, ?_, hroots, rfl, rfl⟩
  · rw [Loader.loadName, if_neg (not_not.mpr hname), Cursor.next_ofName hname,
      Loader.applyFirst_append hbefore hmatch happly]
  · rw [RealizedConfig.slot?_eq hget' hfill, hfilled.self]
  · intro id' leaf' keys' hleaf' hne
    exact h.slots_of_filled hroot hleaf hcontaining.symm hfill hfilled hget hget' hroots hleaf' hne

/-- A root `a` with a map of groups of two attributes. -/
def plainDecl : RootDecl where
  group := ⟨"AConfig", false,
    [⟨"m", .element, none, .map (some .string) (some (.group ⟨"G", true,
      [⟨"v", .element, none, .object .string, false, none⟩,
        ⟨"n", .element, some "7", .primitive .int, false, none⟩]⟩)), false, none⟩]⟩
  name := .explicit "a"
  phase := .runTime

theorem plain_plainDecl : plainDecl.Plain := by
  have ha : PlainPiece "a" := ⟨by decide, by decide, by decide, by decide⟩
  have hm : PlainPiece "m" := ⟨by decide, by decide, by decide, by decide⟩
  have hv : PlainPiece "v" := ⟨by decide, by decide, by decide, by decide⟩
  have hn : PlainPiece "n" := ⟨by decide, by decide, by decide, by decide⟩
  refine ⟨fun rootName hname p hp => ?_, ?_⟩
  · obtain rfl : "a" = rootName := Option.some.inj hname
    obtain rfl : p = "a" := by simpa [Text.split, Text.pieces] using hp
    exact ha
  · simp [plainDecl, GroupDecl.Each, FieldsEach, FieldDecl.Each, Shape.Each, subKey, hm, hv, hn]

/-- A value for one attribute of a missing map entry makes the entry. -/
theorem loadName_fills_plainDecl :
    let d := (empty.registerRoot plainDecl).1
    let source := (Properties.ofPairs [("app.a.m.k.v", "x")]).toSource
    ∃ leaf c', leaf.pattern = "a.m.\x7b*\x7d.v" ∧
      (Loader.ofNamespace "app").loadName source ([] ++ ⟨d, d.realize .runtime⟩ :: []) {}
          "app.a.m.k.v" = .ok ([] ++ ⟨d, c'⟩ :: [], { applied := 1 }) ∧
        SlotLoaded d (d.realize .runtime) 0 leaf ["k"] (.string "x") "app.a.m.k.v"
          ((source.value? "app.a.m.k.v").getD "") c' := by
  intro d source
  have hbuilt : Built RootDecl.Plain d :=
    .register .empty plain_plainDecl (Prod.ext rfl (by decide +kernel))
  have hmatch : (d.matchLeaf (Cursor.ofName "app.a.m.k.v").next.2).map
        (fun x => (x.1, x.2.pattern, x.2.kind, x.2.root)) =
      some (0, "a.m.\x7b*\x7d.v", .object .string, "a") := by
    decide +kernel
  obtain ⟨⟨id, leaf⟩, hleaf, hfields⟩ := Option.map_eq_some_iff.mp hmatch
  simp only [Prod.mk.injEq] at hfields
  obtain ⟨rfl, hpattern, hkind, hroot⟩ := hfields
  have hkeys : leaf.keysIn (Cursor.ofName "app.a.m.k.v").next.2 = ["k"] := by
    rw [Leaf.keysIn, hpattern]
    decide +kernel
  have hrealized : ((d.realize .runtime).get? leaf.root).isSome = true := by
    rw [hroot]
    decide +kernel
  have hgives : leaf.Gives ((source.value? "app.a.m.k.v").getD "") (.string "x") := by
    refine Or.inr ⟨by decide +kernel, ?_⟩
    rw [hkind]
    rfl
  obtain ⟨c', hload, hslot⟩ := Loaded.loadName_fills hbuilt (.walked .runtime)
    (Loader.ofNamespace "app") source {} (by decide +kernel) (List.forall_mem_nil _) hleaf hrealized
    hgives
  rw [hkeys] at hslot
  exact ⟨leaf, c', hpattern, hload, hslot⟩

end PropertyBinding

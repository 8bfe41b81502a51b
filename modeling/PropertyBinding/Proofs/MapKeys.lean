import PropertyBinding.Proofs.Quoting
import PropertyBinding.Proofs.Traversal
import PropertyBinding.Proofs.WildcardKeys

/-!
# The keys of realized maps

A name matches the pattern of a leaf if it has the pattern's pieces outside the wildcards, and no
literal child of the index takes a segment at a wildcard (`PatternMap.matchSegments_iff`). The map
entries of a loaded config have been made by names, and so their keys stand for the wildcards of
every leaf below them: no literal child takes them, and they can be read back from a name
(`Loaded.keysFree`).

This holds because a write makes no entries but those at the address that it fills
(`Value.at?_fill_entry`), and because leaves whose paths lead to the same map have the same key in
front of it (`Built.sharesKeys`).

In a plain definition, the pattern of a leaf with its wildcards replaced by the keys of a realized
slot is a name of the leaf (`Loaded.ledAlong_fillKeys`).
-/

namespace PropertyBinding

open Definition

/-! ### Matching along a pattern -/

namespace PatternMap

variable {α : Type} {m : PatternMap α} {path segments : List String} {segment : String} {value : α}

theorem Tidy.of_child? {child : PatternMap α} (hm : m.Tidy) (h : m.child? segment = some child) :
    child.Tidy := by
  obtain @⟨b, lits, wild, plain, below, under⟩ := hm
  rw [child?] at h
  split_ifs at h
  · exact under child h
  · exact below segment child h

/-- Whether the node that a path leads to has no literal child for a segment. -/
def FreeAt (m : PatternMap α) (path : List String) (segment : String) : Prop :=
  ∀ n, m.node? path = some n → n.literals.lookup segment = none

theorem freeAt_cons_iff {piece : String} : m.FreeAt (piece :: path) segment ↔
    ∀ child, m.child? piece = some child → child.FreeAt path segment := by
  simp only [FreeAt, node?, Option.bind_eq_some_iff]
  exact ⟨fun h child hchild n hn => h n ⟨child, hchild, hn⟩,
    fun h n ⟨child, hchild, hn⟩ => h child hchild n hn⟩

/-- Whether the segments of a name are led along a pattern: the pattern covers them, and no literal
child takes one that stands at a wildcard. -/
structure LedAlong (m : PatternMap α) (path segments : List String) : Prop where
  covers : Covers path segments
  free : ∀ i, path[i]? = some wildcard → ∀ segment, segments[i]? = some segment →
    m.FreeAt (path.take i) segment

/-- The pattern piece that a segment of a name takes at a node: itself if there is a literal child
for it, else the wildcard. -/
def taken (m : PatternMap α) (segment : String) : String :=
  if (m.literals.lookup segment).isSome then segment else wildcard

/-- A segment takes the wildcard exactly if no literal child takes it, and else itself. -/
theorem Tidy.taken_cases (hm : m.Tidy) (segment : String) :
    (m.literals.lookup segment = none ∧ m.taken segment = wildcard) ∨
      (m.literals.lookup segment).isSome ∧ segment ≠ wildcard ∧ m.taken segment = segment := by
  have hplain : m.literals.lookup wildcard = none := by
    obtain @⟨b, lits, wild, plain, -, -⟩ := hm
    exact plain
  cases hlit : m.literals.lookup segment with
  | none => exact Or.inl ⟨rfl, by rw [taken, hlit]; rfl⟩
  | some child =>
    refine Or.inr ⟨rfl, ?_, by rw [taken, hlit]; rfl⟩
    rintro rfl
    cases hplain.symm.trans hlit

/-- Matching goes on in the child for the piece that the first segment takes. -/
theorem Tidy.matchSegments_cons (hm : m.Tidy) (segment : String) (rest : List String) :
    m.matchSegments (segment :: rest) =
      (m.child? (m.taken segment)).bind (matchSegments rest) := by
  rcases hm.taken_cases segment with ⟨hlit, htaken⟩ | ⟨hlit, hne, htaken⟩
  · rw [htaken, child?, if_pos rfl, matchSegments]
    simp only [hlit]
  · obtain ⟨child, hlit⟩ := Option.isSome_iff_exists.mp hlit
    rw [htaken, child?, if_neg hne, matchSegments]
    simp only [hlit, Option.bind_some]

/-- A name is led along the pattern of a value if its first segment takes the first piece, and the
others are led along the rest of the pattern. -/
theorem Tidy.ledAlong_cons_iff (hm : m.Tidy) {piece : String} {rest : List String}
    {child : PatternMap α} (hchild : m.child? piece = some child) :
    m.LedAlong (piece :: path) (segment :: rest) ↔
      m.taken segment = piece ∧ child.LedAlong path rest := by
  have hfirst : m.taken segment = piece ↔ (piece = wildcard ∨ piece = segment) ∧
      (piece = wildcard → m.literals.lookup segment = none) := by
    rcases hm.taken_cases segment with ⟨hlit, htaken⟩ | ⟨hlit, hne, htaken⟩
    · rw [htaken]
      refine ⟨fun h => ⟨Or.inl h.symm, fun _ => hlit⟩, fun h => ?_⟩
      rcases h.1 with hwild | rfl
      · exact hwild.symm
      · by_contra hwild
        rw [child?, if_neg (Ne.symm hwild), hlit] at hchild
        cases hchild
    · rw [htaken]
      refine ⟨?_, fun h => ?_⟩
      · rintro rfl
        exact ⟨Or.inr rfl, fun hwild => absurd hwild hne⟩
      · rcases h.1 with hwild | heq
        · rw [h.2 hwild] at hlit
          cases hlit
        · exact heq.symm
  rw [hfirst]
  constructor
  · rintro ⟨hcovers, hfree⟩
    cases hcovers with
    | cons hpiece hcovers =>
      exact ⟨⟨hpiece, fun hwild => hfree 0 (by simp [hwild]) segment rfl m rfl⟩, hcovers,
        fun i hi other hother => freeAt_cons_iff.mp (hfree (i + 1) hi other hother) child hchild⟩
  · rintro ⟨⟨hpiece, hwild⟩, hcovers, hfree⟩
    refine ⟨.cons hpiece hcovers, fun i hi other hother => ?_⟩
    cases i with
    | zero =>
      obtain rfl : segment = other := by simpa using hother
      intro n hn
      obtain rfl := Option.some.inj hn
      exact hwild (by simpa using hi)
    | succ i =>
      refine freeAt_cons_iff.mpr fun other' hother' => ?_
      obtain rfl := Option.some.inj (hchild.symm.trans hother')
      exact hfree i hi other hother

/-- **Matching**: a name finds the value of the one pattern along which it is led. -/
theorem matchSegments_iff (hm : m.Tidy) : m.matchSegments segments = some value ↔
    ∃ path, m.find? path = some value ∧ m.LedAlong path segments := by
  induction segments generalizing m with
  | nil =>
    rw [matchSegments]
    constructor
    · exact fun h => ⟨[], by rwa [find?_nil], .nil, by simp⟩
    · rintro ⟨path, hfind, hled⟩
      cases hled.covers
      rwa [find?_nil] at hfind
  | cons segment rest ih =>
    rw [hm.matchSegments_cons]
    constructor
    · intro h
      obtain ⟨child, hchild, hmatch⟩ := Option.bind_eq_some_iff.mp h
      obtain ⟨path, hfind, hled⟩ := (ih (hm.of_child? hchild)).mp hmatch
      exact ⟨m.taken segment :: path, by rw [find?_cons, hchild]; exact hfind,
        (hm.ledAlong_cons_iff hchild).mpr ⟨rfl, hled⟩⟩
    · rintro ⟨path, hfind, hled⟩
      cases path with
      | nil => cases hled.covers
      | cons piece path =>
        rw [find?_cons] at hfind
        obtain ⟨child, hchild, hbelow⟩ := Option.bind_eq_some_iff.mp hfind
        obtain ⟨rfl, hrest⟩ := (hm.ledAlong_cons_iff hchild).mp hled
        rw [hchild]
        exact (ih (hm.of_child? hchild)).mpr ⟨path, hbelow, hrest⟩

end PatternMap

/-! ### Entries that a write makes -/

section Entries

variable {leaves : List Leaf} {node child : Node} {v value slot : Value} {key : String}
  {address before : List SlotStep}

theorem Value.at?_append (v : Value) (before after : List SlotStep) :
    v.at? (before ++ after) = (v.at? before).bind fun inner => inner.at? after := by
  induction before generalizing v with
  | nil => rfl
  | cons s before ih =>
    rw [List.cons_append, Value.at?_cons, Value.at?_cons, Option.bind_assoc]
    exact congrArg _ (funext fun inner => ih inner)

/-- What stands on the way to something is there. -/
theorem Value.isSome_at?_of_prefix (h : before <+: address) (hat : (v.at? address).isSome) :
    (v.at? before).isSome := by
  obtain ⟨after, rfl⟩ := h
  rw [Value.at?_append] at hat
  exact Option.isSome_of_isSome_bind hat

/-- Scalars have no entries. -/
theorem Value.IsScalar.at?_concat_entry (h : v.IsScalar) (before : List SlotStep) (key : String) :
    v.at? (before ++ [.entry key]) = none := by
  cases before with
  | nil => rw [List.nil_append, Value.at?_cons, h.slot?]; rfl
  | cons s rest => rw [List.cons_append, Value.at?_cons, h.slot?]; rfl

/-- Defaults have no entries. -/
theorem defaultOver_at?_concat_entry (hscalar : ∀ leaf ∈ leaves, leaf.defaultValue.IsScalar)
    (node : Node) (before : List SlotStep) (key : String) :
    (defaultOver leaves node).at? (before ++ [.entry key]) = none := by
  rw [Value.at?_append, Option.bind_eq_none_iff]
  intro inner hinner
  obtain ⟨n, -, rfl⟩ := exists_node_of_defaultOver_at? hscalar hinner
  cases n with
  | group g => rw [defaultOver]; rfl
  | map value => rw [defaultOver]; rfl
  | leaf id => exact (isScalar_defaultOver hscalar id).at?_concat_entry [] key

/-- **The entries that filling a slot makes** stand at its address. -/
theorem Value.at?_fill_entry (hscalar : ∀ leaf ∈ leaves, leaf.defaultValue.IsScalar)
    (hvalue : value.IsScalar) (hfits : Fits node slot)
    (h : ((value.fill leaves node address slot).at? (before ++ [.entry key])).isSome) :
    (slot.at? (before ++ [.entry key])).isSome ∨ before ++ [.entry key] <+: address := by
  induction address generalizing node slot before with
  | nil =>
    rw [Value.fill, hvalue.at?_concat_entry] at h
    cases h
  | cons s rest ih =>
    cases hchild : node.slot? s with
    | none =>
      rw [Value.fill, hchild] at h
      exact Or.inl h
    | some child =>
      have htakes := hfits.takes hchild
      rw [Value.fill_cons value hchild] at h
      cases before with
      | nil =>
        by_cases hs : SlotStep.entry key = s
        · subst hs
          exact Or.inr ((List.prefix_cons_inj _).mpr List.nil_prefix)
        · rw [List.nil_append, Value.at?_put_of_ne hs] at h
          exact Or.inl h
      | cons t before =>
        rw [List.cons_append] at h ⊢
        by_cases hs : t = s
        · subst hs
          rw [Value.at?_put_self htakes] at h
          rcases ih (hfits.slot_getD hscalar hchild) h with hinner | hstarts
          · -- The slot was there: defaults that are made for one have no entries.
            cases hslot : slot.slot? t with
            | none =>
              rw [hslot, Option.getD_none, defaultOver_at?_concat_entry hscalar] at hinner
              cases hinner
            | some inner =>
              rw [hslot] at hinner
              exact Or.inl (by rw [Value.at?_cons, hslot]; exact hinner)
          · exact Or.inr ((List.prefix_cons_inj _).mpr hstarts)
        · rw [Value.at?_put_of_ne hs] at h
          exact Or.inl h

end Entries

/-! ### Leaves below one map -/

section Sharing

variable {full full' keys : List String} {path path' before after : List PathStep}
  {address place : List SlotStep} {keyAt : Nat → Option String} {key : String}
  {segment template : Nat}

/-- A key of an address belongs to a map on the path: it stands below what comes before it. -/
theorem exists_entry_of_fillPath (h : fillPath path keys = some address)
    (hmem : (segment, key) ∈ (keySegments path).zip keys) :
    ∃ before template after keys' place, path = before ++ .key segment template :: after ∧
      fillPath before keys' = some place ∧ place ++ [.entry key] <+: address := by
  induction path generalizing keys address with
  | nil => cases hmem
  | cons step path ih =>
    cases step with
    | field ident =>
      obtain ⟨below, hbelow, rfl⟩ := Option.map_eq_some_iff.mp h
      obtain ⟨before, template, after, keys', place, rfl, hfill, hstarts⟩ := ih hbelow hmem
      exact ⟨.field ident :: before, template, after, keys', .field ident :: place, rfl,
        by rw [fillPath, hfill]; rfl, (List.prefix_cons_inj _).mpr hstarts⟩
    | key first template =>
      cases keys with
      | nil => cases h
      | cons k keys =>
        obtain ⟨below, hbelow, rfl⟩ := Option.map_eq_some_iff.mp h
        rcases List.mem_cons.mp hmem with heq | hmem
        · obtain ⟨rfl, rfl⟩ := Prod.mk.inj heq
          exact ⟨[], template, path, [], [], rfl, rfl,
            (List.prefix_cons_inj _).mpr List.nil_prefix⟩
        · obtain ⟨before, template', after, keys', place, rfl, hfill, hstarts⟩ := ih hbelow hmem
          exact ⟨.key first template :: before, template', after, k :: keys', .entry k :: place,
            rfl, by rw [fillPath, hfill]; rfl, (List.prefix_cons_inj _).mpr hstarts⟩

/-- If a write makes an entry of a map, it has the key from a segment, and the key of its leaf is
the same up to this segment as that of any other leaf below the map. -/
theorem SharesKeys.exists_segment (haddresses : Addresses keyAt path' address)
    (hshares : SharesKeys full' full path' (before ++ .key segment template :: after))
    (hfill : fillPath before keys = some place) (hstarts : place ++ [.entry key] <+: address) :
    ∃ segment', segment' ∈ keySegments path' ∧ keyAt segment' = some key ∧
      full'.take segment' = full.take segment := by
  induction before generalizing path' address keys place with
  | nil =>
    cases keys with
    | cons k keys => cases hfill
    | nil =>
      obtain rfl := Option.some.inj hfill
      obtain ⟨rest, rfl⟩ := hstarts
      cases haddresses with
      | entry template' key_eq below =>
        exact ⟨_, List.mem_cons_self, key_eq, hshares.1⟩
  | cons step before ih =>
    cases step with
    | field ident =>
      obtain ⟨below, hbelow, rfl⟩ := Option.map_eq_some_iff.mp hfill
      obtain ⟨rest, rfl⟩ := hstarts
      cases haddresses with
      | field _ hrest =>
        obtain ⟨segment', hmem, hkey, htake⟩ := ih hrest (hshares rfl) hbelow ⟨rest, rfl⟩
        exact ⟨segment', hmem, hkey, htake⟩
    | key first template' =>
      cases keys with
      | nil => cases hfill
      | cons k keys =>
        obtain ⟨below, hbelow, rfl⟩ := Option.map_eq_some_iff.mp hfill
        obtain ⟨rest, rfl⟩ := hstarts
        cases haddresses with
        | entry _ _ hrest =>
          obtain ⟨segment', hmem, hkey, htake⟩ := ih hrest hshares.2 hbelow ⟨rest, rfl⟩
          exact ⟨segment', List.mem_cons_of_mem _ hmem, hkey, htake⟩

end Sharing

section Keys

variable {piece : String → Prop} {d : Definition} {c : RealizedConfig} {root : Root}
  {id id' : Nat} {leaf leaf' : Leaf} {keys : List String}

/-- The leaves of a root that repeats no attribute share their keys. -/
theorem Root.Laid.sharesKeys (h : root.Laid piece List.Nodup d) (hid : id ∈ root.tree.leafIds)
    (hid' : id' ∈ root.tree.leafIds) (hleaf : d.leaf? id = some leaf)
    (hleaf' : d.leaf? id' = some leaf') :
    leaf.SharesKeys piece (Text.split '.' root.rootName) [] leaf' := by
  obtain ⟨l, t, ls, ts, hl, ht, hlays⟩ := h.lays
  have hids := hlays.ids
  rw [Node.leafIds] at hids
  have hmem : ∀ {id : Nat} {leaf : Leaf}, id ∈ root.tree.leafIds → d.leaf? id = some leaf →
      leaf ∈ ls := by
    intro id leaf hid hleaf
    rw [hids] at hid
    obtain ⟨hle, hlt⟩ := List.mem_range'_1.mp hid
    have hlen : id - l < ls.length := by omega
    have hat := hl _ _ (List.getElem?_eq_getElem hlen)
    rw [Nat.add_sub_cancel' hle] at hat
    obtain rfl := Option.some.inj (hleaf.symm.trans hat)
    exact List.getElem_mem hlen
  exact hlays.shared h.idents leaf (hmem hid hleaf) leaf' (hmem hid' hleaf')

/-- In a plain definition, two leaves of one root have the same segments in front of every map that
both paths lead to. -/
theorem Built.sharesKeys (h : Built RootDecl.Plain d) (hleaf : d.leaf? id = some leaf)
    (hleaf' : d.leaf? id' = some leaf') (hroot : leaf.root = leaf'.root) :
    SharesKeys (Name.segments leaf.pattern) (Name.segments leaf'.pattern) leaf.path leaf'.path := by
  obtain ⟨root, hmem, hid⟩ := h.owned (List.getElem?_eq_some_iff.mp hleaf).1
  obtain ⟨other, hother, hid'⟩ := h.owned (List.getElem?_eq_some_iff.mp hleaf').1
  have hlaid := h.sound.laid root hmem
  have hname : ∀ {root : Root} {id : Nat} {leaf : Leaf}, root ∈ d.roots →
      id ∈ root.tree.leafIds → d.leaf? id = some leaf → leaf.root = root.containingName := by
    intro root id leaf hmem hid hleaf
    obtain ⟨found, hfound, hname, -⟩ := (h.sound.laid root hmem).exists_leaf hid
    obtain rfl := Option.some.inj (hleaf.symm.trans hfound)
    exact hname
  obtain rfl : other = root := List.inj_on_of_nodup_map h.sound.names hother hmem
    ((hname hother hid' hleaf').symm.trans (hroot.symm.trans (hname hmem hid hleaf)))
  obtain ⟨rest, rest', more, more', hspells, hspells', hshares⟩ :=
    hlaid.sharesKeys hid hid' hleaf hleaf'
  have hsegments : ∀ {leaf : Leaf} {rest : List PathStep} {more : List String},
      leaf.Spells PlainPiece (Text.split '.' other.rootName) [] rest more →
        Name.segments leaf.pattern = Text.split '.' other.rootName ++ more := by
    intro leaf rest more hspells
    rw [hspells.pattern]
    exact Name.segments_intercalate (bare_of_mem_append hlaid.pieces hspells.pieces)
  rw [hsegments hspells, hsegments hspells', hspells.path, hspells'.path, List.nil_append,
    List.nil_append]
  exact hshares

/-- **What matches a leaf**: the names that are led along the leaf's pattern. -/
theorem Definition.Sound.matchLeaf_iff {idents : List String → Prop} (h : d.Sound piece idents)
    {name : Cursor} : d.matchLeaf name = some (id, leaf) ↔
      d.leaf? id = some leaf ∧
        d.index.LedAlong (Name.segments leaf.pattern) name.remaining := by
  constructor
  · intro hmatch
    obtain ⟨hindex, hleaf⟩ := matchLeaf_eq_some hmatch
    obtain ⟨path, hfind, hled⟩ := (PatternMap.matchSegments_iff h.tidy).mp hindex
    obtain ⟨found, hfound, rfl⟩ := h.found path id hfind
    obtain rfl := Option.some.inj (hleaf.symm.trans hfound)
    exact ⟨hleaf, hled⟩
  · rintro ⟨hleaf, hled⟩
    have hindex : d.index.matchName name = some id :=
      (PatternMap.matchSegments_iff h.tidy).mpr ⟨_, h.bound id leaf hleaf, hled⟩
    rw [matchLeaf, hindex]
    change (d.leaf? id >>= fun leaf => pure (id, leaf)) = _
    rw [hleaf]
    rfl

/-! ### Keys of loaded configs -/

/-- Whether the keys of a root's map entries can be read back from names and stand for the wildcards
of the leaves below: no literal child of the index takes them. -/
def Definition.KeysFree (d : Definition) (root : Root) (g : Group) : Prop :=
  ∀ (id : Nat) (leaf : Leaf) (before after : List PathStep) (segment template : Nat)
    (keys : List String) (place : List SlotStep) (key : String),
    d.leaf? id = some leaf → leaf.root = root.containingName →
    leaf.path = before ++ .key segment template :: after → fillPath before keys = some place →
    ((Value.group g).at? (place ++ [.entry key])).isSome →
      Name.Quotable key ∧ d.index.FreeAt ((Name.segments leaf.pattern).take segment) key

/-- Placing a value makes entries under keys from its name only, which matches. -/
theorem Built.keysFree_place (h : Built RootDecl.Plain d) (hroot : root ∈ d.roots) {name : Cursor}
    {value : Value} {g g' : Group} {written : Bool} (hmatch : d.matchLeaf name = some (id, leaf))
    (hname : leaf.root = root.containingName) (hvalue : value.IsScalar)
    (hfits : Fits (.group root.tree) (.group g)) (hfree : d.KeysFree root g)
    (hplace : leaf.place d name value g = .ok (g', written)) :
    Fits (.group root.tree) (.group g') ∧ d.KeysFree root g' := by
  obtain ⟨hleaf, hled⟩ := h.sound.matchLeaf_iff.mp hmatch
  have hcounted := h.counted hleaf
  obtain ⟨g'', address, hplace', hfill, heq⟩ :=
    h.place_eq_fill hroot hmatch hname hcounted value hfits
  obtain ⟨rfl, -⟩ := Prod.mk.inj (Except.ok.inj (hplace.symm.trans hplace'))
  obtain ⟨address', haddresses, hfill'⟩ := h.sound.exists_addresses hmatch hcounted
  obtain rfl := Option.some.inj (hfill.symm.trans hfill')
  rw [heq]
  refine ⟨(Value.filled_fill h.sound.scalar (h.at?_eq hroot hleaf hname hfill) value hfits).fits,
    ?_⟩
  intro id' leaf' before after segment template keys place key hleaf' hname' hpath hfill'' hat
  rw [heq] at hat
  rcases Value.at?_fill_entry h.sound.scalar hvalue hfits hat with hold | hstarts
  · exact hfree id' leaf' before after segment template keys place key hleaf' hname' hpath hfill''
      hold
  -- The entry has been made now, with a segment of the name that stands at a wildcard.
  have hshares := h.sharesKeys hleaf hleaf' (hname.trans hname'.symm)
  rw [hpath] at hshares
  obtain ⟨segment', hmem, hkey, htake⟩ := hshares.exists_segment haddresses hfill'' hstarts
  rw [hcounted] at hmem
  obtain ⟨i, rfl, hwild⟩ := mem_wildcardPositions.mp hmem
  rw [Nat.zero_add] at hkey htake
  rw [← htake]
  exact ⟨Name.quotable_of_mem_segments (List.mem_of_getElem? hkey),
    hled.free i hwild key (by rw [Cursor.remaining_getElem?, hkey])⟩

/-- **The keys of loaded configs** can be read back, and stand for wildcards. -/
theorem Loaded.keysFree (h : Built RootDecl.Plain d) (hc : Loaded d c) :
    c.Holds d fun root g => Fits (.group root.tree) (.group g) ∧ d.KeysFree root g := by
  refine hc.holds h.sound (fun root _ => ?_) ?_
  · have hfits := fits_defaultOver h.sound.scalar (.group root.tree)
    have hnone := defaultOver_at?_concat_entry h.sound.scalar (.group root.tree)
    rw [defaultOver] at hfits hnone
    refine ⟨hfits, ?_⟩
    intro id leaf before after segment template keys place key _ _ _ _ hat
    rw [defaultGroup, hnone] at hat
    cases hat
  · intro root hroot name id leaf raw value g g' written hmatch hname hvalue hg hplace
    have hleaf := (matchLeaf_eq_some hmatch).2
    exact h.keysFree_place hroot hmatch hname
      (Leaf.valueOf_isScalar (h.sound.scalar leaf (List.mem_of_getElem? hleaf)) hvalue) hg.1 hg.2
      hplace

/-! ### Names of realized slots -/

/-- The segments of a pattern with its wildcards replaced by keys, in order. -/
def fillKeys : List String → List String → List String
  | [], _ => []
  | piece :: pattern, [] => piece :: pattern
  | piece :: pattern, key :: keys =>
    if piece = wildcard then key :: fillKeys pattern keys
    else piece :: fillKeys pattern (key :: keys)

theorem fillKeys_nil (pattern : List String) : fillKeys pattern [] = pattern := by
  cases pattern <;> rfl

theorem covers_fillKeys (pattern keys : List String) :
    PatternMap.Covers pattern (fillKeys pattern keys) := by
  induction pattern generalizing keys with
  | nil => exact .nil
  | cons piece pattern ih =>
    cases keys with
    | nil => exact List.forall₂_same.mpr fun _ _ => Or.inr rfl
    | cons key keys =>
      rw [fillKeys]
      split_ifs with hpiece
      · exact .cons (Or.inl hpiece) (ih keys)
      · exact .cons (Or.inr rfl) (ih (key :: keys))

/-- The keys stand at the wildcards. -/
theorem wildcardSegments_fillKeys {pattern keys : List String} {start : Nat}
    (h : (wildcardPositions start pattern).length = keys.length) :
    wildcardSegments pattern (fillKeys pattern keys) = keys := by
  induction pattern generalizing keys start with
  | nil =>
    obtain rfl : keys = [] := List.length_eq_zero_iff.mp h.symm
    rfl
  | cons piece pattern ih =>
    rw [wildcardPositions] at h
    cases keys with
    | nil =>
      split_ifs at h with hpiece
      have hrest := ih h
      rw [fillKeys_nil] at hrest
      rw [fillKeys, wildcardSegments, if_neg hpiece, hrest]
    | cons key keys =>
      rw [fillKeys]
      split_ifs at h ⊢ with hpiece
      · rw [wildcardSegments, if_pos hpiece, ih (Nat.succ.inj h)]
      · rw [wildcardSegments, if_neg hpiece, ih h]

/-- An address of a path has one key for every map on it. -/
theorem length_keySegments {path : List PathStep} {keys : List String} {address : List SlotStep}
    (h : fillPath path keys = some address) : (keySegments path).length = keys.length := by
  induction path generalizing keys address with
  | nil =>
    cases keys with
    | nil => rfl
    | cons k keys => cases h
  | cons step path ih =>
    cases step with
    | field ident =>
      obtain ⟨below, hbelow, -⟩ := Option.map_eq_some_iff.mp h
      exact ih hbelow
    | key segment template =>
      cases keys with
      | nil => cases h
      | cons k keys =>
        obtain ⟨below, hbelow, -⟩ := Option.map_eq_some_iff.mp h
        rw [keySegments, List.length_cons, List.length_cons, ih hbelow]

/-- **The names of a realized slot**: their keys can be read back, and the pattern of the leaf with
the keys in place of its wildcards matches the leaf. -/
theorem Loaded.ledAlong_fillKeys (h : Built RootDecl.Plain d) (hc : Loaded d c)
    (hleaf : d.leaf? id = some leaf) (hslot : (c.slot? leaf keys).isSome) :
    (∀ key ∈ keys, Name.Quotable key) ∧
      wildcardSegments (Name.segments leaf.pattern) (fillKeys (Name.segments leaf.pattern) keys) =
        keys ∧
      d.index.LedAlong (Name.segments leaf.pattern)
        (fillKeys (Name.segments leaf.pattern) keys) := by
  obtain ⟨value, hslot⟩ := Option.isSome_iff_exists.mp hslot
  obtain ⟨g, hget, hslot⟩ := Option.bind_eq_some_iff.mp hslot
  obtain ⟨address, hfill, hat⟩ := Option.bind_eq_some_iff.mp hslot
  obtain ⟨root, -, hname, -, hfree⟩ := hc.keysFree h _ g hget
  have hcounted := h.counted hleaf
  have hlength := length_keySegments hfill
  have hkeys := wildcardSegments_fillKeys (hcounted ▸ hlength)
  have hentries : ∀ segment key, (segment, key) ∈ (keySegments leaf.path).zip keys →
      Name.Quotable key ∧ d.index.FreeAt ((Name.segments leaf.pattern).take segment) key := by
    intro segment key hmem
    obtain ⟨before, template, after, keys', place, hpath, hplace, hstarts⟩ :=
      exists_entry_of_fillPath hfill hmem
    exact hfree id leaf before after segment template keys' place key hleaf hname.symm hpath hplace
      (Value.isSome_at?_of_prefix hstarts (by rw [hat]; rfl))
  refine ⟨fun key hkey => ?_, hkeys, covers_fillKeys _ _, fun i hwild segment hsegment => ?_⟩
  · rw [← List.map_snd_zip (Nat.le_of_eq hlength.symm)] at hkey
    obtain ⟨⟨segment, key⟩, hmem, rfl⟩ := List.mem_map.mp hkey
    exact (hentries segment key hmem).1
  · have hi : i ∈ keySegments leaf.path := by
      rw [hcounted]
      exact mem_wildcardPositions.mpr ⟨i, (Nat.zero_add i).symm, hwild⟩
    rw [← List.map_fst_zip (Nat.le_of_eq hlength)] at hi
    obtain ⟨⟨i, key⟩, hmem, rfl⟩ := List.mem_map.mp hi
    have hpositions := forall₂_wildcardSegments
      (covers_fillKeys (Name.segments leaf.pattern) keys).length_eq []
    rw [hkeys, List.nil_append, List.length_nil, ← hcounted] at hpositions
    obtain rfl := Option.some.inj ((List.forall₂_zip hpositions hmem).symm.trans hsegment)
    exact (hentries i key hmem).2

end Keys

end PropertyBinding

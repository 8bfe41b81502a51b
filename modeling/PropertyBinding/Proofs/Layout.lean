import Mathlib.Data.List.Basic
import PropertyBinding.Proofs.Declarations

/-!
# How trees, leaves and templates fit together

A descriptor tree refers to leaves and, through the paths of its leaves, to templates, by their
positions in tables that grow while the tree is drafted. A `Way` leads from a node to a leaf below
it and spells out the leaf's path: the attributes and maps on it, the position of every wildcard in
the key, and for every map a template that is the default of its values.

`Lays` says that a node drafted from given positions on has exactly the leaves that were added, in
order, and that a way leads to each of them, in all tables that hold what was added. Leaves whose
paths run together have the same keys up to the maps on the common part (`Leaf.SharesKeys`). All
this is built up along the tree: `Lays.leaf`, `Lays.entry`, `Lays.field`, `Lays.append`.
-/

namespace PropertyBinding

open Definition

/-! ### The leaves of a tree -/

mutual

/-- The indices of the leaves of a node, in the order of declaration. -/
def Node.leafIds : Node → List Nat
  | .group g => g.leafIds
  | .map value => value.leafIds
  | .leaf id => [id]

/-- The indices of the leaves of a group. -/
def GroupNode.leafIds : GroupNode → List Nat
  | ⟨_, fields⟩ => fieldLeafIds fields

/-- The indices of the leaves below attributes. -/
def fieldLeafIds : List (String × Node) → List Nat
  | [] => []
  | (_, node) :: rest => node.leafIds ++ fieldLeafIds rest

end

theorem fieldLeafIds_append (as bs : List (String × Node)) :
    fieldLeafIds (as ++ bs) = fieldLeafIds as ++ fieldLeafIds bs := by
  induction as with
  | nil => simp [fieldLeafIds]
  | cons field rest ih => simp [fieldLeafIds, ih]

mutual

/-- The default of a node depends on its own leaves only. -/
theorem defaultOver_congr {leaves leaves' : List Leaf} : (node : Node) →
    (∀ id ∈ node.leafIds, leaves[id]? = leaves'[id]?) →
      defaultOver leaves node = defaultOver leaves' node
  | .group g, h => by
    rw [defaultOver, defaultOver, defaultGroupOver_congr g (by rwa [Node.leafIds] at h)]
  | .map value, _ => by rw [defaultOver, defaultOver]
  | .leaf id, h => by rw [defaultOver, defaultOver, h id (by simp [Node.leafIds])]

/-- The default of a group depends on its own leaves only. -/
theorem defaultGroupOver_congr {leaves leaves' : List Leaf} : (g : GroupNode) →
    (∀ id ∈ g.leafIds, leaves[id]? = leaves'[id]?) →
      defaultGroupOver leaves g = defaultGroupOver leaves' g
  | ⟨typeName, fields⟩, h => by
    rw [defaultGroupOver, defaultGroupOver,
      acceptDefaults_congr fields _ (by rwa [GroupNode.leafIds] at h)]

/-- What a group accepts depends on the leaves of the attributes only. -/
theorem acceptDefaults_congr {leaves leaves' : List Leaf} : (fields : List (String × Node)) →
    (g : Group) → (∀ id ∈ fieldLeafIds fields, leaves[id]? = leaves'[id]?) →
      acceptDefaults leaves g fields = acceptDefaults leaves' g fields
  | [], _, _ => by rw [acceptDefaults, acceptDefaults]
  | (ident, child) :: rest, g, h => by
    simp only [fieldLeafIds, List.mem_append] at h
    rw [acceptDefaults, acceptDefaults, defaultOver_congr child fun id hid => h id (Or.inl hid),
      acceptDefaults_congr rest _ fun id hid => h id (Or.inr hid)]

end

/-! ### Tables that hold what was added -/

/-- `xs` holds `ys` from position `n` on. -/
def HasAt {α : Type} (xs : List α) (n : Nat) (ys : List α) : Prop :=
  ∀ i y, ys[i]? = some y → xs[n + i]? = some y

section HasAt

variable {α : Type} {xs ys zs : List α} {n : Nat}

theorem HasAt.left (h : HasAt xs n (ys ++ zs)) : HasAt xs n ys := fun i y hy => by
  have hlt : i < ys.length := (List.getElem?_eq_some_iff.mp hy).1
  exact h i y (by rw [List.getElem?_append_left hlt, hy])

theorem HasAt.right (h : HasAt xs n (ys ++ zs)) : HasAt xs (n + ys.length) zs := fun i z hz => by
  have hi : (ys ++ zs)[ys.length + i]? = some z := by
    rw [List.getElem?_append_right (Nat.le_add_right _ _), Nat.add_sub_cancel_left, hz]
  have := h _ _ hi
  rwa [← Nat.add_assoc] at this

theorem HasAt.tail {y : α} (h : HasAt xs n (y :: ys)) : HasAt xs (n + 1) ys := by
  rw [← List.singleton_append] at h
  exact h.right

theorem HasAt.head {y : α} (h : HasAt xs n (y :: ys)) : xs[n]? = some y := h 0 y rfl

theorem hasAt_append (xs ys : List α) : HasAt (xs ++ ys) xs.length ys := fun i y hy => by
  rw [List.getElem?_append_right (Nat.le_add_right _ _), Nat.add_sub_cancel_left, hy]

theorem HasAt.append_right (h : HasAt xs n ys) (zs : List α) : HasAt (xs ++ zs) n ys :=
  fun i y hy => by
    have hlt : n + i < xs.length := (List.getElem?_eq_some_iff.mp (h i y hy)).1
    rw [List.getElem?_append_left hlt, h i y hy]

/-- Two tables that hold the same agree on its positions. -/
theorem HasAt.getElem?_eq {xs' : List α} (h : HasAt xs n ys) (h' : HasAt xs' n ys) {i : Nat}
    (hi : i ∈ List.range' n ys.length) : xs[i]? = xs'[i]? := by
  obtain ⟨hle, hlt⟩ := List.mem_range'_1.mp hi
  have hy : ys[i - n]? = some ys[i - n] := List.getElem?_eq_getElem (by omega)
  have hni : n + (i - n) = i := by omega
  have hx := h _ _ hy
  have hx' := h' _ _ hy
  rw [hni] at hx hx'
  rw [hx, hx']

end HasAt

/-! ### Ways -/

/-- A way from a node at a key to the leaf with an index. The steps are the rest of the leaf's
path, and `full` is the leaf's whole key. Every template on the way is the default of the values of
its map, and every name piece has the property. -/
inductive Way (leaves : List Leaf) (templates : List Value) (piece : String → Prop) :
    Node → List String → List PathStep → List String → Nat → Prop where
  | leaf (key : List String) (id : Nat) : Way leaves templates piece (.leaf id) key [] key id
  | field {g : GroupNode} {ident : String} {child : Node} {key more full : List String}
      {rest : List PathStep} {id : Nat} (mem : (ident, child) ∈ g.fields)
      (pieces : ∀ p ∈ more, piece p)
      (way : Way leaves templates piece child (key ++ more) rest full id) :
      Way leaves templates piece (.group g) key (.field ident :: rest) full id
  | entry {value : Node} {template : Nat} {key full : List String} {rest : List PathStep}
      {id : Nat} (template_eq : templates[template]? = some (defaultOver leaves value))
      (way : Way leaves templates piece value (key ++ [wildcard]) rest full id) :
      Way leaves templates piece (.map value) key (.key key.length template :: rest) full id

/-- A group with more attributes has all the ways of the smaller one. -/
theorem Way.mono {leaves : List Leaf} {templates : List Value} {piece : String → Prop}
    {g g' : GroupNode} (h : ∀ field ∈ g.fields, field ∈ g'.fields) {key full : List String}
    {path : List PathStep} {id : Nat}
    (way : Way leaves templates piece (.group g) key path full id) :
    Way leaves templates piece (.group g') key path full id := by
  cases way with
  | field mem pieces way => exact .field (h _ mem) pieces way

/-- The way of a leaf below a node at a key and a path, in tables of leaves and templates. -/
def Leaf.OnWay (leaves : List Leaf) (templates : List Value) (piece : String → Prop)
    (node : Node) (key : List String) (path : List PathStep) (leaf : Leaf) (id : Nat) : Prop :=
  ∃ rest full, leaf.path = path ++ rest ∧ leaf.pattern = String.intercalate "." full ∧
    Way leaves templates piece node key rest full id

section Way

variable {leaves : List Leaf} {templates : List Value} {piece : String → Prop} {node : Node}
  {key full : List String} {steps : List PathStep} {id : Nat}

/-- On a way the key only grows, by pieces and wildcards. -/
theorem Way.exists_suffix (h : Way leaves templates piece node key steps full id) :
    ∃ suffix, full = key ++ suffix ∧ ∀ p ∈ suffix, piece p ∨ p = wildcard := by
  induction h with
  | leaf key id => exact ⟨[], (List.append_nil key).symm, by simp⟩
  | @field _ _ _ _ more _ _ _ _ pieces _ ih =>
    obtain ⟨suffix, rfl, hsuffix⟩ := ih
    refine ⟨more ++ suffix, List.append_assoc _ _ _, fun p hp => ?_⟩
    rcases List.mem_append.mp hp with hp | hp
    · exact Or.inl (pieces p hp)
    · exact hsuffix p hp
  | entry _ _ ih =>
    obtain ⟨suffix, rfl, hsuffix⟩ := ih
    refine ⟨wildcard :: suffix, by simp, fun p hp => ?_⟩
    rcases List.mem_cons.mp hp with rfl | hp
    · exact Or.inr rfl
    · exact hsuffix p hp

/-- A way through a group begins with an attribute. -/
theorem Way.exists_field {g : GroupNode}
    (h : Way leaves templates piece (.group g) key steps full id) :
    ∃ ident rest, steps = .field ident :: rest ∧ ident ∈ g.fields.map (·.1) := by
  cases h with
  | field mem => exact ⟨_, _, rfl, List.mem_map_of_mem mem⟩

end Way

/-! ### Paths that run together -/

/-- Whether two keys have the same pieces in front of every map that lies on both paths. -/
def SharesKeys (full full' : List String) : List PathStep → List PathStep → Prop
  | .field ident :: rest, .field ident' :: rest' =>
    ident = ident' → SharesKeys full full' rest rest'
  | .key segment _ :: rest, .key segment' _ :: rest' =>
    full.take segment = full'.take segment' ∧ SharesKeys full full' rest rest'
  | _, _ => True

/-- What a leaf's path and key are behind those of a node above it. -/
structure Leaf.Spells (piece : String → Prop) (key : List String) (path : List PathStep)
    (leaf : Leaf) (rest : List PathStep) (more : List String) : Prop where
  path : leaf.path = path ++ rest
  pattern : leaf.pattern = String.intercalate "." (key ++ more)
  pieces : ∀ p ∈ more, piece p ∨ p = wildcard

/-- Whether two leaves below a node have the same key up to every map that both paths lead to. -/
def Leaf.SharesKeys (piece : String → Prop) (key : List String) (path : List PathStep)
    (leaf leaf' : Leaf) : Prop :=
  ∃ rest rest' more more', leaf.Spells piece key path rest more ∧
    leaf'.Spells piece key path rest' more' ∧
    PropertyBinding.SharesKeys (key ++ more) (key ++ more') rest rest'

/-- A node, drafted at a key and a path with leaves and templates from given positions on, has
exactly the added leaves, and a way leads to each of them. -/
structure Lays (piece : String → Prop) (root : String) (key : List String)
    (path : List PathStep) (node : Node) (l t : Nat) (ls : List Leaf) (ts : List Value) :
    Prop where
  ids : node.leafIds = List.range' l ls.length
  roots : ∀ leaf ∈ ls, leaf.root = root
  values : ∀ leaf ∈ ls, Convert.value leaf.kind leaf.default = .ok leaf.defaultValue
  ways : ∀ leaves templates, HasAt leaves l ls → HasAt templates t ts →
    ∀ (i : Nat) (leaf : Leaf), ls[i]? = some leaf →
      leaf.OnWay leaves templates piece node key path (l + i)
  shared : node.Each List.Nodup →
    ∀ leaf ∈ ls, ∀ leaf' ∈ ls, leaf.SharesKeys piece key path leaf'

section Spells

variable {piece : String → Prop} {key more : List String} {path rest : List PathStep} {leaf : Leaf}

theorem Leaf.OnWay.exists_spells {leaves : List Leaf} {templates : List Value} {node : Node}
    {id : Nat} (h : leaf.OnWay leaves templates piece node key path id) :
    ∃ rest more, leaf.Spells piece key path rest more ∧
      Way leaves templates piece node key rest (key ++ more) id := by
  obtain ⟨rest, full, hpath, hpattern, way⟩ := h
  obtain ⟨more, rfl, hmore⟩ := way.exists_suffix
  exact ⟨rest, more, ⟨hpath, hpattern, hmore⟩, way⟩

/-- Behind a group there is one attribute more. -/
theorem Leaf.Spells.field {ident : String} {pieces : List String} (hpieces : ∀ p ∈ pieces, piece p)
    (h : leaf.Spells piece (key ++ pieces) (path ++ [.field ident]) rest more) :
    leaf.Spells piece key path (.field ident :: rest) (pieces ++ more) where
  path := by rw [h.path, List.append_assoc, List.singleton_append]
  pattern := by rw [h.pattern, List.append_assoc]
  pieces := by
    intro p hp
    rcases List.mem_append.mp hp with hp | hp
    · exact Or.inl (hpieces p hp)
    · exact h.pieces p hp

/-- Behind a map there is one entry more. -/
theorem Leaf.Spells.entry {segment template : Nat}
    (h : leaf.Spells piece (key ++ [wildcard]) (path ++ [.key segment template]) rest more) :
    leaf.Spells piece key path (.key segment template :: rest) (wildcard :: more) where
  path := by rw [h.path, List.append_assoc, List.singleton_append]
  pattern := by rw [h.pattern, List.append_assoc, List.singleton_append]
  pieces := List.forall_mem_cons.mpr ⟨Or.inr rfl, h.pieces⟩

end Spells

theorem nodesEach_iff {idents : List String → Prop} {fields : List (String × Node)} :
    NodesEach idents fields ↔ ∀ field ∈ fields, field.2.Each idents := by
  induction fields with
  | nil => simp [NodesEach]
  | cons field rest ih => simp [NodesEach, ih]

section Lays

variable {piece : String → Prop} {root : String} {key : List String} {path : List PathStep}
  {l t : Nat} {ls ls' : List Leaf} {ts ts' : List Value}

/-- A leaf lays itself. -/
theorem Lays.leaf {leaf : Leaf} (hroot : leaf.root = root) (hpath : leaf.path = path)
    (hpattern : leaf.pattern = String.intercalate "." key)
    (hvalue : Convert.value leaf.kind leaf.default = .ok leaf.defaultValue) :
    Lays piece root key path (.leaf l) l t [leaf] [] where
  ids := by simp [Node.leafIds]
  roots := by simpa using hroot
  values := by simpa using hvalue
  ways := by
    intro leaves templates _ _ i leaf' hi
    obtain ⟨rfl, rfl⟩ : i = 0 ∧ leaf = leaf' := by
      cases i with
      | zero => exact ⟨rfl, by simpa using hi⟩
      | succ i => simp at hi
    exact ⟨[], key, by simpa using hpath, hpattern, .leaf key l⟩
  shared := by
    have hspells : leaf.Spells piece key path [] [] :=
      ⟨by simpa using hpath, by rwa [List.append_nil], List.forall_mem_nil _⟩
    simpa using fun _ => ⟨[], [], [], [], hspells, hspells, trivial⟩

/-- A map lays what its values lay, with their template in front. -/
theorem Lays.entry {value : Node} {leaves₀ : List Leaf} (hleaves : HasAt leaves₀ l ls)
    (h : Lays piece root (key ++ [wildcard]) (path ++ [.key key.length t]) value l (t + 1) ls ts) :
    Lays piece root key path (.map value) l t ls (defaultOver leaves₀ value :: ts) where
  ids := by rw [Node.leafIds, h.ids]
  roots := h.roots
  values := h.values
  ways := by
    intro leaves templates hl ht i leaf hi
    obtain ⟨rest, full, hpath, hpattern, way⟩ := h.ways leaves templates hl ht.tail i leaf hi
    -- The template was computed when fewer leaves were there, but those of its node were.
    have hdefault : defaultOver leaves₀ value = defaultOver leaves value := by
      refine defaultOver_congr value fun id hid => ?_
      rw [h.ids] at hid
      exact hleaves.getElem?_eq hl hid
    refine ⟨.key key.length t :: rest, full, by simpa using hpath, hpattern, .entry ?_ way⟩
    rw [← hdefault]
    exact ht.head
  shared := by
    intro hnodup leaf hleaf leaf' hleaf'
    rw [Node.Each] at hnodup
    obtain ⟨rest, rest', more, more', hspells, hspells', hshares⟩ :=
      h.shared hnodup leaf hleaf leaf' hleaf'
    simp only [List.append_assoc, List.singleton_append] at hshares
    -- Both leaves have the key of the map itself in front of the wildcard.
    exact ⟨_, _, _, _, hspells.entry, hspells'.entry,
      by rw [List.take_left, List.take_left], hshares⟩

/-- An attribute lays what its node lays. -/
theorem Lays.field {typeName ident : String} {child : Node} {more : List String}
    (hpieces : ∀ p ∈ more, piece p)
    (h : Lays piece root (key ++ more) (path ++ [.field ident]) child l t ls ts) :
    Lays piece root key path (.group ⟨typeName, [(ident, child)]⟩) l t ls ts where
  ids := by simpa [Node.leafIds, GroupNode.leafIds, fieldLeafIds] using h.ids
  roots := h.roots
  values := h.values
  ways := by
    intro leaves templates hl ht i leaf hi
    obtain ⟨rest, full, hpath, hpattern, way⟩ := h.ways leaves templates hl ht i leaf hi
    exact ⟨.field ident :: rest, full, by simpa using hpath, hpattern,
      .field (List.mem_singleton.mpr rfl) hpieces way⟩
  shared := by
    intro hnodup leaf hleaf leaf' hleaf'
    rw [Node.Each, GroupNode.Each, NodesEach] at hnodup
    obtain ⟨rest, rest', more, more', hspells, hspells', hshares⟩ :=
      h.shared hnodup.2.1 leaf hleaf leaf' hleaf'
    simp only [List.append_assoc] at hshares
    exact ⟨_, _, _, _, hspells.field hpieces, hspells'.field hpieces, fun _ => hshares⟩

/-- A group without attributes lays nothing. -/
theorem Lays.nil {typeName : String} :
    Lays piece root key path (.group ⟨typeName, []⟩) l t [] [] where
  ids := by simp [Node.leafIds, GroupNode.leafIds, fieldLeafIds]
  roots := by simp
  values := by simp
  ways := by simp
  shared := by simp

/-- The path of a leaf that a group has laid begins with an attribute of the group. -/
theorem Lays.exists_field {g : GroupNode} (h : Lays piece root key path (.group g) l t ls ts)
    {leaf : Leaf} (hleaf : leaf ∈ ls) :
    ∃ ident rest more, leaf.Spells piece key path (.field ident :: rest) more ∧
      ident ∈ g.fields.map (·.1) := by
  obtain ⟨i, hi⟩ := List.mem_iff_getElem?.mp hleaf
  -- The ways are there in any tables, and so in those that hold nothing else of interest.
  have hl := hasAt_append (List.replicate l leaf) ls
  have ht := hasAt_append (List.replicate t Value.unset) ts
  rw [List.length_replicate] at hl ht
  obtain ⟨steps, more, hspells, way⟩ := (h.ways _ _ hl ht i leaf hi).exists_spells
  obtain ⟨ident, rest, rfl, hident⟩ := way.exists_field
  exact ⟨ident, rest, more, hspells, hident⟩

/-- A group lays what its first attributes lay, and then what the others lay. -/
theorem Lays.append {typeName : String} {as bs : List (String × Node)}
    (ha : Lays piece root key path (.group ⟨typeName, as⟩) l t ls ts)
    (hb : Lays piece root key path (.group ⟨typeName, bs⟩) (l + ls.length) (t + ts.length)
      ls' ts') :
    Lays piece root key path (.group ⟨typeName, as ++ bs⟩) l t (ls ++ ls') (ts ++ ts') where
  ids := by
    have hids := ha.ids
    have hids' := hb.ids
    simp only [Node.leafIds, GroupNode.leafIds] at hids hids' ⊢
    rw [fieldLeafIds_append, hids, hids', List.length_append, List.range'_append_1]
  roots := by
    intro leaf hleaf
    rcases List.mem_append.mp hleaf with hleaf | hleaf
    · exact ha.roots leaf hleaf
    · exact hb.roots leaf hleaf
  values := by
    intro leaf hleaf
    rcases List.mem_append.mp hleaf with hleaf | hleaf
    · exact ha.values leaf hleaf
    · exact hb.values leaf hleaf
  ways := by
    intro leaves templates hl ht i leaf hi
    by_cases hlt : i < ls.length
    · rw [List.getElem?_append_left hlt] at hi
      obtain ⟨rest, full, hpath, hpattern, way⟩ :=
        ha.ways leaves templates hl.left ht.left i leaf hi
      exact ⟨rest, full, hpath, hpattern, way.mono fun field hf => List.mem_append_left _ hf⟩
    · rw [List.getElem?_append_right (Nat.le_of_not_lt hlt)] at hi
      obtain ⟨rest, full, hpath, hpattern, way⟩ :=
        hb.ways leaves templates hl.right ht.right _ leaf hi
      have hindex : l + ls.length + (i - ls.length) = l + i := by omega
      rw [hindex] at way
      exact ⟨rest, full, hpath, hpattern, way.mono fun field hf => List.mem_append_right _ hf⟩
  shared := by
    intro hnodup
    rw [Node.Each, GroupNode.Each, List.map_append, List.nodup_append, nodesEach_iff,
      List.forall_mem_append, ← nodesEach_iff, ← nodesEach_iff] at hnodup
    obtain ⟨⟨hnodupA, hnodupB, hdisjoint⟩, heachA, heachB⟩ := hnodup
    have hapart : ∀ leaf ∈ ls, ∀ leaf' ∈ ls', leaf.SharesKeys piece key path leaf' ∧
        leaf'.SharesKeys piece key path leaf := by
      intro leaf hleaf leaf' hleaf'
      obtain ⟨ident, rest, more, hspells, hident⟩ := ha.exists_field hleaf
      obtain ⟨ident', rest', more', hspells', hident'⟩ := hb.exists_field hleaf'
      have hne := hdisjoint ident hident ident' hident'
      exact ⟨⟨_, _, _, _, hspells, hspells', fun heq => absurd heq hne⟩,
        ⟨_, _, _, _, hspells', hspells, fun heq => absurd heq.symm hne⟩⟩
    intro leaf hleaf leaf' hleaf'
    rcases List.mem_append.mp hleaf with hleaf | hleaf <;>
      rcases List.mem_append.mp hleaf' with hleaf' | hleaf'
    · exact ha.shared (by rw [Node.Each, GroupNode.Each]; exact ⟨hnodupA, heachA⟩) _ hleaf _ hleaf'
    · exact (hapart _ hleaf _ hleaf').1
    · exact (hapart _ hleaf' _ hleaf).2
    · exact hb.shared (by rw [Node.Each, GroupNode.Each]; exact ⟨hnodupB, heachB⟩) _ hleaf _ hleaf'

end Lays

end PropertyBinding

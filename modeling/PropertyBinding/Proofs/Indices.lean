import PropertyBinding.Frozen
import PropertyBinding.Proofs.Loading
import PropertyBinding.Proofs.Segments
import PropertyBinding.Proofs.Templates
import PropertyBinding.Proofs.Traversal

/-!
# Indices into the tables of a definition

After any registrations, refused ones included, every index of a leaf that the program looks up is
one of the table: those that the index of patterns finds, those in the trees, and those of frozen
cells (`Definition.LeafIdsInRange`).

Templates are another matter. A leaf that a refused declaration has left behind names templates that
have not been committed, and a root that is registered later under the same containing name may take
values along the leaf's path. What loads ask for is right exactly if the path of every leaf serves
the tree of the root with the leaf's root name (`registerAll_indices`). This is so if every
declaration has been accepted and none repeats an attribute (`Built.serves`), and it fails for
`refusedDecl` followed by `acceptedDecl`.
-/

namespace PropertyBinding

open Definition

/-! ### Indices of leaves -/

/-- A frozen config of a definition, whose cells have been resolved again any number of times. -/
inductive Frozen (d : Definition) : FrozenConfig → Prop where
  | freeze {c : RealizedConfig} (loaded : Loaded d c) : Frozen d (c.freeze d)
  | reResolve {f : FrozenConfig} (frozen : Frozen d f) (l : Loader) (source : Source) :
      Frozen d (l.reResolve source d f).1

/-- Whether all indices of leaves that are looked up are in range. -/
structure Definition.LeafIdsInRange (d : Definition) : Prop where
  matched : ∀ (name : Cursor) (id : Nat), d.index.matchName name = some id → id < d.leaves.length
  trees : ∀ root ∈ d.roots, ∀ id ∈ root.tree.leafIds, id < d.leaves.length
  cells : ∀ f, Frozen d f → ∀ cell ∈ f.cells, cell.2.leaf < d.leaves.length

/-- A leaf's cells have its index. -/
theorem Leaf.leaf_of_mem_cells {leaf : Leaf} {id : Nat} {c : RealizedConfig}
    {cell : String × RuntimeCell} (h : cell ∈ leaf.cells id c) : cell.2.leaf = id := by
  rw [Leaf.cells] at h
  split_ifs at h
  · split at h
    · obtain ⟨⟨keys, value⟩, -, rfl⟩ := List.mem_map.mp h
      rfl
    · cases h
  · cases h

/-- Freezing sorts the cells of all leaves. -/
theorem RealizedConfig.freeze_cells (c : RealizedConfig) (d : Definition) :
    ∃ made : Entries RuntimeCell, (c.freeze d).cells = Entries.sorted made ∧
      ∀ cell, cell ∈ made ↔ ∃ id leaf, d.leaf? id = some leaf ∧ cell ∈ leaf.cells id c := by
  refine ⟨_, rfl, fun cell => ?_⟩
  rw [List.mem_flatten]
  constructor
  · rintro ⟨cells, hcells, hcell⟩
    obtain ⟨⟨leaf, id⟩, hleaf, rfl⟩ := List.mem_map.mp hcells
    exact ⟨id, leaf, List.mk_mem_zipIdx_iff_getElem?.mp hleaf, hcell⟩
  · rintro ⟨id, leaf, hleaf, hcell⟩
    exact ⟨_, List.mem_map_of_mem (List.mk_mem_zipIdx_iff_getElem?.mpr hleaf), hcell⟩

/-- The cells of a frozen config belong to leaves of the table. -/
theorem RealizedConfig.leaf_lt_of_mem_freeze {d : Definition} {c : RealizedConfig}
    {cell : String × RuntimeCell} (h : cell ∈ (c.freeze d).cells) :
    cell.2.leaf < d.leaves.length := by
  obtain ⟨made, hfreeze, hmade⟩ := c.freeze_cells d
  rw [hfreeze] at h
  obtain ⟨id, leaf, hleaf, hcell⟩ := (hmade cell).mp (Entries.mem_sorted h)
  rw [Leaf.leaf_of_mem_cells hcell]
  exact (List.getElem?_eq_some_iff.mp hleaf).1

/-- Resolving cells again keeps their names and the leaves that they belong to. -/
theorem Loader.resolveCells_leaves (l : Loader) (source : Source) (d : Definition)
    (cells : Entries RuntimeCell) :
    (l.resolveCells source d cells).1.map (fun cell => (cell.1, cell.2.leaf)) =
      cells.map fun cell => (cell.1, cell.2.leaf) := by
  induction cells with
  | nil => rfl
  | cons first rest ih =>
    obtain ⟨name, cell⟩ := first
    rw [resolveCells]
    dsimp only
    cases d.leaf? cell.leaf with
    | none => rw [List.map_cons, List.map_cons, ih]
    | some leaf =>
      dsimp only
      cases leaf.valueOf (l.namespaceName ++ "." ++ name)
        ((source.value? (l.namespaceName ++ "." ++ name)).getD "") with
      | error e => rfl
      | ok value =>
        dsimp only
        split_ifs
        · rw [List.map_cons, List.map_cons, ih]
        · rw [List.map_cons, List.map_cons, ih]

/-- The cells of a frozen config belong to leaves of the table, however often they have been
resolved again. -/
theorem Frozen.leaf_lt {d : Definition} {f : FrozenConfig} (h : Frozen d f) :
    ∀ cell ∈ f.cells, cell.2.leaf < d.leaves.length := by
  induction h with
  | freeze _ => exact fun cell hcell => RealizedConfig.leaf_lt_of_mem_freeze hcell
  | @reResolve f _ l source ih =>
    intro cell hcell
    -- Only the names and the leaves of the cells count, and resolving keeps both.
    have hmem := List.mem_map_of_mem (f := fun cell => (cell.1, cell.2.leaf)) hcell
    change _ ∈ (l.resolveCells source d f.cells).1.map _ at hmem
    rw [Loader.resolveCells_leaves] at hmem
    obtain ⟨old, hold, heq⟩ := List.mem_map.mp hmem
    rw [← (Prod.mk.inj heq).2]
    exact ih old hold

/-- In a sound definition all indices of leaves are in range. -/
theorem Definition.Sound.leafIdsInRange {piece : String → Prop} {idents : List String → Prop}
    {d : Definition} (h : d.Sound piece idents) : d.LeafIdsInRange where
  matched := by
    intro name id hmatch
    obtain ⟨path, -, hfind⟩ := PatternMap.exists_covers_of_matchSegments h.tidy hmatch
    obtain ⟨leaf, hleaf, -⟩ := h.found path id hfind
    exact (List.getElem?_eq_some_iff.mp hleaf).1
  trees := by
    intro root hroot id hid
    obtain ⟨leaf, hleaf, -⟩ := (h.laid root hroot).exists_leaf hid
    exact (List.getElem?_eq_some_iff.mp hleaf).1
  cells := fun _ hf => hf.leaf_lt

/-! ### Templates -/

/-- Whether placing a value of the leaf in its realized root asks for a template, for the map at an
address. -/
def Leaf.Asks (d : Definition) (leaf : Leaf) (name : Cursor) (root : Group)
    (address : List SlotStep) (asked : Nat) : Prop :=
  PropertyBinding.Asks d.template? (fun segment => name.segment? (name.position + segment))
    (.group root) leaf.path address asked

/-- Placing a value ends without a result exactly if it asks for a template that does not exist. -/
theorem Leaf.place_eq_error_iff {d : Definition} {leaf : Leaf} {name : Cursor} {root : Group}
    {value : Value} {e : BindError} :
    leaf.place d name value root = .error e ↔
      ∃ address asked, leaf.Asks d name root address asked ∧ d.template? asked = none ∧
        e = .missingTemplate asked := by
  cases hpath : leaf.path with
  | nil =>
    rw [Leaf.place]
    simp only [Leaf.Asks, hpath]
    constructor
    · intro h
      cases h
    · rintro ⟨_, _, hasks, -⟩
      cases hasks
  | cons step rest =>
    cases step with
    | field ident =>
      rw [← map_eq_error_iff, Leaf.place_eq hpath, Value.write_eq_error_iff]
      rfl
    | key segment entry =>
      rw [Leaf.place]
      simp only [Leaf.Asks, hpath]
      constructor
      · intro h
        cases h
      · rintro ⟨_, _, hasks, -⟩
        cases hasks

/-- Whether every template that a load asks for exists and is the default of the values of the map
that it is for. What holds in the middle of a load is covered: it is the end of a load of fewer
names. -/
def Definition.TemplatesRight (d : Definition) : Prop :=
  ∀ (c : RealizedConfig) (l : Loader) (name : String) (id : Nat) (leaf : Leaf) (g : Group),
    Loaded d c → (Cursor.ofName name).peek? = some l.namespaceName →
    d.matchLeaf (Cursor.ofName name).next.2 = some (id, leaf) → c.get? leaf.root = some g →
    ∀ address asked, leaf.Asks d (Cursor.ofName name).next.2 g address asked →
      asked < d.templates.length ∧ ∃ root ∈ d.roots, root.containingName = leaf.root ∧
        ∃ value, (Node.group root.tree).at? address = some (.map value) ∧
          d.template? asked = some (d.defaultValue value)

/-- Whether the path of every leaf serves the tree of the root with the leaf's root name. The leaf
need not be one of the tree. -/
def Definition.Serves (d : Definition) : Prop :=
  ∀ leaf ∈ d.leaves, ∀ root ∈ d.roots, root.containingName = leaf.root →
    (Node.group root.tree).Serves d.leaves d.templates (Name.segments leaf.pattern).length leaf.path

/-- If what loads ask for is right, no load ends for want of a template. -/
theorem Definition.TemplatesRight.load_ne {d : Definition} (h : d.TemplatesRight)
    {c : RealizedConfig} (hc : Loaded d c) (l : Loader) (source : Source) (asked : Nat) :
    (l.load source [⟨d, c⟩]).2 ≠ .error (.missingTemplate asked) := by
  have hrun : ∀ (names : List String) (c : RealizedConfig) (report : LoadReport), Loaded d c →
      (l.loadNames source [⟨d, c⟩] report names).2 ≠ .error (.missingTemplate asked) := by
    intro names
    induction names with
    | nil => exact fun _ _ _ hend => nomatch hend
    | cons name rest ih =>
      intro c report hc
      rw [Loader.loadNames]
      cases hname : l.loadName source [⟨d, c⟩] report name with
      | error e =>
        intro hend
        obtain rfl := Except.error.inj hend
        obtain ⟨hpeek, target, htarget, id, leaf, hmatch, happly⟩ := Loader.loadName_error hname
        obtain rfl := List.mem_singleton.mp htarget
        rcases Loader.applyTo_cases d c leaf (Cursor.ofName name).next.2
          ((source.value? name).getD "") with
          ⟨-, heq⟩ | ⟨reason, heq⟩ | ⟨g, value, hget, -, ⟨e, hplace, heq⟩ | ⟨_, _, -, heq⟩⟩
        · cases happly.symm.trans heq
        · cases happly.symm.trans heq
        · obtain ⟨address, asked', hasks, hnone, -⟩ := Leaf.place_eq_error_iff.mp hplace
          have hlt := (h c l name id leaf g hc hpeek hmatch hget address asked' hasks).1
          exact absurd hnone (by simpa [template?] using hlt)
        · cases happly.symm.trans heq
      | ok r =>
        obtain ⟨targets', report'⟩ := r
        have htrivial : PlacePreserves d fun _ _ => True :=
          fun _ _ _ _ _ _ _ _ _ _ _ _ _ _ _ => trivial
        cases (LoadTarget.Keeps.keptByLoads htrivial).loadName hname with
        | @cons _ t' _ _ hkeeps hnil =>
          cases hnil
          -- The rest is loaded into a config that is loaded as well, so the induction goes on.
          obtain ⟨d', c'⟩ := t'
          obtain rfl : d' = d := hkeeps.1
          exact ih c' report' (hc.loadName (i := 0) hname rfl rfl)
  exact hrun source.names c {} hc

section Templates

variable {piece : String → Prop} {idents : List String → Prop} {d : Definition}

/-- A name has the segment that a key step names exactly if the pattern of its leaf has it. -/
theorem Definition.Sound.segment?_isSome_iff (h : d.Sound piece idents) {name : Cursor} {id : Nat}
    {leaf : Leaf} (hmatch : d.matchLeaf name = some (id, leaf)) (segment : Nat) :
    (∃ k, name.segment? (name.position + segment) = some k) ↔
      segment < (Name.segments leaf.pattern).length := by
  rw [← Cursor.remaining_getElem?, h.length_segments hmatch]
  constructor
  · rintro ⟨k, hk⟩
    exact (List.getElem?_eq_some_iff.mp hk).1
  · exact fun hlt => ⟨_, List.getElem?_eq_getElem hlt⟩

/-- If the paths of all leaves serve, no group or map of a loaded config is out of place. -/
theorem Loaded.follows (h : d.Sound piece idents) (hserves : d.Serves) {c : RealizedConfig}
    (hc : Loaded d c) : c.Holds d fun root g => Follows (.group root.tree) (.group g) := by
  refine hc.holds h (fun root _ => ?_) ?_
  · have hdefault := follows_defaultOver h.scalar (.group root.tree)
    rwa [defaultOver] at hdefault
  · intro root hroot name id leaf raw value g g' written hmatch hname hvalue hfollows hplace
    have hleaf := (matchLeaf_eq_some hmatch).2
    have hkey : ∀ segment k, name.segment? (name.position + segment) = some k →
        segment < (Name.segments leaf.pattern).length :=
      fun segment k hk => (h.segment?_isSome_iff hmatch segment).mp ⟨k, hk⟩
    have hpath := hserves leaf (List.mem_of_getElem? hleaf) root hroot hname.symm
    have hscalar : value.IsScalar :=
      Leaf.valueOf_isScalar (h.scalar leaf (List.mem_of_getElem? hleaf)) hvalue
    rcases Leaf.place_ok hplace with rfl | hwrite
    · exact hfollows
    · exact Value.write_follows h.scalar hkey hscalar hpath hfollows hwrite

/-- In a sound definition, what loads ask for is right if the paths of all leaves serve. -/
theorem Definition.Serves.templatesRight (h : d.Sound piece idents) (hserves : d.Serves) :
    d.TemplatesRight := by
  intro c l name id leaf g hc _ hmatch hget address asked hasks
  obtain ⟨root, hroot, hname, hfollows⟩ := hc.follows h hserves _ g hget
  have hleaf := (matchLeaf_eq_some hmatch).2
  obtain ⟨value, hat, htemplate⟩ := Asks.template_eq h.scalar
    (fun segment k hk => (h.segment?_isSome_iff hmatch segment).mp ⟨k, hk⟩)
    (hserves leaf (List.mem_of_getElem? hleaf) root hroot hname) hfollows hasks
  exact ⟨(List.getElem?_eq_some_iff.mp htemplate).1, root, hroot, hname, value, hat, htemplate⟩

/-- Behind the namespace, the pattern of a leaf is a name of the leaf. -/
theorem Definition.Sound.matchLeaf_pattern (h : d.Sound piece idents) {id : Nat} {leaf : Leaf}
    (hleaf : d.leaves[id]? = some leaf) {namespaceName : String} (hns : Name.Bare namespaceName) :
    (Cursor.ofName (namespaceName ++ "." ++ leaf.pattern)).peek? = some namespaceName ∧
      d.matchLeaf (Cursor.ofName (namespaceName ++ "." ++ leaf.pattern)).next.2 =
        some (id, leaf) := by
  have hsegments := hns.segments_append leaf.pattern
  have hpeek : (Cursor.ofName (namespaceName ++ "." ++ leaf.pattern)).peek? =
      some namespaceName := by
    rw [Cursor.peek?, Cursor.segment?, Cursor.ofName]
    dsimp only
    rw [hsegments, List.getElem?_cons_zero]
  refine ⟨hpeek, ?_⟩
  have hmatch : d.index.matchName ⟨namespaceName ++ "." ++ leaf.pattern, 1⟩ = some id := by
    rw [PatternMap.matchName, Cursor.remaining_append hns]
    exact PatternMap.matchSegments_self h.tidy (h.bound id leaf hleaf)
  rw [Cursor.next_ofName hpeek, matchLeaf, hmatch]
  change (d.leaf? id >>= fun leaf => pure (id, leaf)) = _
  rw [leaf?, hleaf]
  rfl

/-- In a sound definition, what loads ask for is right only if the paths of all leaves serve:
otherwise the pattern of a leaf is the name of a property that asks for a wrong template as soon as
it is loaded. -/
theorem Definition.TemplatesRight.serves (h : d.Sound piece idents) (hright : d.TemplatesRight) :
    d.Serves := by
  intro leaf hleaf root hroot hname
  by_contra hnot
  obtain ⟨id, hid⟩ := List.mem_iff_getElem?.mp hleaf
  have happ : Name.Bare "app" := ⟨by decide, by decide, by decide⟩
  obtain ⟨hpeek, hmatch⟩ := h.matchLeaf_pattern hid happ
  -- The pattern has a segment for every key step that counts, its wildcards included.
  obtain ⟨address, asked, hasks, hwrong⟩ := exists_asks_of_not_serves
    (fun segment hlt => (h.segment?_isSome_iff hmatch segment).mpr hlt) hnot
  have hget : (d.realize .build).get? root.containingName = some (d.defaultGroup root.tree) :=
    realize_get?_eq h.names hroot rfl
  rw [hname] at hget
  rw [defaultOver] at hasks
  obtain ⟨-, other, hother, hname', value, hat, htemplate⟩ :=
    hright _ (Loader.ofNamespace "app") _ id leaf _ (.walked .build) hpeek hmatch hget address asked
      hasks
  obtain rfl : other = root :=
    List.inj_on_of_nodup_map h.names hother hroot (hname'.trans hname.symm)
  exact hwrong ⟨value, hat, htemplate⟩

/-- If all declarations have been accepted and none repeats an attribute, the paths of all leaves
serve. -/
theorem Built.serves (h : Built (RootDecl.Each piece List.Nodup) d) : d.Serves := by
  intro leaf hleaf root hroot hname
  obtain ⟨id, hid⟩ := List.mem_iff_getElem?.mp hleaf
  obtain ⟨other, hother, hmem⟩ := h.owned (List.getElem?_eq_some_iff.mp hid).1
  have hlaid := h.sound.laid other hother
  obtain ⟨leaf', hleaf', hname', steps, full, hpath, -, way⟩ := hlaid.exists_leaf hmem
  obtain rfl := Option.some.inj (hid.symm.trans hleaf')
  obtain rfl : other = root :=
    List.inj_on_of_nodup_map h.sound.names hother hroot (hname'.symm.trans hname.symm)
  rw [hpath]
  exact way.serves hlaid.idents _

end Templates

/-- **Indices after any registrations.** All indices of leaves that are looked up are in range. The
templates that loads ask for exist and belong to their maps exactly if the path of every leaf serves
the tree of the root with the leaf's root name, and then no load ends for want of a template. -/
theorem registerAll_indices (decls : List RootDecl) :
    (registerAll decls).LeafIdsInRange ∧
      ((registerAll decls).TemplatesRight ↔ (registerAll decls).Serves) ∧
      ((registerAll decls).Serves → ∀ (c : RealizedConfig) (l : Loader) (source : Source)
        (asked : Nat), Loaded (registerAll decls) c →
          (l.load source [⟨registerAll decls, c⟩]).2 ≠ .error (.missingTemplate asked)) := by
  have hsound := registerAll_sound decls
  refine ⟨hsound.leafIdsInRange, ⟨fun hright => hright.serves hsound, fun hserves =>
    hserves.templatesRight hsound⟩, fun hserves c l source asked hc => ?_⟩
  exact (hserves.templatesRight hsound).load_ne hc l source asked

/-! ### Leaves that a refused declaration has left behind -/

/-- A declaration with three maps that clashes with itself: the leaves of the maps stay. -/
def refusedDecl : RootDecl where
  group := ⟨"AConfig", false,
    [⟨"p", .hyphenated, none, .map (some .string) (some (.object .string)), false, none⟩,
      ⟨"m", .hyphenated, none, .map (some .string) (some (.group ⟨"G", true,
        [⟨"v", .hyphenated, none, .object .string, false, none⟩]⟩)), false, none⟩,
      ⟨"q", .hyphenated, none, .map (some .string) (some (.object .string)), false, none⟩,
      ⟨"x", .hyphenated, none, .object .string, false, none⟩,
      ⟨"y", .explicit "x.", none, .object .string, false, none⟩]⟩
  name := .hyphenated
  phase := .runTime

/-- A declaration of a root with the same name and two of the maps, under other keys. -/
def acceptedDecl : RootDecl where
  group := ⟨"AConfig", false,
    [⟨"m", .explicit "n", none, .map (some .string) (some (.group ⟨"H", true,
        [⟨"w", .hyphenated, none, .object .string, false, none⟩]⟩)), false, none⟩,
      ⟨"q", .explicit "s", none, .map (some .string) (some (.group ⟨"K", true,
        [⟨"v", .hyphenated, none, .object .string, false, none⟩]⟩)), false, none⟩]⟩
  name := .hyphenated
  phase := .runTime

/-- **Templates can be wrong or missing.** After the refused declaration and the accepted one, an
entry of type `K` is made in the map `m`, whose entries are of type `H`, and a load ends because it
asks for a third template where there are two. -/
theorem refusedDecl_templates_wrong :
    let d := registerAll [refusedDecl, acceptedDecl]
    let loadOne := fun name =>
      (Loader.ofNamespace "app").load (Properties.ofPairs [(name, "1")]).toSource
        [⟨d, d.realize .build⟩]
    ¬d.TemplatesRight ∧ d.templates.length = 2 ∧
      (loadOne "app.a.q.k").2 = .error (.missingTemplate 2) ∧
      ((loadOne "app.a.m.k.v").1.map fun target =>
        (((target.config.get? "a").bind fun g =>
          (Value.group g).at? [.field "m", .entry "k"]).bind Value.asGroup?).map (·.typeName)) =
        [some "K"] ∧
      (d.roots.map fun root => ((Node.group root.tree).at? [.field "m", .entry "k"]).map fun node =>
        ((d.defaultValue node).asGroup?).map (·.typeName)) = [some (some "H")] := by
  intro d loadOne
  have hmissing : (loadOne "app.a.q.k").2 = .error (.missingTemplate 2) := by decide +kernel
  refine ⟨fun hright => ?_, by decide +kernel, hmissing, by decide +kernel, by decide +kernel⟩
  exact hright.load_ne (.walked .build) _ _ 2 hmissing

end PropertyBinding

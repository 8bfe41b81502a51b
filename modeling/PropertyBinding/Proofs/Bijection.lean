import PropertyBinding.Proofs.Loading
import PropertyBinding.Proofs.Traversal

/-!
# The index and the table of leaves

Registering keeps the index of patterns orderly and the external names of the roots distinct, also
if a declaration is refused halfway. With this, a sound definition is indexed
(`Definition.Indexed`): its index and its table of leaves are in bijection, no node of the index is
dead, a traversal of the index counts the table, and a type name stands for one root, in the
definition and in every config that has been realized and loaded for it.
-/

namespace PropertyBinding

open Definition

variable {piece : String → Prop} {idents : List String → Prop} {d : Definition}

/-! ### Orderly indices -/

/-- Committing leaves keeps the index orderly. -/
theorem commitLeaves_orderly (ls : List Leaf) {d : Definition} (h : d.index.Orderly) :
    (commitLeaves ls d).1.index.Orderly := by
  induction ls generalizing d with
  | nil => exact h
  | cons leaf rest ih =>
    rw [commitLeaves]
    rcases d.index.insert_eq leaf.pattern d.leaves.length with
      ⟨index, hinsert, hindex, -⟩ | ⟨hinsert, -⟩
    · rw [hinsert]
      exact ih (h.insertAt hindex)
    · rw [hinsert]
      exact h

/-- Registering keeps the index orderly, also if the declaration is refused. -/
theorem registerRoot_orderly (h : d.index.Orderly) (decl : RootDecl) :
    (d.registerRoot decl).1.index.Orderly := by
  rw [registerRoot]
  cases d.draftRoot decl with
  | error e => exact h
  | ok x =>
    obtain ⟨root, draft⟩ := x
    have hcommit := commitLeaves_orderly draft.leaves h
    dsimp only
    split
    all_goals
      rename_i heq
      rw [heq] at hcommit
      exact hcommit

/-! ### Names of roots -/

/-- Whether the containing names of the roots are those of their types, and their external names
are distinct. -/
structure Definition.Named (d : Definition) : Prop where
  containingName : ∀ root ∈ d.roots, root.containingName = Naming.containingName root.typeName
  rootNames : (d.roots.map (·.rootName)).Nodup

theorem Definition.named_empty : Definition.empty.Named where
  containingName := by simp [Definition.empty]
  rootNames := List.nodup_nil

/-- Registering keeps the names of roots in order. -/
theorem Definition.Named.registerRoot (h : d.Named) (decl : RootDecl) :
    (d.registerRoot decl).1.Named := by
  rcases registerRoot_cases d decl decl.group.each_true with
    ⟨e, hresult, -, -⟩ | ⟨root, draft, -, hroot, hcommit⟩
  · rw [hresult]
    exact h
  rcases hcommit with ⟨before, leaf, after, d', -, hresult, hd', -, -⟩ | ⟨d', hresult, hd', -⟩
  · rw [hresult]
    exact ⟨hd'.roots.symm ▸ h.containingName, hd'.roots.symm ▸ h.rootNames⟩
  rw [hresult]
  dsimp only
  rw [hd'.roots]
  constructor
  · intro other hother
    rcases List.mem_append.mp hother with hother | hother
    · exact h.containingName other hother
    · obtain rfl := List.mem_singleton.mp hother
      rw [hroot.containingName, hroot.typeName]
      rfl
  · rw [List.map_append, List.nodup_append]
    refine ⟨h.rootNames, List.nodup_singleton _, fun name hname other hother => ?_⟩
    obtain ⟨earlier, hearlier, rfl⟩ := List.mem_map.mp hname
    obtain rfl : other = root.rootName := by simpa using hother
    exact hroot.passes.1.newExternalName earlier hearlier

/-- Roots of one type would have one containing name, so their types are distinct. -/
theorem Definition.Sound.typeNames (h : d.Sound piece idents) (hnamed : d.Named) :
    (d.roots.map (·.typeName)).Nodup := by
  have hnames : d.roots.map (·.containingName) =
      (d.roots.map (·.typeName)).map Naming.containingName := by
    rw [List.map_map]
    exact List.map_congr_left hnamed.containingName
  have hnodup := h.names
  rw [hnames] at hnodup
  exact List.Nodup.of_map _ hnodup

/-! ### Realized roots by type -/

/-- Whether a config knows the types of the realized roots of a definition, and no others. -/
def RealizedConfig.KnowsTypes (d : Definition) (c : RealizedConfig) : Prop :=
  ∀ typeName name, c.byType.lookup typeName = some name ↔
    ∃ root ∈ d.roots, root.typeName = typeName ∧ root.containingName = name ∧
      (c.get? name).isSome

/-- Storing a root of the definition. -/
theorem RealizedConfig.KnowsTypes.store {c : RealizedConfig} (h : c.KnowsTypes d)
    (hnames : (d.roots.map (·.containingName)).Nodup) (htypes : (d.roots.map (·.typeName)).Nodup)
    {root : Root} (hroot : root ∈ d.roots) (g : Group) : (c.store root g).KnowsTypes d := by
  intro typeName name
  have hself : (c.store root g).get? root.containingName = some g :=
    Entries.lookup_put_self _ _ _
  by_cases htype : typeName = root.typeName
  · subst htype
    have hlookup : (c.store root g).byType.lookup root.typeName = some root.containingName :=
      Entries.lookup_put_self _ _ _
    rw [hlookup]
    constructor
    · intro hname
      obtain rfl := Option.some.inj hname
      exact ⟨root, hroot, rfl, rfl, by rw [hself]; rfl⟩
    · rintro ⟨other, hother, htype, rfl, -⟩
      rw [List.inj_on_of_nodup_map htypes hother hroot htype]
  · have hlookup : (c.store root g).byType.lookup typeName = c.byType.lookup typeName :=
      Entries.lookup_put_of_ne htype _ _
    rw [hlookup, h typeName name]
    refine exists_congr fun other => and_congr_right fun hother => and_congr_right fun hotype =>
      and_congr_right fun honame => ?_
    -- A root of another type has another containing name, so its group has not been touched.
    have hne : name ≠ root.containingName := by
      rintro rfl
      obtain rfl := List.inj_on_of_nodup_map hnames hother hroot honame
      exact htype hotype.symm
    have hget : (c.store root g).get? name = c.get? name := Entries.lookup_put_of_ne hne _ _
    rw [hget]

/-- Walking the trees makes the types of the realized roots known. -/
theorem Definition.knowsTypes_realize (hnames : (d.roots.map (·.containingName)).Nodup)
    (htypes : (d.roots.map (·.typeName)).Nodup) (stage : Stage) :
    (d.realize stage).KnowsTypes d := by
  have hempty : RealizedConfig.empty.KnowsTypes d := fun typeName name => by
    simp [RealizedConfig.empty, RealizedConfig.get?]
  exact List.foldlRecOn _ _ hempty fun c hc root hroot =>
    hc.store hnames htypes (List.mem_filter.mp hroot).1 _

/-- Whether a target of a load keeps its definition, the types that its config knows, and which
roots are realized. -/
def LoadTarget.KeepsRoots (t t' : LoadTarget) : Prop :=
  t'.definition = t.definition ∧ t'.config.byType = t.config.byType ∧
    ∀ name, (t'.config.get? name).isSome = (t.config.get? name).isSome

/-- Loads keep the realized roots: values are placed within them. -/
theorem LoadTarget.keepsRoots_keptByLoads : LoadTarget.KeptByLoads LoadTarget.KeepsRoots where
  refl := fun _ => ⟨rfl, rfl, fun _ => rfl⟩
  trans := fun _ _ _ h h' =>
    ⟨h'.1.trans h.1, h'.2.1.trans h.2.1, fun name => (h'.2.2 name).trans (h.2.2 name)⟩
  applyTo := by
    rintro ⟨d, c⟩ t' id leaf name raw outcome - h
    rcases Loader.applyTo_cases d c leaf name raw with
      ⟨-, heq⟩ | ⟨reason, heq⟩ | ⟨g, value, hget, -, ⟨e, -, heq⟩ | ⟨g', written, -, heq⟩⟩
    · obtain ⟨rfl, -⟩ := Prod.mk.inj (Except.ok.inj (heq.symm.trans h))
      exact ⟨rfl, rfl, fun _ => rfl⟩
    · cases heq.symm.trans h
    · cases heq.symm.trans h
    obtain ⟨rfl, -⟩ := Prod.mk.inj (Except.ok.inj (heq.symm.trans h))
    have hkeep : ∀ other, (List.lookup other (Entries.put leaf.root g' c.roots)).isSome =
        (c.get? other).isSome := by
      intro other
      by_cases hother : other = leaf.root
      · rw [hother, Entries.lookup_put_self, hget]
        rfl
      · rw [Entries.lookup_put_of_ne hother, RealizedConfig.get?]
    cases written <;> exact ⟨rfl, rfl, hkeep⟩

/-- A loaded config knows the types of its realized roots, and no others. -/
theorem Loaded.knowsTypes (hd : d.Sound piece idents) (hnamed : d.Named) {c : RealizedConfig}
    (h : Loaded d c) : c.KnowsTypes d := by
  have hwalked := knowsTypes_realize hd.names (hd.typeNames hnamed)
  induction h with
  | walked stage => exact hwalked stage
  | @replayed stage hash c realized =>
    rw [hd.realize_of_compile realized]
    exact hwalked stage
  | @load c c' l source targets i loaded before after ih =>
    obtain ⟨-, htypes, hroots⟩ := LoadTarget.keepsRoots_keptByLoads.load before after
    dsimp only at htypes hroots
    intro typeName name
    rw [htypes, hroots]
    exact ih typeName name

/-- A type name leads to the realized root of this type. -/
theorem RealizedConfig.KnowsTypes.instanceOf_iff {c : RealizedConfig} (h : c.KnowsTypes d)
    {typeName : String} {g : Group} :
    c.instanceOf typeName = .ok g ↔
      ∃ root ∈ d.roots, root.typeName = typeName ∧ c.get? root.containingName = some g := by
  have hlookup : c.instanceOf typeName = .ok g ↔
      (c.byType.lookup typeName).bind c.get? = some g := by
    rw [instanceOf]
    cases (c.byType.lookup typeName).bind c.get? <;> simp
  rw [hlookup, Option.bind_eq_some_iff]
  constructor
  · rintro ⟨name, hname, hget⟩
    obtain ⟨root, hroot, htype, rfl, -⟩ := (h typeName name).mp hname
    exact ⟨root, hroot, htype, hget⟩
  · rintro ⟨root, hroot, htype, hget⟩
    exact ⟨_, (h _ _).mpr ⟨root, hroot, htype, rfl, by rw [hget]; rfl⟩, hget⟩

/-! ### Indexed definitions -/

/-- Whether index and leaves are in bijection, and names identify roots. -/
structure Definition.Indexed (d : Definition) : Prop where
  /-- At a path stands the index of the leaf whose pattern has these segments, if there is one. -/
  find?_iff : ∀ path id, d.index.find? path = some id ↔
    ∃ leaf, d.leaves[id]? = some leaf ∧ Name.segments leaf.pattern = path
  /-- A traversal meets every index of the table once. -/
  visits : (d.index.entries.map (·.2)).Perm (List.range d.leaves.length)
  orderly : d.index.Orderly
  /-- Every node but the top one lies on the path of a leaf. -/
  alive : ∀ path node, path ≠ [] → d.index.node? path = some node →
    ∃ rest id, d.index.find? (path ++ rest) = some id
  /-- The child names of a node lead to its children, each once. -/
  children : ∀ path node, d.index.node? path = some node →
    node.childNames.Nodup ∧ ∀ segment, segment ∈ node.childNames ↔ (node.child? segment).isSome
  preload : d.preloadDefaults = .ok d.leaves.length
  containingNames : (d.roots.map (·.containingName)).Nodup
  rootNames : (d.roots.map (·.rootName)).Nodup
  typeNames : (d.roots.map (·.typeName)).Nodup
  rootByType : ∀ typeName root,
    d.rootByType? typeName = some root ↔ root ∈ d.roots ∧ root.typeName = typeName
  instanceOf : ∀ c, Loaded d c → ∀ typeName g, c.instanceOf typeName = .ok g ↔
    ∃ root ∈ d.roots, root.typeName = typeName ∧ c.get? root.containingName = some g

section Sound

/-- At a path stands the index of the leaf whose pattern has these segments. -/
theorem Definition.Sound.find?_iff (h : d.Sound piece idents) {path : List String} {id : Nat} :
    d.index.find? path = some id ↔
      ∃ leaf, d.leaves[id]? = some leaf ∧ Name.segments leaf.pattern = path := by
  refine ⟨h.found path id, ?_⟩
  rintro ⟨leaf, hleaf, rfl⟩
  exact h.bound id leaf hleaf

/-- A traversal of an orderly index meets every index of the table once. -/
theorem Definition.Sound.visits (h : d.Sound piece idents) (horderly : d.index.Orderly) :
    (d.index.entries.map (·.2)).Perm (List.range d.leaves.length) := by
  have hids : d.index.entries.map (·.2) = d.index.bindings.map (·.2) := by
    rw [PatternMap.entries, PatternMap.entriesFrom_eq, List.map_map]
    rfl
  have hmem : ∀ {path id}, (path, id) ∈ d.index.bindings ↔
      ∃ leaf, d.leaves[id]? = some leaf ∧ Name.segments leaf.pattern = path :=
    horderly.mem_bindings_iff.trans h.find?_iff
  -- One index has one leaf and so one path, and each path is visited once.
  have hnodup : (d.index.bindings.map (·.2)).Nodup := by
    refine List.Nodup.map_on (fun x hx y hy heq => ?_) horderly.nodup_paths.of_map
    obtain ⟨path, id⟩ := x
    obtain ⟨path', id'⟩ := y
    obtain rfl : id = id' := heq
    obtain ⟨leaf, hleaf, rfl⟩ := hmem.mp hx
    obtain ⟨leaf', hleaf', rfl⟩ := hmem.mp hy
    rw [Option.some.inj (hleaf.symm.trans hleaf')]
  rw [hids, List.perm_ext_iff_of_nodup hnodup List.nodup_range]
  intro id
  rw [List.mem_range]
  constructor
  · intro hid
    obtain ⟨⟨path, id⟩, hbinding, rfl⟩ := List.mem_map.mp hid
    obtain ⟨leaf, hleaf, -⟩ := hmem.mp hbinding
    exact (List.getElem?_eq_some_iff.mp hleaf).1
  · intro hlt
    have hbinding := hmem.mpr ⟨d.leaves[id], List.getElem?_eq_getElem hlt, rfl⟩
    exact List.mem_map_of_mem hbinding

/-- A step that counts every item counts them all. -/
private theorem foldlM_count {α ε : Type} {count : Nat → α → Except ε Nat} {items : List α}
    (h : ∀ item ∈ items, ∀ n, count n item = .ok (n + 1)) (n : Nat) :
    items.foldlM count n = .ok (n + items.length) := by
  induction items generalizing n with
  | nil => rfl
  | cons item rest ih =>
    obtain ⟨hitem, hrest⟩ := List.forall_mem_cons.mp h
    rw [List.foldlM_cons, hitem]
    refine (ih hrest (n + 1)).trans ?_
    rw [List.length_cons, Nat.add_right_comm, Nat.add_assoc]

/-- Reading the defaults of all leaves again counts the table. -/
theorem Definition.Sound.preloadDefaults_eq (h : d.Sound piece idents)
    (horderly : d.index.Orderly) : d.preloadDefaults = .ok d.leaves.length := by
  have hvisits := h.visits horderly
  have hlength := hvisits.length_eq
  rw [List.length_map, List.length_range] at hlength
  rw [preloadDefaults, foldlM_count fun entry hentry n => ?_, Nat.zero_add, hlength]
  -- Every visited index is one of the table, where the default has been read before.
  obtain ⟨pattern, id⟩ := entry
  have hlt : id < d.leaves.length :=
    List.mem_range.mp (hvisits.mem_iff.mp (List.mem_map_of_mem hentry))
  have hleaf : d.leaf? id = some d.leaves[id] := List.getElem?_eq_getElem hlt
  dsimp only
  rw [hleaf]
  dsimp only
  rw [h.values d.leaves[id] (List.getElem_mem hlt)]

/-- The root with a type name. -/
theorem Definition.rootByType?_iff (htypes : (d.roots.map (·.typeName)).Nodup)
    {typeName : String} {root : Root} :
    d.rootByType? typeName = some root ↔ root ∈ d.roots ∧ root.typeName = typeName := by
  constructor
  · intro hfind
    exact ⟨List.mem_of_find?_eq_some hfind, by simpa using List.find?_some hfind⟩
  · rintro ⟨hroot, rfl⟩
    obtain ⟨other, hother⟩ : ∃ other, d.rootByType? root.typeName = some other :=
      Option.isSome_iff_exists.mp (List.find?_isSome.mpr ⟨root, hroot, decide_eq_true rfl⟩)
    have htype : other.typeName = root.typeName := by simpa using List.find?_some hother
    rw [hother, List.inj_on_of_nodup_map htypes (List.mem_of_find?_eq_some hother) hroot htype]

end Sound

/-- **The index and the table of leaves are in bijection**, and names identify roots, after any
registrations, refused ones included. -/
theorem registerAll_indexed (decls : List RootDecl) : (registerAll decls).Indexed := by
  have hsound := registerAll_sound decls
  have horderly : (registerAll decls).index.Orderly :=
    registerAll_holds (P := fun d => d.index.Orderly) PatternMap.orderly_empty
      (fun _ decl h => registerRoot_orderly h decl) decls
  have hnamed := registerAll_holds named_empty (fun _ decl h => h.registerRoot decl) decls
  have htypes := hsound.typeNames hnamed
  exact
    { find?_iff := fun _ _ => hsound.find?_iff
      visits := hsound.visits horderly
      orderly := horderly
      alive := fun _ _ hne hnode => horderly.exists_find? hnode hne
      children := fun _ _ hnode =>
        have hchild := horderly.of_node? hnode
        ⟨hchild.childNames_nodup, fun _ => hchild.mem_childNames_iff⟩
      preload := hsound.preloadDefaults_eq horderly
      containingNames := hsound.names
      rootNames := hnamed.rootNames
      typeNames := htypes
      rootByType := fun _ _ => rootByType?_iff htypes
      instanceOf := fun _ hloaded _ _ => (hloaded.knowsTypes hsound hnamed).instanceOf_iff }

end PropertyBinding

import PropertyBinding.Proofs.ForeignPlan
import PropertyBinding.Proofs.Resolving

/-!
# Names that reach slots

A name that a loader finds a slot for, in the first target with a leaf for it, gives the slot its
value, whatever the other names of the source (`Loaded.loadName_of_finds`). In other definitions,
too, a name that has been applied has done so (`Loaded.slot?_of_applied`). A slot that no map
stands in front of is there from the beginning, and holds the default of its leaf until a name gives
it another value (`Built.realize_slot?`).

What filling keeps for all values within a config, loads keep (`Loaded.everywhere`). And in every
loaded config, each leaf slot holds a value that some text gives its leaf (`Loaded.given`).
-/

namespace PropertyBinding

open Definition

section Reaching

variable {piece : String → Prop} {d : Definition} {c : RealizedConfig} {leaf : Leaf}
  {keys : List String} {l : Loader} {before after : List LoadTarget} {name : String}

/-- Whether a name is one for the slot that a leaf of a target has under map keys: no target before
has a leaf for it, and the root of the leaf is realized. -/
structure Loader.Finds (l : Loader) (before : List LoadTarget) (d : Definition)
    (c : RealizedConfig) (leaf : Leaf) (keys : List String) (name : String) : Prop where
  reaches : ∃ id, d.leaf? id = some leaf ∧ l.Reaches d id keys name
  first : ∀ t ∈ before, t.definition.matchLeaf (Cursor.ofName name).next.2 = none
  realized : (c.get? leaf.root).isSome

/-- **A name that finds a slot gives it the value** that its raw text has for the leaf. -/
theorem Loaded.loadName_of_finds (hc : Loaded d c) (h : Built (RootDecl.Each piece List.Nodup) d)
    (hfinds : l.Finds before d c leaf keys name) {source : Source} {value : Value}
    (hvalue : leaf.Gives ((source.value? name).getD "") value) (report : LoadReport) :
    ∃ c', l.loadName source (before ++ ⟨d, c⟩ :: after) report name =
        .ok (before ++ ⟨d, c'⟩ :: after, { report with applied := report.applied + 1 }) ∧
      Loaded d c' ∧ c'.slot? leaf keys = some value := by
  obtain ⟨id, hleaf, hown, leaf', hmatch, hreads⟩ := hfinds.reaches
  obtain rfl := Option.some.inj (hleaf.symm.trans (matchLeaf_eq_some hmatch).2)
  obtain ⟨g, hget⟩ := Option.isSome_iff_exists.mp hfinds.realized
  obtain ⟨root, hroot, hname, hfits⟩ := hc.fits h _ g hget
  obtain ⟨address, haddresses, hfill⟩ := exists_addresses_of_keys hreads
  obtain ⟨g', hplace, hfilled⟩ :=
    h.place_eq_fill_of_addresses hroot hleaf hname.symm haddresses value hfits
  have hload := @Loader.loadName_of_place l source report before after name d c id leaf value g g'
    hown hfinds.first hmatch hget hvalue hplace
  refine ⟨_, hload, ?_, ?_⟩
  · exact hc.loadName hload (i := before.length) (by simp) (by simp)
  · have hat := h.at?_eq hroot hleaf hname.symm hfill
    rw [RealizedConfig.slot?_eq (RealizedConfig.placed_get?_self _ _ _ _ _) hfill, hfilled,
      (Value.filled_fill h.sound.scalar hat value hfits).self]

/-- **A name that has been applied** has given the slot that it finds the value of its raw text. -/
theorem Loaded.slot?_of_applied {c' : RealizedConfig} (hc : Loaded d c)
    (hfinds : l.Finds before d c leaf keys name) {source : Source} {report : LoadReport}
    (hload : l.loadName source (before ++ ⟨d, c⟩ :: after) report name =
      .ok (before ++ ⟨d, c'⟩ :: after, { report with applied := report.applied + 1 })) :
    Loaded d c' ∧ ∃ value, leaf.Gives ((source.value? name).getD "") value ∧
      c'.slot? leaf keys = some value := by
  refine ⟨hc.loadName hload (i := before.length) (by simp) (by simp), ?_⟩
  obtain ⟨id, hleaf, hown, leaf', hmatch, hreads⟩ := hfinds.reaches
  obtain rfl := Option.some.inj (hleaf.symm.trans (matchLeaf_eq_some hmatch).2)
  obtain ⟨address, haddresses, hfill⟩ := exists_addresses_of_keys hreads
  have hleafFor : LoadTarget.leafFor? ⟨d, c⟩ name = some (id, leaf) := hmatch
  rw [Loader.loadName_of_leaf hown hfinds.first hleafFor] at hload
  obtain ⟨⟨t', outcome⟩, happly, heq⟩ := ok_of_map_eq_ok hload
  obtain ⟨htargets, hreport⟩ := Prod.mk.inj heq
  obtain rfl : t' = ⟨d, c'⟩ := (List.cons.inj (List.append_cancel_left htargets)).1
  obtain rfl : outcome = .applied := by
    by_contra hskipped
    rw [if_neg hskipped] at hreport
    have happlied : report.applied = report.applied + 1 := congrArg LoadReport.applied hreport
    omega
  rcases Loader.applyTo_cases d c leaf ⟨name, 1⟩ ((source.value? name).getD "") with
    ⟨-, heq⟩ | ⟨reason, heq⟩ | ⟨g, value, -, hvalue, ⟨e, -, heq⟩ | ⟨g', written, hplace, heq⟩⟩
  · cases happly.symm.trans heq
  · cases happly.symm.trans heq
  · cases happly.symm.trans heq
  obtain ⟨htarget, hwritten⟩ := Prod.mk.inj (Except.ok.inj (happly.symm.trans heq))
  obtain rfl : written = true := by
    by_contra hunwritten
    rw [if_neg hunwritten] at hwritten
    cases hwritten
  have hget : c'.get? leaf.root = some g' := by
    rw [show c' = c.placed leaf.root g' name ((source.value? name).getD "") from
      congrArg LoadTarget.config htarget]
    exact RealizedConfig.placed_get?_self _ _ _ _ _
  refine ⟨value, Leaf.valueOf_eq_ok_iff.mp hvalue, ?_⟩
  rw [RealizedConfig.slot?_eq hget hfill]
  rw [Cursor.next_ofName hown] at haddresses
  exact Value.at?_of_write haddresses (Leaf.write_of_place hplace)

end Reaching

/-! ### Slots of defaults -/

section Defaults

variable {piece : String → Prop} {d : Definition} {c : RealizedConfig} {id : Nat} {leaf : Leaf}

/-- Where no map stands in front, the default of a node holds the defaults of the nodes below. -/
theorem defaultOver_at?_fields (leaves : List Leaf) {idents : List String} {node n : Node}
    (h : node.at? (idents.map .field) = some n) :
    (defaultOver leaves node).at? (idents.map .field) = some (defaultOver leaves n) := by
  induction idents generalizing node with
  | nil =>
    obtain rfl := Option.some.inj h
    rfl
  | cons ident idents ih =>
    obtain ⟨child, hchild, hbelow⟩ := Option.bind_eq_some_iff.mp h
    cases node with
    | group g =>
      have hslot : (defaultOver leaves (.group g)).slot? (.field ident) =
          some (defaultOver leaves child) := by
        rw [defaultOver_group_slot?, show g.attribute? ident = some child from hchild,
          Option.map_some]
      rw [List.map_cons, Value.at?_cons, hslot, Option.bind_some, ih hbelow]
    | map value => cases hchild
    | leaf id => cases hchild

/-- The path of a leaf without a map in front of it names attributes only. -/
theorem Leaf.exists_idents (h : leaf.hasWildcard = false) :
    ∃ idents : List String, leaf.path = idents.map .field := by
  rw [hasWildcard] at h
  generalize leaf.path = path at h
  induction path with
  | nil => exact ⟨[], rfl⟩
  | cons step path ih =>
    rw [List.any_cons, Bool.or_eq_false_iff] at h
    obtain ⟨idents, rfl⟩ := ih h.2
    cases step with
    | field ident => exact ⟨ident :: idents, rfl⟩
    | key segment template => cases h.1

/-- An address begins with the attributes that its path begins with. -/
theorem fillPath_fields_append (idents : List String) (path : List PathStep) (keys : List String) :
    fillPath (idents.map .field ++ path) keys =
      (fillPath path keys).map (idents.map SlotStep.field ++ ·) := by
  induction idents with
  | nil => simp
  | cons ident idents ih =>
    rw [List.map_cons, List.cons_append, fillPath, ih, Option.map_map]
    rfl

theorem fillPath_fields (idents : List String) :
    fillPath (idents.map .field) [] = some (idents.map .field) := by
  have hfill := fillPath_fields_append idents [] []
  rwa [List.append_nil, fillPath, Option.map_some, List.append_nil] at hfill

/-- **A slot without a map in front of it** is realized with the default of its leaf. -/
theorem Built.realize_slot? (h : Built (RootDecl.Each piece List.Nodup) d)
    (hleaf : d.leaf? id = some leaf) (hwildcard : leaf.hasWildcard = false) {stage : Stage}
    (hrealized : ((d.realize stage).get? leaf.root).isSome) :
    (d.realize stage).slot? leaf [] = some leaf.defaultValue := by
  obtain ⟨g, hget⟩ := Option.isSome_iff_exists.mp hrealized
  obtain ⟨idents, hpath⟩ := leaf.exists_idents hwildcard
  have hfill : fillPath leaf.path [] = some (idents.map .field) := by rw [hpath, fillPath_fields]
  obtain ⟨root, hroot, hname, -, rfl⟩ := exists_root_of_realize_get? hget
  have hdefault := defaultOver_at?_fields d.leaves (h.at?_eq hroot hleaf hname.symm hfill)
  have hgetElem : d.leaves[id]? = some leaf := hleaf
  rw [defaultOver, defaultOver, hgetElem] at hdefault
  rw [RealizedConfig.slot?_eq hget hfill]
  exact hdefault

end Defaults

/-! ### Values in slots -/

/-- Loads keep what filling keeps for all values within. -/
theorem Loaded.everywhere {good : RootDecl → Prop} {d : Definition} {c : RealizedConfig}
    {P : Value → Prop} (hc : Loaded d c) (h : Built good d) (hP : Value.KeptByFilling d.leaves P) :
    c.Holds d fun _ g => (Value.group g).Everywhere P := by
  have hscalar := h.sound_any.scalar
  refine hc.holds h.sound_any (fun root _ => ?_) ?_
  · have hdefault := hP.of_default hscalar (.group root.tree)
    rwa [defaultOver] at hdefault
  · rintro root - name id leaf raw value g g' written hmatch - hvalue hg hplace
    have hleaf := (matchLeaf_eq_some hmatch).2
    have hvalue' := Leaf.valueOf_isScalar (hscalar leaf (List.mem_of_getElem? hleaf)) hvalue
    rcases Leaf.place_ok hplace with rfl | hwrite
    · exact hg
    · exact hP.of_write hscalar (h.defaultTemplates hleaf) hvalue' hg hwrite

/-- Whether a value, if it is a group, has distinct attributes. -/
def Value.Distinct (v : Value) : Prop :=
  ∀ g, v = .group g → (Entries.keys g.fields).Nodup

/-- Default groups have distinct attributes, and accepting an attribute keeps them distinct. -/
theorem Value.keptByFilling_distinct {leaves : List Leaf}
    (hscalar : ∀ leaf ∈ leaves, leaf.defaultValue.IsScalar) : KeptByFilling leaves Distinct where
  scalar := by
    rintro _ hv g rfl
    cases hv
  default := by
    intro node g heq
    cases node with
    | group node =>
      rw [defaultOver] at heq
      rw [← Value.group.inj heq]
      exact (keys_defaultGroupOver leaves node).2
    | map value =>
      rw [defaultOver] at heq
      cases heq
    | leaf id =>
      have hleaf := isScalar_defaultOver hscalar id
      rw [heq] at hleaf
      cases hleaf
  put := by
    intro v s inner htakes h g heq
    cases v with
    | group g' =>
      cases s with
      | field ident =>
        obtain rfl := Value.group.inj heq
        exact Entries.nodup_keys_put (h g' rfl) ident inner
      | entry k => cases htakes
    | map entries => cases s <;> cases heq
    | _ => cases htakes

/-- Whether every leaf slot of a value holds what some text gives the leaf. -/
def Given (leaves : List Leaf) (node : Node) (v : Value) : Prop :=
  ∀ id leaf address x, leaves[id]? = some leaf → node.at? address = some (.leaf id) →
    v.at? address = some x → ∃ raw, leaf.Gives raw x

/-- The default of a node holds what the empty text gives. -/
theorem given_defaultOver {leaves : List Leaf}
    (hscalar : ∀ leaf ∈ leaves, leaf.defaultValue.IsScalar) (node : Node) :
    Given leaves node (defaultOver leaves node) := by
  intro id leaf address x hleaf hat hx
  obtain ⟨n, hn, rfl⟩ := exists_node_of_defaultOver_at? hscalar hx
  obtain rfl := Option.some.inj (hat.symm.trans hn)
  rw [defaultOver, hleaf]
  exact ⟨"", Or.inl ⟨rfl, rfl⟩⟩

/-- **In a loaded config**, every leaf slot holds what some text gives its leaf. -/
theorem Loaded.given {piece : String → Prop} {d : Definition} {c : RealizedConfig}
    (hc : Loaded d c) (h : Built (RootDecl.Each piece List.Nodup) d) :
    c.Holds d fun root g =>
      Fits (.group root.tree) (.group g) ∧ Given d.leaves (.group root.tree) (.group g) := by
  refine hc.holds h.sound (fun root _ => ?_) ?_
  · have hfits := fits_defaultOver h.sound.scalar (.group root.tree)
    have hgiven := given_defaultOver h.sound.scalar (.group root.tree)
    rw [defaultOver] at hfits hgiven
    exact ⟨hfits, hgiven⟩
  rintro root hroot name id leaf raw value g g' written hmatch hname hvalue ⟨hfits, hgiven⟩ hplace
  have hleaf := (matchLeaf_eq_some hmatch).2
  obtain ⟨hnodup, full, way⟩ := h.way hroot hleaf hname
  refine ⟨?_, fun id' leaf' address x hleaf' hat hx => ?_⟩
  · rcases Leaf.place_ok hplace with rfl | hwrite
    · exact hfits
    · exact way.write_fits hnodup h.sound.scalar hfits hwrite
  by_cases htouched : Addresses (fun segment => name.segment? (name.position + segment)) leaf.path
      address
  · -- The slot that the name leads to has been filled with the value.
    obtain ⟨g'', hplace', hfilled⟩ :=
      h.place_eq_fill_of_addresses hroot hleaf hname htouched value hfits
    obtain ⟨rfl, -⟩ := Prod.mk.inj (Except.ok.inj (hplace.symm.trans hplace'))
    obtain ⟨keys, -, hfill⟩ := addresses_iff.mp htouched
    have hat' := way.at?_eq hnodup hfill
    obtain rfl := Node.leaf.inj (Option.some.inj (hat'.symm.trans hat))
    obtain rfl := Option.some.inj (hleaf.symm.trans hleaf')
    rw [hfilled, (Value.filled_fill h.sound.scalar hat value hfits).self] at hx
    obtain rfl := Option.some.inj hx
    exact ⟨raw, Leaf.valueOf_eq_ok_iff.mp hvalue⟩
  · rcases h.place_kept hroot hleaf hname hfits hplace address id' htouched hat with
      heq | ⟨-, hdefault⟩
    · exact hgiven id' leaf' address x hleaf' hat (heq ▸ hx)
    · rw [hdefault, defaultOver, hleaf'] at hx
      obtain rfl := Option.some.inj hx
      exact ⟨"", Or.inl ⟨rfl, rfl⟩⟩

end PropertyBinding

import PropertyBinding.Proofs.Realizing

/-!
# Stored plans

A stored plan is outside data. A replay checks that its operations spell the trees of the roots, but
neither what values they set nor which roots the plan realizes. So a config that has been realized
from a plan with the right fingerprint has the shape of the definition (`WellShaped`) only if the
plan realizes the roots of the stage and sets every attribute to a value of its shape (`Faithful`);
and it has, if moreover no group that is built for the stage repeats an attribute
(`Built.wellShaped_of_plan`). A plan that is not faithful is realized all the same
(`misshapenPlan_realize`).
-/

namespace PropertyBinding

open Definition

/-! ### Shapes -/

/-- Whether a value has the shape of a node: a leaf slot holds what some text reads as for the leaf,
a map the values of its entries, and a group has the type and exactly the attributes of its
descriptor. -/
inductive Shaped (leaves : List Leaf) : Node → Value → Prop where
  | leaf {id : Nat} {leaf : Leaf} {raw : String} {v : Value} (leaf_eq : leaves[id]? = some leaf)
      (reads : Convert.value leaf.kind raw = .ok v) : Shaped leaves (.leaf id) v
  | map {value : Node} {entries : Entries Value}
      (values : ∀ key v, (key, v) ∈ entries → Shaped leaves value v) :
      Shaped leaves (.map value) (.map entries)
  | group {node : GroupNode} {g : Group} (typeName : g.typeName = node.typeName)
      (idents : ∀ ident, (g.get? ident).isSome ↔ ident ∈ node.fields.map (·.1))
      (slots : ∀ ident child v, (ident, child) ∈ node.fields → g.get? ident = some v →
        Shaped leaves child v) : Shaped leaves (.group node) (.group g)

/-- Whether fields hold values of the shapes of the attributes of a group, each of the first one
with its name. -/
def FieldsShaped (leaves : List Leaf) (node : GroupNode) (fields : Entries Value) : Prop :=
  ∀ ident v child, (ident, v) ∈ fields → node.field? ident = some child → Shaped leaves child v

/-- Whether operations that are carried out below nested groups, the innermost first, set attributes
to values of their shapes only. -/
def SetsShaped (leaves : List Leaf) : List GroupNode → List PlanOp → Prop
  | node :: outer, .enter field _ :: ops =>
    ∀ nested, node.field? field = some (.group nested) →
      SetsShaped leaves (nested :: node :: outer) ops
  | node :: outer, .set field value :: ops =>
    (∀ child, node.field? field = some child → Shaped leaves child value) ∧
      SetsShaped leaves (node :: outer) ops
  | _ :: outer, .exit :: ops => SetsShaped leaves outer ops
  | _, _ => True

section Items

variable {leaves : List Leaf} {node : GroupNode} {fields : Entries Value} {ops : List PlanOp}

/-- Items only build fields for attributes of their group. -/
theorem Items.exists_field? (h : Items node fields ops) {ident : String}
    (hident : ident ∈ Entries.keys fields) : ∃ child, node.field? ident = some child := by
  induction h with
  | nil node => cases hident
  | set declared _ _ _ ih =>
    rcases List.mem_cons.mp hident with rfl | hident
    · exact ⟨_, declared⟩
    · exact ih hident
  | group declared _ _ _ _ ih =>
    rcases List.mem_cons.mp hident with rfl | hident
    · exact ⟨_, declared⟩
    · exact ih hident

/-- The fields of a group that has its shape have the shapes of its attributes. -/
theorem Shaped.fieldsShaped {g : Group} (h : Shaped leaves (.group node) (.group g))
    (hdistinct : (Entries.keys g.fields).Nodup) : FieldsShaped leaves node g.fields := by
  intro ident v child hmem hchild
  cases h with
  | group _ _ slots =>
    have hlookup := Entries.lookup_eq_of_mem hdistinct hmem
    exact slots ident child v (Entries.mem_of_lookup hchild) hlookup

/-- A group has its shape if its fields have the shapes of its attributes and none is repeated. -/
theorem Items.shaped (h : Items node fields ops) (once : node.EachOnce fields)
    (hnodup : (node.fields.map (·.1)).Nodup) (hfields : FieldsShaped leaves node fields) :
    Shaped leaves (.group node) (.group ⟨node.typeName, fields⟩) := by
  refine .group rfl (fun ident => ?_) fun ident child v hmem hv => ?_
  · refine Entries.isSome_lookup_iff.trans ⟨fun hident => ?_, fun hident => ?_⟩
    · obtain ⟨child, hchild⟩ := h.exists_field? hident
      exact Entries.isSome_lookup_iff.mp (Option.isSome_iff_exists.mpr ⟨child, hchild⟩)
    · obtain ⟨field, hfield, rfl⟩ := List.mem_map.mp hident
      exact once.all field hfield
  · exact hfields ident v child (Entries.mem_of_lookup hv) (Entries.lookup_eq_of_mem hnodup hmem)

/-- Items set attributes to values of their shapes if the fields that they build have them. -/
theorem Items.setsShaped (h : Items node fields ops) (hfields : FieldsShaped leaves node fields)
    {outer : List GroupNode} {more : List PlanOp} (hmore : SetsShaped leaves (node :: outer) more) :
    SetsShaped leaves (node :: outer) (ops ++ more) := by
  induction h generalizing outer more with
  | nil node => exact hmore
  | @set node field child fields ops declared _ value _ ih =>
    refine ⟨fun other hother => hfields _ _ other List.mem_cons_self hother, ih ?_ hmore⟩
    exact fun ident v child hmem => hfields ident v child (List.mem_cons_of_mem _ hmem)
  | @group node nested field inner fields innerOps ops declared within once _ ihwithin ihrest =>
    rw [List.cons_append, List.append_assoc, List.cons_append]
    intro other hother
    obtain rfl : nested = other := by simpa using declared.symm.trans hother
    have hinner := hfields _ _ _ List.mem_cons_self declared
    refine ihwithin (hinner.fieldsShaped once.distinct) ?_
    refine ihrest (fun ident v child hmem => ?_) hmore
    exact hfields ident v child (List.mem_cons_of_mem _ hmem)

/-- If items set attributes to values of their shapes and no group repeats an attribute, the fields
that they build have their shapes. -/
theorem Items.fieldsShaped (h : Items node fields ops) (hdistinct : node.Distinct)
    {outer : List GroupNode} {more : List PlanOp}
    (hsets : SetsShaped leaves (node :: outer) (ops ++ more)) :
    FieldsShaped leaves node fields ∧ SetsShaped leaves (node :: outer) more := by
  induction h generalizing outer more with
  | nil node => exact ⟨fun _ _ _ hmem => (nomatch hmem), hsets⟩
  | @set node field child fields ops declared _ value _ ih =>
    obtain ⟨hvalue, hrest⟩ := hsets
    obtain ⟨hfields, hmore⟩ := ih hdistinct hrest
    refine ⟨fun ident v child hmem hchild => ?_, hmore⟩
    rcases List.mem_cons.mp hmem with heq | hmem
    · obtain ⟨rfl, rfl⟩ := Prod.mk.inj heq
      exact hvalue child hchild
    · exact hfields ident v child hmem hchild
  | @group node nested field inner fields innerOps ops declared within once _ ihwithin ihrest =>
    have hnested : nested.Distinct :=
      (GroupNode.distinct_iff.mp hdistinct).2 _ (Entries.mem_of_lookup declared)
    rw [List.cons_append, List.append_assoc, List.cons_append] at hsets
    obtain ⟨hinner, hexit⟩ := ihwithin hnested (hsets nested declared)
    obtain ⟨hfields, hmore⟩ := ihrest hdistinct hexit
    refine ⟨fun ident v child hmem hchild => ?_, hmore⟩
    rcases List.mem_cons.mp hmem with heq | hmem
    · obtain ⟨rfl, rfl⟩ := Prod.mk.inj heq
      obtain rfl := Option.some.inj (hchild.symm.trans declared)
      exact within.shaped once (GroupNode.distinct_iff.mp hnested).1 hinner
    · exact hfields ident v child hmem hchild

end Items

/-! ### Realizing a stored plan -/

/-- A compiled root is realized with what its operations build. -/
theorem RootPlan.realize_ok {d : Definition} {rootPlan : RootPlan} {c c' : RealizedConfig}
    (h : rootPlan.realize d c = .ok c') :
    ∃ root ∈ d.roots, root.containingName = rootPlan.containingName ∧ ∃ g,
      root.replay rootPlan.ops = .ok g ∧ c' = c.store root g := by
  rw [realize] at h
  cases hroot : d.root? rootPlan.containingName with
  | none =>
    rw [hroot] at h
    cases h
  | some root =>
    rw [hroot] at h
    obtain ⟨g, hreplay, rfl⟩ := ok_of_map_eq_ok h
    rw [root?] at hroot
    exact ⟨root, List.mem_of_find?_eq_some hroot, by simpa using List.find?_some hroot, g, hreplay,
      rfl⟩

/-- Compiled roots with distinct names are all realized with what their operations build, and other
roots stay. -/
theorem realize_run {d : Definition} {rootPlans : List RootPlan}
    (hnames : (rootPlans.map (·.containingName)).Nodup) {c c' : RealizedConfig}
    (h : rootPlans.foldlM (RootPlan.realize d) c = .ok c') :
    (∀ rootPlan ∈ rootPlans, ∃ root ∈ d.roots, root.containingName = rootPlan.containingName ∧
        ∃ g, root.replay rootPlan.ops = .ok g ∧ c'.get? root.containingName = some g) ∧
      ∀ name, (∀ rootPlan ∈ rootPlans, rootPlan.containingName ≠ name) →
        c'.get? name = c.get? name := by
  induction rootPlans generalizing c with
  | nil =>
    obtain rfl := Except.ok.inj h
    exact ⟨by simp, fun _ _ => rfl⟩
  | cons first rest ih =>
    obtain ⟨hfirst, hnames⟩ := List.nodup_cons.mp hnames
    rw [List.foldlM_cons] at h
    cases hstep : first.realize d c with
    | error e =>
      rw [hstep] at h
      cases h
    | ok next =>
      rw [hstep] at h
      obtain ⟨hrealized, hother⟩ := ih hnames h
      obtain ⟨root, hroot, hname, g, hreplay, rfl⟩ := RootPlan.realize_ok hstep
      refine ⟨List.forall_mem_cons.mpr ⟨⟨root, hroot, hname, g, hreplay, ?_⟩, hrealized⟩,
        fun name hnot => ?_⟩
      · -- No later compiled root has the name, so what has been stored for it stays.
        rw [hname, hother first.containingName fun rootPlan hmem heq =>
          hfirst (List.mem_map.mpr ⟨rootPlan, hmem, heq⟩), ← hname]
        exact Entries.lookup_put_self _ _ _
      · obtain ⟨hne, hnot⟩ := List.forall_mem_cons.mp hnot
        rw [hother name hnot]
        exact Entries.lookup_put_of_ne (fun heq => hne (heq.trans hname).symm) _ _

/-- What a plan realizes for a stage: every compiled root that it counts among those of the stage,
as the items of its operations build it, and no other root. -/
theorem Plan.realize_items {d : Definition} {stage : Stage} {hash : Signature → UInt64}
    {plan : Plan} {c : RealizedConfig} (hnames : (plan.roots.map (·.containingName)).Nodup)
    (h : plan.realize d stage hash = .ok c) :
    (∀ rootPlan ∈ plan.roots, stage.includes rootPlan.phase = true → ∃ root ∈ d.roots,
        root.containingName = rootPlan.containingName ∧ ∃ fields,
          Items root.tree fields rootPlan.ops ∧ root.tree.EachOnce fields ∧
          c.get? root.containingName = some ⟨root.typeName, fields⟩) ∧
      ∀ name, (c.get? name).isSome → ∃ rootPlan ∈ plan.roots,
        stage.includes rootPlan.phase = true ∧ rootPlan.containingName = name := by
  rw [realize] at h
  split_ifs at h
  obtain ⟨hrealized, hother⟩ := realize_run (hnames.sublist (List.filter_sublist.map _)) h
  refine ⟨fun rootPlan hmem hstage => ?_, fun name hsome => ?_⟩
  · obtain ⟨root, hroot, hname, g, hreplay, hget⟩ :=
      hrealized rootPlan (List.mem_filter.mpr ⟨hmem, hstage⟩)
    obtain ⟨fields, rfl, items, once⟩ := Root.replay_ok_iff.mp hreplay
    exact ⟨root, hroot, hname, fields, items, once, hget⟩
  · by_contra hnot
    rw [hother name fun rootPlan hmem heq => ?_] at hsome
    · cases hsome
    · obtain ⟨hmem, hstage⟩ := List.mem_filter.mp hmem
      exact hnot ⟨rootPlan, hmem, hstage, heq⟩

/-- Whether a config has the roots of a stage, each in the shape of its tree. -/
structure RealizedConfig.WellShaped (d : Definition) (stage : Stage) (c : RealizedConfig) :
    Prop where
  roots : ∀ name, (c.get? name).isSome ↔ ((d.realize stage).get? name).isSome
  shaped : ∀ root ∈ d.roots, ∀ g, c.get? root.containingName = some g →
    Shaped d.leaves (.group root.tree) (.group g)

/-- Whether a plan realizes the roots of a stage and sets their attributes to values of their shapes
only. -/
structure Plan.Faithful (d : Definition) (stage : Stage) (plan : Plan) : Prop where
  roots : ∀ root ∈ d.roots, stage.includes root.phase = true ↔
    ∃ rootPlan ∈ plan.roots, stage.includes rootPlan.phase = true ∧
      rootPlan.containingName = root.containingName
  values : ∀ rootPlan ∈ plan.roots, stage.includes rootPlan.phase = true → ∀ root ∈ d.roots,
    root.containingName = rootPlan.containingName →
      SetsShaped d.leaves [root.tree] rootPlan.ops

/-- A root is realized for a stage exactly if it is one of the stage. -/
theorem Definition.Sound.isSome_realize_iff {piece : String → Prop} {idents : List String → Prop}
    {d : Definition} (h : d.Sound piece idents) {root : Root} (hroot : root ∈ d.roots)
    (stage : Stage) :
    ((d.realize stage).get? root.containingName).isSome ↔ stage.includes root.phase = true := by
  constructor
  · intro hsome
    obtain ⟨g, hg⟩ := Option.isSome_iff_exists.mp hsome
    obtain ⟨other, hother, hname, hstage, -⟩ := exists_root_of_realize_get? hg
    obtain rfl : other = root := List.inj_on_of_nodup_map h.names hother hroot hname
    exact hstage
  · intro hstage
    rw [realize_get?_eq h.names hroot hstage]
    rfl

section Plans

variable {piece : String → Prop} {idents : List String → Prop} {d : Definition} {stage : Stage}
  {hash : Signature → UInt64} {plan : Plan} {c : RealizedConfig}

/-- A plan realizes the roots that it counts among those of the stage. -/
theorem Plan.isSome_realize_iff (hnames : (plan.roots.map (·.containingName)).Nodup)
    (hc : plan.realize d stage hash = .ok c) (name : String) :
    (c.get? name).isSome ↔ ∃ rootPlan ∈ plan.roots,
      stage.includes rootPlan.phase = true ∧ rootPlan.containingName = name := by
  obtain ⟨hrealized, honly⟩ := realize_items hnames hc
  refine ⟨honly name, ?_⟩
  rintro ⟨rootPlan, hmem, hstage, rfl⟩
  obtain ⟨root, -, hname, fields, -, -, hget⟩ := hrealized rootPlan hmem hstage
  rw [← hname, hget]
  rfl

/-- A plan whose config has the shape of the definition is faithful. -/
theorem RealizedConfig.WellShaped.faithful (h : d.Sound piece idents)
    (hnames : (plan.roots.map (·.containingName)).Nodup) (hc : plan.realize d stage hash = .ok c)
    (hshaped : c.WellShaped d stage) : plan.Faithful d stage where
  roots := fun root hroot => by
    rw [← Plan.isSome_realize_iff hnames hc, hshaped.roots, h.isSome_realize_iff hroot]
  values := by
    intro rootPlan hmem hstage root hroot hname
    obtain ⟨other, hother, hname', fields, items, once, hget⟩ :=
      (Plan.realize_items hnames hc).1 rootPlan hmem hstage
    obtain rfl : other = root :=
      List.inj_on_of_nodup_map h.names hother hroot (hname'.trans hname.symm)
    have hgroup := hshaped.shaped other hroot _ hget
    have hsets : SetsShaped d.leaves [other.tree] (rootPlan.ops ++ []) :=
      items.setsShaped (hgroup.fieldsShaped once.distinct) trivial
    rwa [List.append_nil] at hsets

/-- The config of a faithful plan has the shape of the definition, if no group that is built for the
stage repeats an attribute. -/
theorem Plan.Faithful.wellShaped (h : d.Sound piece idents)
    (hnames : (plan.roots.map (·.containingName)).Nodup) (hc : plan.realize d stage hash = .ok c)
    (hdistinct : ∀ root ∈ d.roots, stage.includes root.phase = true → root.tree.Distinct)
    (hplan : plan.Faithful d stage) : c.WellShaped d stage where
  roots := by
    intro name
    rw [Plan.isSome_realize_iff hnames hc]
    constructor
    · rintro ⟨rootPlan, hmem, hstage, rfl⟩
      obtain ⟨root, hroot, hname, -⟩ := (Plan.realize_items hnames hc).1 rootPlan hmem hstage
      rw [← hname, h.isSome_realize_iff hroot, hplan.roots root hroot]
      exact ⟨rootPlan, hmem, hstage, hname.symm⟩
    · intro hwalked
      obtain ⟨g, hg⟩ := Option.isSome_iff_exists.mp hwalked
      obtain ⟨root, hroot, rfl, hstage, -⟩ := exists_root_of_realize_get? hg
      exact (hplan.roots root hroot).mp hstage
  shaped := by
    intro root hroot g hget
    obtain ⟨rootPlan, hmem, hstage, hname⟩ :=
      (Plan.isSome_realize_iff hnames hc root.containingName).mp (by rw [hget]; rfl)
    obtain ⟨other, hother, hname', fields, items, once, hget'⟩ :=
      (Plan.realize_items hnames hc).1 rootPlan hmem hstage
    obtain rfl : other = root :=
      List.inj_on_of_nodup_map h.names hother hroot (hname'.trans hname)
    obtain rfl := Option.some.inj (hget'.symm.trans hget)
    have htree : other.tree.Distinct :=
      hdistinct other hroot ((hplan.roots other hroot).mpr ⟨rootPlan, hmem, hstage, hname⟩)
    have hsets := hplan.values rootPlan hmem hstage other hroot hname'
    rw [← List.append_nil rootPlan.ops] at hsets
    obtain ⟨hfields, -⟩ := items.fieldsShaped htree hsets
    have hgroup := items.shaped once (GroupNode.distinct_iff.mp htree).1 hfields
    rwa [(h.laid other hroot).typeName] at hgroup

end Plans

/-! ### The definition's own plan -/

/-- Accepting the defaults of attributes keeps the type of a group. -/
theorem acceptDefaults_typeName (leaves : List Leaf) (g : Group) (fields : List (String × Node)) :
    (acceptDefaults leaves g fields).typeName = g.typeName := by
  induction fields generalizing g with
  | nil => rw [acceptDefaults]
  | cons field rest ih =>
    rw [acceptDefaults, ih]
    rfl

mutual

/-- The default of a node has its shape, if its leaves stand in the table and no group that is built
with it repeats an attribute. -/
theorem shaped_defaultOver {leaves : List Leaf}
    (hvalues : ∀ leaf ∈ leaves, Convert.value leaf.kind leaf.default = .ok leaf.defaultValue) :
    (node : Node) → (∀ id ∈ node.leafIds, id < leaves.length) → node.Distinct →
      Shaped leaves node (defaultOver leaves node)
  | .group ⟨typeName, fields⟩, hids, hdistinct => by
    obtain ⟨hnodup, hwithin⟩ := GroupNode.distinct_iff.mp hdistinct
    rw [Node.leafIds, GroupNode.leafIds] at hids
    have hchildren := shaped_defaults hvalues fields hids hwithin
    have hslot := defaultOver_group_slot? leaves ⟨typeName, fields⟩
    rw [defaultOver] at hslot ⊢
    refine .group ?_ (fun ident => ?_) fun ident child v hmem hv => ?_
    · rw [defaultGroupOver, acceptDefaults_typeName]
      rfl
    · change ((Value.group _).slot? (.field ident)).isSome ↔ _
      rw [hslot, Option.isSome_map, GroupNode.attribute?, Entries.isSome_lookup_iff, Entries.keys,
        List.map_reverse, List.mem_reverse]
    · have hvalue := hslot ident
      rw [GroupNode.attribute?_eq_of_mem hnodup hmem, Option.map_some, Value.slot?, hv] at hvalue
      rw [Option.some.inj hvalue]
      exact hchildren _ hmem
  | .map value, _, _ => by
    rw [defaultOver]
    exact .map fun _ _ hmem => (nomatch hmem)
  | .leaf id, hids, _ => by
    rw [Node.leafIds] at hids
    have hlt : id < leaves.length := hids id (List.mem_singleton.mpr rfl)
    rw [defaultOver, List.getElem?_eq_getElem hlt]
    exact .leaf (List.getElem?_eq_getElem hlt) (hvalues _ (List.getElem_mem hlt))

/-- The defaults of attributes have their shapes. -/
theorem shaped_defaults {leaves : List Leaf}
    (hvalues : ∀ leaf ∈ leaves, Convert.value leaf.kind leaf.default = .ok leaf.defaultValue) :
    (fields : List (String × Node)) → (∀ id ∈ fieldLeafIds fields, id < leaves.length) →
      (∀ field ∈ fields, field.2.Distinct) →
      ∀ field ∈ fields, Shaped leaves field.2 (defaultOver leaves field.2)
  | [], _, _ => by simp
  | (_, child) :: rest, hids, hdistinct => by
    rw [fieldLeafIds] at hids
    obtain ⟨hchild, hrest⟩ := List.forall_mem_cons.mp hdistinct
    exact List.forall_mem_cons.mpr
      ⟨shaped_defaultOver hvalues child (fun id hid => hids id (List.mem_append_left _ hid)) hchild,
        shaped_defaults hvalues rest (fun id hid => hids id (List.mem_append_right _ hid)) hrest⟩

end

section OwnPlan

variable {piece : String → Prop} {idents : List String → Prop} {d : Definition} {stage : Stage}

/-- What walking the trees realizes has the shape of the definition, if no group that is built for
the stage repeats an attribute. -/
theorem Definition.Sound.wellShaped_realize (h : d.Sound piece idents)
    (hdistinct : ∀ root ∈ d.roots, stage.includes root.phase = true → root.tree.Distinct) :
    (d.realize stage).WellShaped d stage where
  roots := fun _ => Iff.rfl
  shaped := by
    intro root hroot g hget
    obtain ⟨other, hother, hname, hstage, rfl⟩ := exists_root_of_realize_get? hget
    obtain rfl : other = root := List.inj_on_of_nodup_map h.names hother hroot hname
    have hids : ∀ id ∈ (Node.group other.tree).leafIds, id < d.leaves.length := by
      intro id hid
      rw [Node.leafIds] at hid
      obtain ⟨leaf, hleaf, -⟩ := (h.laid other hother).exists_leaf hid
      exact (List.getElem?_eq_some_iff.mp hleaf).1
    have hshaped := shaped_defaultOver h.values _ hids (hdistinct other hother hstage)
    rwa [defaultOver] at hshaped

/-- The definition's own plan is faithful, if no group that is built for the stage repeats an
attribute. -/
theorem Definition.Sound.compile_faithful (h : d.Sound piece idents)
    (hdistinct : ∀ root ∈ d.roots, stage.includes root.phase = true → root.tree.Distinct)
    (hash : Signature → UInt64) : (d.compile hash).Faithful d stage :=
  (h.wellShaped_realize hdistinct).faithful h (h.compile_names hash)
    (h.compile_realize_eq_ok hdistinct hash)

end OwnPlan

/-- **What a stored plan realizes** has the shape of the definition only if the plan is faithful. If
it is, and no group that is built for the stage repeats an attribute, then it has. -/
theorem Built.wellShaped_of_plan {good : RootDecl → Prop} {d : Definition} (h : Built good d)
    {stage : Stage} {hash : Signature → UInt64} {plan : Plan}
    (hnames : (plan.roots.map (·.containingName)).Nodup) {c : RealizedConfig}
    (hc : plan.realize d stage hash = .ok c) :
    (c.WellShaped d stage → plan.Faithful d stage) ∧
      ((∀ root ∈ d.roots, stage.includes root.phase = true → root.tree.Distinct) →
        plan.Faithful d stage → c.WellShaped d stage) :=
  ⟨fun hshaped => hshaped.faithful h.sound_any hnames hc,
    fun hdistinct hplan => hplan.wellShaped h.sound_any hnames hc hdistinct⟩

/-- A root `a` with a number and a map. -/
def slotsDecl : RootDecl where
  group := ⟨"AConfig", false,
    [⟨"n", .hyphenated, none, .primitive .int, false, none⟩,
      ⟨"m", .hyphenated, none, .map (some .string) (some (.object .string)), false, none⟩]⟩
  name := .hyphenated
  phase := .buildTime

theorem built_slotsDecl :
    Built (RootDecl.Each (fun _ => True) List.Nodup) (empty.registerRoot slotsDecl).1 := by
  refine .register .empty ⟨fun _ _ _ _ => trivial, ?_⟩ (Prod.ext rfl (by decide +kernel))
  simp [slotsDecl, GroupDecl.Each, FieldsEach, FieldDecl.Each, Shape.Each]

/-- What the definition's own plan realizes has the shape of the definition. -/
theorem wellShaped_of_plan_slotsDecl :
    let d := (empty.registerRoot slotsDecl).1
    ∃ c, d.compile.realize d .build = .ok c ∧ c.WellShaped d .build := by
  intro d
  have hsound := built_slotsDecl.sound
  have hdistinct : ∀ root ∈ d.roots, Stage.build.includes root.phase = true → root.tree.Distinct :=
    fun root hroot _ => (hsound.laid root hroot).idents.distinct
  have hok := hsound.compile_realize_eq_ok hdistinct Signature.mix
  refine ⟨_, hok, ?_⟩
  exact (built_slotsDecl.wellShaped_of_plan (hsound.compile_names _) hok).2 hdistinct
    (hsound.compile_faithful hdistinct _)

/-- A plan for the root that sets the number to a string and the map to a truth value. -/
def misshapenPlan (d : Definition) : Plan where
  fingerprint := d.fingerprint
  roots := [⟨"a", "AConfig", .buildTime, [.set "n" (.string "x"), .set "m" (.bool true)]⟩]

/-- **A stored plan can be misshapen.** A plan that sets a number to a string, and one without the
root, are realized, and their configs do not have the shape of the definition. -/
theorem misshapenPlan_realize :
    let d := (empty.registerRoot slotsDecl).1
    (∃ c, (misshapenPlan d).realize d .build = .ok c ∧ ¬c.WellShaped d .build) ∧
      (⟨d.fingerprint, []⟩ : Plan).realize d .build = .ok .empty ∧
        ¬RealizedConfig.empty.WellShaped d .build := by
  intro d
  have hroots : d.roots.map (fun root => (root.containingName, root.tree.fields.map fun field =>
      (field.1, match field.2 with | .leaf id => some id | _ => none))) =
        [("a", [("n", some 0), ("m", none)])] := by
    decide +kernel
  have hkinds : d.leaves.map (·.kind) = [.int, .object .string] := by decide +kernel
  have hset : ((misshapenPlan d).realize d .build).toOption.bind (fun c =>
      ((c.get? "a").bind (·.get? "n")).bind Value.asString?) = some "x" := by
    decide +kernel
  refine ⟨?_, ?_, fun hshaped => ?_⟩
  · cases hc : (misshapenPlan d).realize d .build with
    | error e =>
      rw [hc] at hset
      cases hset
    | ok c =>
      refine ⟨c, rfl, fun hshaped => ?_⟩
      rw [hc] at hset
      change ((c.get? "a").bind (·.get? "n")).bind Value.asString? = _ at hset
      obtain ⟨v, hv, hstring⟩ := Option.bind_eq_some_iff.mp hset
      obtain ⟨g, hg, hget⟩ := Option.bind_eq_some_iff.mp hv
      obtain ⟨root, hd, heq⟩ := List.map_eq_singleton_iff.mp hroots
      obtain ⟨hname, hfields⟩ := Prod.mk.inj heq
      obtain ⟨⟨ident, node⟩, rest, hcons, hfield, -⟩ := List.map_eq_cons_iff.mp hfields
      obtain ⟨rfl, hnode⟩ := Prod.mk.inj hfield
      have hroot : root ∈ d.roots := by
        rw [hd]
        exact List.mem_singleton.mpr rfl
      have hmem : ("n", node) ∈ root.tree.fields := by
        rw [hcons]
        exact List.mem_cons_self
      cases hshaped.shaped root hroot g (by rw [hname]; exact hg) with
      | group _ _ slots =>
        cases slots "n" node v hmem hget with
        | @leaf id leaf raw _ leaf_eq reads =>
          -- The slot of the number holds the string, which no text reads as for a number.
          obtain rfl := Option.some.inj hnode
          have hkind : leaf.kind = .int := by
            have hget := congrArg (·[0]?) hkinds
            simpa [leaf_eq] using hget
          rw [hkind] at reads
          obtain ⟨n, -, rfl⟩ := ok_of_map_eq_ok reads
          cases hstring
        | map => cases hnode
        | group => cases hnode
  · rw [Plan.realize, if_neg fun hne => hne rfl]
    rfl
  · have hwalked : ((d.realize .build).get? "a").isSome = true := by decide +kernel
    exact absurd ((hshaped.roots "a").mpr hwalked) (by decide)

end PropertyBinding

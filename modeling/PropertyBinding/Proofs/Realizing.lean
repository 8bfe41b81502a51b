import PropertyBinding.Proofs.Registered
import PropertyBinding.Proofs.Replaying
import PropertyBinding.Proofs.Shapes

/-!
# Realizing a definition

Walking the trees of a definition realizes, for every root of a stage, the default of its tree under
its containing name (`Definition.realize_get?_eq`, `Definition.exists_root_of_realize_get?`).

Replaying the definition's own plan comes to the same config exactly if no group that is built
repeats an attribute (`GroupNode.Distinct`); otherwise the first root that is built with such a
group is refused (`Built.compile_realize`). The compiled operations of a node are carried out in a
group that awaits them and let it accept the default of the node, or there is a fault
(`runOps_compileNode`, `runOps_compileFields`).
-/

namespace PropertyBinding

open Definition

/-! ### Walking the trees -/

/-- The config after the defaults of roots have been stored. -/
private def storeAll (d : Definition) (c : RealizedConfig) (roots : List Root) : RealizedConfig :=
  roots.foldl (fun c root => c.store root (d.defaultGroup root.tree)) c

private theorem storeAll_get?_of_ne {d : Definition} {name : String} {roots : List Root}
    (h : ∀ root ∈ roots, root.containingName ≠ name) (c : RealizedConfig) :
    (storeAll d c roots).get? name = c.get? name := by
  induction roots generalizing c with
  | nil => rfl
  | cons root rest ih =>
    obtain ⟨hroot, hrest⟩ := List.forall_mem_cons.mp h
    refine (ih hrest _).trans ?_
    exact Entries.lookup_put_of_ne (Ne.symm hroot) _ _

private theorem storeAll_get?_eq {d : Definition} {root : Root} {roots : List Root}
    (hnames : (roots.map (·.containingName)).Nodup) (hroot : root ∈ roots) (c : RealizedConfig) :
    (storeAll d c roots).get? root.containingName = some (d.defaultGroup root.tree) := by
  induction roots generalizing c with
  | nil => cases hroot
  | cons first rest ih =>
    obtain ⟨hfirst, hrest⟩ := List.nodup_cons.mp hnames
    rcases List.mem_cons.mp hroot with rfl | hroot
    · change (storeAll d (c.store root (d.defaultGroup root.tree)) rest).get? _ = _
      have hne : ∀ other ∈ rest, other.containingName ≠ root.containingName :=
        fun other hother heq => hfirst (List.mem_map.mpr ⟨other, hother, heq⟩)
      rw [storeAll_get?_of_ne hne]
      exact Entries.lookup_put_self _ _ _
    · exact ih hrest hroot _

private theorem exists_root_of_storeAll_get? {d : Definition} {name : String} {g : Group}
    {roots : List Root} {c : RealizedConfig} (h : (storeAll d c roots).get? name = some g) :
    (∃ root ∈ roots, root.containingName = name ∧ g = d.defaultGroup root.tree) ∨
      c.get? name = some g := by
  induction roots generalizing c with
  | nil => exact Or.inr h
  | cons root rest ih =>
    rcases ih h with ⟨other, hother, hg⟩ | hc
    · exact Or.inl ⟨other, List.mem_cons_of_mem _ hother, hg⟩
    · by_cases hname : name = root.containingName
      · subst hname
        have hself : (c.store root (d.defaultGroup root.tree)).get? root.containingName =
            some (d.defaultGroup root.tree) := Entries.lookup_put_self _ _ _
        exact Or.inl ⟨root, List.mem_cons_self, rfl, Option.some.inj (hc.symm.trans hself)⟩
      · refine Or.inr (Eq.trans ?_ hc)
        exact (Entries.lookup_put_of_ne hname _ _).symm

/-- A realized root is one of the stage, and it is realized with its default. -/
theorem Definition.exists_root_of_realize_get? {d : Definition} {stage : Stage} {name : String}
    {g : Group} (h : (d.realize stage).get? name = some g) :
    ∃ root ∈ d.roots, root.containingName = name ∧ stage.includes root.phase = true ∧
      g = d.defaultGroup root.tree := by
  rcases exists_root_of_storeAll_get? h with ⟨root, hroot, hname, hg⟩ | hempty
  · obtain ⟨hmem, hstage⟩ := List.mem_filter.mp hroot
    exact ⟨root, hmem, hname, hstage, hg⟩
  · cases hempty

/-- Every root of the stage is realized with its default. -/
theorem Definition.realize_get?_eq {d : Definition}
    (hnames : (d.roots.map (·.containingName)).Nodup) {root : Root} (hroot : root ∈ d.roots)
    {stage : Stage} (hstage : stage.includes root.phase = true) :
    (d.realize stage).get? root.containingName = some (d.defaultGroup root.tree) :=
  storeAll_get?_eq (hnames.sublist (List.filter_sublist.map _))
    (List.mem_filter.mpr ⟨hroot, hstage⟩) _

/-! ### Trees without repeated attributes -/

/-- Whether a group is built with another one: that is itself, or it is built with one of its
attributes. Maps are built empty. -/
inductive GroupNode.Reaches : GroupNode → GroupNode → Prop where
  | refl (g : GroupNode) : Reaches g g
  | nested {g child h : GroupNode} {ident : String} (mem : (ident, .group child) ∈ g.fields)
      (below : Reaches child h) : Reaches g h

/-- Whether no group repeats an attribute that is built with the group. -/
def GroupNode.Distinct (g : GroupNode) : Prop :=
  ∀ h, g.Reaches h → (h.fields.map (·.1)).Nodup

/-- Whether no group repeats an attribute that is built with the node. -/
def Node.Distinct : Node → Prop
  | .group g => g.Distinct
  | .map _ | .leaf _ => True

theorem GroupNode.distinct_iff {g : GroupNode} :
    g.Distinct ↔ (g.fields.map (·.1)).Nodup ∧ ∀ field ∈ g.fields, field.2.Distinct := by
  constructor
  · refine fun h => ⟨h g (.refl g), fun field hfield => ?_⟩
    obtain ⟨ident, node⟩ := field
    cases node with
    | group child => exact fun other hother => h other (.nested hfield hother)
    | map value => trivial
    | leaf id => trivial
  · rintro ⟨hnodup, hwithin⟩ h hreaches
    cases hreaches with
    | refl => exact hnodup
    | nested mem below => exact hwithin _ mem h below

/-- In a tree without repeated attributes, none is built. -/
theorem Node.Each.distinct {g : GroupNode} (h : (Node.group g).Each List.Nodup) : g.Distinct := by
  intro other hreaches
  induction hreaches with
  | refl g =>
    obtain ⟨typeName, fields⟩ := g
    rw [Node.Each, GroupNode.Each] at h
    exact h.1
  | nested mem _ ih => exact ih (h.attribute?_eq mem).2

/-! ### Replaying a compiled plan -/

/-- Whether `rest` are the attributes that a group under construction has not come to yet: those
before them are set. -/
def PlanFrame.Awaits (frame : PlanFrame) (rest : List (String × Node)) : Prop :=
  ∃ before, frame.node.fields = before ++ rest ∧ ∀ p ∈ before, (frame.group.get? p.1).isSome

/-- A group that has been begun awaits all its attributes. -/
theorem PlanFrame.awaits_all (frame : PlanFrame) : frame.Awaits frame.node.fields :=
  ⟨[], rfl, by simp⟩

/-- An attribute that has been set is no longer awaited. -/
theorem PlanFrame.Awaits.accept {frame : PlanFrame} {field : String} {child : Node}
    {rest : List (String × Node)} (h : frame.Awaits ((field, child) :: rest)) (value : Value) :
    (frame.accept field value).Awaits rest := by
  obtain ⟨before, hsplit, hbefore⟩ := h
  refine ⟨before ++ [(field, child)], ?_, fun p hp => ?_⟩
  · rw [List.append_assoc]
    exact hsplit
  change ((frame.group.accept field value).get? p.1).isSome
  by_cases hfield : p.1 = field
  · rw [hfield, Group.get?_accept_self]
    rfl
  · rw [Group.get?_accept_of_ne hfield]
    rcases List.mem_append.mp hp with hp | hp
    · exact hbefore p hp
    · rw [List.mem_singleton.mp hp] at hfield
      exact absurd rfl hfield

/-- The awaited attribute is the first one of its name, unless this name has been set. -/
theorem PlanFrame.Awaits.field?_eq {frame : PlanFrame} {field : String} {child : Node}
    {rest : List (String × Node)} (h : frame.Awaits ((field, child) :: rest))
    (hnone : frame.group.get? field = none) : frame.node.field? field = some child := by
  obtain ⟨before, hsplit, hbefore⟩ := h
  have hnot : before.lookup field = none := by
    rw [List.lookup_eq_none_iff]
    intro p hp
    refine bne_iff_ne.mpr ?_
    rintro rfl
    have hset := hbefore p hp
    rw [hnone] at hset
    cases hset
  rw [GroupNode.field?, hsplit, List.lookup_append, hnot, Option.none_or, List.lookup_cons_self]

/-- Whether a group under construction can accept attributes one after the other: none has been set,
none is repeated, and none is built with a group that repeats one. -/
structure PlanFrame.Ready (frame : PlanFrame) (fields : List (String × Node)) : Prop where
  unset : ∀ field ∈ fields, frame.group.get? field.1 = none
  nodup : (fields.map (·.1)).Nodup
  within : ∀ field ∈ fields, field.2.Distinct

theorem PlanFrame.ready_cons_iff {frame : PlanFrame} {field : String} {child : Node}
    {rest : List (String × Node)} (value : Value) :
    frame.Ready ((field, child) :: rest) ↔
      (frame.group.get? field = none ∧ child.Distinct) ∧ (frame.accept field value).Ready rest := by
  constructor
  · intro h
    obtain ⟨hfield, hnodup⟩ := List.nodup_cons.mp h.nodup
    obtain ⟨hchild, hwithin⟩ := List.forall_mem_cons.mp h.within
    refine ⟨⟨h.unset _ List.mem_cons_self, hchild⟩, fun other hother => ?_, hnodup, hwithin⟩
    have hne : other.1 ≠ field := by
      rintro rfl
      exact hfield (List.mem_map.mpr ⟨other, hother, rfl⟩)
    exact (Group.get?_accept_of_ne hne _ _).trans (h.unset other (List.mem_cons_of_mem _ hother))
  · rintro ⟨⟨hunset, hchild⟩, h⟩
    -- What can be accepted behind the attribute has another name, since this one has been set.
    have hne : ∀ other ∈ rest, other.1 ≠ field := by
      rintro other hother rfl
      have hnone := h.unset other hother
      rw [accept, Group.get?_accept_self] at hnone
      cases hnone
    refine ⟨List.forall_mem_cons.mpr ⟨hunset, fun other hother => ?_⟩,
      List.nodup_cons.mpr ⟨fun hmem => ?_, h.nodup⟩, List.forall_mem_cons.mpr ⟨hchild, h.within⟩⟩
    · rw [← h.unset other hother]
      exact (Group.get?_accept_of_ne (hne other hother) _ _).symm
    · obtain ⟨other, hother, heq⟩ := List.mem_map.mp hmem
      exact hne other hother heq

/-- An awaited leaf or map is set, unless its name has been. -/
theorem PlanFrame.Awaits.runOps_set_iff {frame : PlanFrame} {field : String} {child : Node}
    {rest : List (String × Node)} (h : frame.Awaits ((field, child) :: rest)) (hslot : child.IsSlot)
    (value : Value) {outer frames' : List PlanFrame} {ops : List PlanOp} :
    runOps (.set field value :: ops) (frame :: outer) = .ok frames' ↔
      frame.group.get? field = none ∧
        runOps ops (frame.accept field value :: outer) = .ok frames' := by
  rw [runOps_cons_iff]
  constructor
  · rintro ⟨next, hstep, hops⟩
    obtain ⟨-, -, -, hunset, rfl⟩ := PlanOp.step_set_iff.mp hstep
    rw [← accept_eq_append hunset] at hops
    exact ⟨hunset, hops⟩
  · rintro ⟨hunset, hops⟩
    rw [accept_eq_append hunset] at hops
    exact ⟨_, PlanOp.step_set_iff.mpr ⟨child, h.field?_eq hunset, hslot, hunset, rfl⟩, hops⟩

/-- The default of a group is complete. -/
theorem checkComplete_acceptDefaults (leaves : List Leaf) (g : Group) (node : GroupNode) :
    checkComplete (acceptDefaults leaves g node.fields) node = .ok () := by
  refine checkComplete_ok_iff.mpr fun field hfield => ?_
  have hlookup : (node.fields.reverse.lookup field.1).isSome :=
    Entries.isSome_lookup_iff.mpr (List.mem_map_of_mem (List.mem_reverse.mpr hfield))
  rw [acceptDefaults_get?, Option.isSome_or, Option.isSome_map, hlookup, Bool.true_or]

mutual

/-- The operations of an awaited attribute can be carried out if its name has not been set and it is
built without a group that repeats an attribute. Then they store its default. -/
theorem runOps_compileNode (leaves : List Leaf) (field : String) : (child : Node) →
    ∀ {frame : PlanFrame} {outer frames' : List PlanFrame} {ops : List PlanOp}
      {rest : List (String × Node)}, frame.Awaits ((field, child) :: rest) →
      (runOps (compileNode leaves field child ++ ops) (frame :: outer) = .ok frames' ↔
        (frame.group.get? field = none ∧ child.Distinct) ∧
          runOps ops (frame.accept field (defaultOver leaves child) :: outer) = .ok frames')
  | .group ⟨typeName, fields⟩, frame, outer, frames', ops, rest, hawaits => by
    let entered : PlanFrame := ⟨field, .empty typeName, ⟨typeName, fields⟩⟩
    rw [compileNode, List.cons_append, List.append_assoc, runOps_cons_iff, defaultOver,
      defaultGroupOver, Node.Distinct, GroupNode.distinct_iff]
    constructor
    · rintro ⟨next, hstep, hbelow⟩
      obtain ⟨nested, hnested, htype, hunset, rfl⟩ := PlanOp.step_enter_iff.mp hstep
      -- The operation enters the first attribute of its name. Nothing of this name has been set, so
      -- it is the awaited one.
      obtain rfl : nested = ⟨typeName, fields⟩ := by
        simpa using hnested.symm.trans (hawaits.field?_eq hunset)
      obtain ⟨hready, hexit⟩ := (runOps_compileFields leaves fields entered.awaits_all).mp hbelow
      obtain ⟨next', hstep', hops⟩ := runOps_cons_iff.mp hexit
      obtain ⟨-, rfl⟩ := PlanOp.step_exit_iff.mp hstep'
      exact ⟨⟨hunset, hready.nodup, hready.within⟩, hops⟩
    · rintro ⟨⟨hunset, hnodup, hwithin⟩, hops⟩
      have hready : entered.Ready fields := ⟨fun _ _ => rfl, hnodup, hwithin⟩
      refine ⟨entered :: frame :: outer, PlanOp.step_enter_iff.mpr
        ⟨_, hawaits.field?_eq hunset, rfl, hunset, rfl⟩, ?_⟩
      refine (runOps_compileFields leaves fields entered.awaits_all).mpr ⟨hready, ?_⟩
      exact runOps_cons_iff.mpr ⟨_, PlanOp.step_exit_iff.mpr
        ⟨checkComplete_acceptDefaults leaves _ ⟨typeName, fields⟩, rfl⟩, hops⟩
  | .map value, frame, outer, frames', ops, rest, hawaits => by
    rw [compileNode, List.singleton_append, hawaits.runOps_set_iff trivial, Node.Distinct,
      and_iff_left trivial]
  | .leaf id, frame, outer, frames', ops, rest, hawaits => by
    rw [compileNode, List.singleton_append, hawaits.runOps_set_iff trivial, Node.Distinct,
      and_iff_left trivial]

/-- The operations of the awaited attributes can be carried out if the group is ready for them. Then
it accepts the defaults one after the other. -/
theorem runOps_compileFields (leaves : List Leaf) : (fields : List (String × Node)) →
    ∀ {frame : PlanFrame} {outer frames' : List PlanFrame} {ops : List PlanOp},
      frame.Awaits fields →
      (runOps (compileFields leaves fields ++ ops) (frame :: outer) = .ok frames' ↔
        frame.Ready fields ∧
          runOps ops ({ frame with
            group := acceptDefaults leaves frame.group fields } :: outer) = .ok frames')
  | [], frame, outer, frames', ops, hawaits => by
    have hready : frame.Ready [] := ⟨by simp, List.nodup_nil, by simp⟩
    rw [compileFields, List.nil_append, acceptDefaults, and_iff_right hready]
  | (field, child) :: rest, frame, outer, frames', ops, hawaits => by
    -- The two theorems unfold the plan together: an attribute is stored, and the rest is awaited.
    rw [compileFields, List.append_assoc, runOps_compileNode leaves field child hawaits,
      runOps_compileFields leaves rest (hawaits.accept _), acceptDefaults,
      PlanFrame.ready_cons_iff (defaultOver leaves child)]
    exact and_assoc.symm

end

/-- **A root's own operations** build its default, or there is a fault because a group that is built
repeats an attribute. -/
theorem Root.replay_compile (leaves : List Leaf) {root : Root}
    (htype : root.tree.typeName = root.typeName) :
    (root.tree.Distinct ∧
        root.replay (root.compile leaves).ops = .ok (defaultGroupOver leaves root.tree)) ∨
      (¬root.tree.Distinct ∧ ∃ fault,
        root.replay (root.compile leaves).ops = .error (.malformedPlan root.typeName fault)) := by
  have hready : root.frame.Ready root.tree.fields ↔ root.tree.Distinct := by
    rw [GroupNode.distinct_iff]
    exact ⟨fun h => ⟨h.nodup, h.within⟩, fun h => ⟨fun _ _ => rfl, h.1, h.2⟩⟩
  have hrun (frames' : List PlanFrame) :
      runOps (root.compile leaves).ops [root.frame] = .ok frames' ↔ root.tree.Distinct ∧
        [⟨"", acceptDefaults leaves (.empty root.typeName) root.tree.fields, root.tree⟩] =
          frames' := by
    have hops : (root.compile leaves).ops = compileFields leaves root.tree.fields ++ [] :=
      (List.append_nil _).symm
    rw [hops]
    refine (runOps_compileFields leaves _ root.frame.awaits_all).trans (and_congr hready ?_)
    exact ⟨Except.ok.inj, congrArg Except.ok⟩
  by_cases hdistinct : root.tree.Distinct
  · refine Or.inl ⟨hdistinct, replay_eq_ok ((hrun _).mpr ⟨hdistinct, rfl⟩) ?_⟩
    refine finishRoot_ok_iff.mpr ⟨_, rfl, checkComplete_acceptDefaults leaves _ root.tree, ?_⟩
    rw [← htype]
    obtain ⟨typeName, containingName, rootName, phase, ⟨treeTypeName, fields⟩⟩ := root
    rw [defaultGroupOver]
  · refine Or.inr ⟨hdistinct, ?_⟩
    rcases root.replay_cases (root.compile leaves).ops with ⟨frames, g, hok, -, -⟩ | herror
    · exact absurd ((hrun frames).mp hok).1 hdistinct
    · exact herror

/-- A root is found by its containing name. -/
theorem Definition.root?_eq {d : Definition} (hnames : (d.roots.map (·.containingName)).Nodup)
    {root : Root} (hroot : root ∈ d.roots) : d.root? root.containingName = some root := by
  rw [Definition.root?]
  cases hfind : d.roots.find? fun other => decide (other.containingName = root.containingName) with
  | none => simpa using List.find?_eq_none.mp hfind root hroot
  | some other =>
    have hname : other.containingName = root.containingName := by
      simpa using List.find?_some hfind
    rw [List.inj_on_of_nodup_map hnames (List.mem_of_find?_eq_some hfind) hroot hname]

section Compiled

variable {piece : String → Prop} {idents : List String → Prop} {d : Definition}

/-- A compiled root of a definition is realized with its default, or it is refused. -/
theorem Definition.Sound.realize_root (h : d.Sound piece idents) {root : Root}
    (hroot : root ∈ d.roots) (c : RealizedConfig) :
    (root.tree.Distinct ∧
        (root.compile d.leaves).realize d c = .ok (c.store root (d.defaultGroup root.tree))) ∨
      (¬root.tree.Distinct ∧ ∃ fault,
        (root.compile d.leaves).realize d c = .error (.malformedPlan root.typeName fault)) := by
  have hrealize : (root.compile d.leaves).realize d c =
      (root.replay (root.compile d.leaves).ops).map (c.store root) := by
    have hfound : d.root? (root.compile d.leaves).containingName = some root :=
      root?_eq h.names hroot
    rw [RootPlan.realize, hfound]
  rw [hrealize]
  rcases root.replay_compile d.leaves (h.laid root hroot).typeName with
    ⟨hdistinct, hok⟩ | ⟨hnot, fault, herror⟩
  · rw [hok]
    exact Or.inl ⟨hdistinct, rfl⟩
  · rw [herror]
    exact Or.inr ⟨hnot, fault, rfl⟩

/-- The compiled roots of a definition are realized with their defaults, one after the other, up to
the first one that is built with a group that repeats an attribute. -/
private theorem realize_roots (h : d.Sound piece idents) {roots : List Root}
    (hroots : ∀ root ∈ roots, root ∈ d.roots) (c : RealizedConfig) :
    ((∀ root ∈ roots, root.tree.Distinct) ∧
        (roots.map (Root.compile d.leaves)).foldlM (RootPlan.realize d) c =
          .ok (storeAll d c roots)) ∨
      ∃ before root after fault, roots = before ++ root :: after ∧
        (∀ earlier ∈ before, earlier.tree.Distinct) ∧ ¬root.tree.Distinct ∧
        (roots.map (Root.compile d.leaves)).foldlM (RootPlan.realize d) c =
          .error (.malformedPlan root.typeName fault) := by
  induction roots generalizing c with
  | nil => exact Or.inl ⟨by simp, rfl⟩
  | cons root rest ih =>
    obtain ⟨hroot, hrest⟩ := List.forall_mem_cons.mp hroots
    rw [List.map_cons, List.foldlM_cons]
    rcases h.realize_root hroot c with ⟨hdistinct, hok⟩ | ⟨hnot, fault, herror⟩
    · rw [hok]
      rcases ih hrest (c.store root (d.defaultGroup root.tree)) with
        ⟨hall, hrun⟩ | ⟨before, other, after, fault, rfl, hbefore, hnot, hrun⟩
      · exact Or.inl ⟨List.forall_mem_cons.mpr ⟨hdistinct, hall⟩, hrun⟩
      · exact Or.inr ⟨root :: before, other, after, fault, rfl,
          List.forall_mem_cons.mpr ⟨hdistinct, hbefore⟩, hnot, hrun⟩
    · rw [herror]
      exact Or.inr ⟨[], root, rest, fault, rfl, by simp, hnot, rfl⟩

/-- A definition's own plan realizes what walking its trees realizes, or it is refused at the first
root of the stage that is built with a group that repeats an attribute. -/
theorem Definition.Sound.realize_compile (h : d.Sound piece idents) (stage : Stage)
    (hash : Signature → UInt64) :
    ((∀ root ∈ d.roots.filter fun root => stage.includes root.phase, root.tree.Distinct) ∧
        (d.compile hash).realize d stage hash = .ok (d.realize stage)) ∨
      ∃ before root after fault,
        d.roots.filter (fun root => stage.includes root.phase) = before ++ root :: after ∧
        (∀ earlier ∈ before, earlier.tree.Distinct) ∧ ¬root.tree.Distinct ∧
        (d.compile hash).realize d stage hash = .error (.malformedPlan root.typeName fault) := by
  have hfilter : (d.compile hash).roots.filter (fun root => stage.includes root.phase) =
      (d.roots.filter fun root => stage.includes root.phase).map (Root.compile d.leaves) :=
    List.filter_map
  rw [Plan.realize, if_neg fun hne => hne rfl, hfilter]
  exact realize_roots h (fun root hroot => (List.mem_filter.mp hroot).1) .empty

/-- A definition's own plan realizes what walking its trees realizes, if it realizes anything. -/
theorem Definition.Sound.realize_of_compile (h : d.Sound piece idents) {stage : Stage}
    {hash : Signature → UInt64} {c : RealizedConfig}
    (hc : (d.compile hash).realize d stage hash = .ok c) : c = d.realize stage := by
  rcases h.realize_compile stage hash with ⟨-, hok⟩ | ⟨_, _, _, _, -, -, -, herror⟩
  · exact Except.ok.inj (hc.symm.trans hok)
  · cases hc.symm.trans herror

/-- A definition's own plan is realized if no group that is built for the stage repeats an
attribute. -/
theorem Definition.Sound.compile_realize_eq_ok (h : d.Sound piece idents) {stage : Stage}
    (hdistinct : ∀ root ∈ d.roots, stage.includes root.phase = true → root.tree.Distinct)
    (hash : Signature → UInt64) :
    (d.compile hash).realize d stage hash = .ok (d.realize stage) := by
  rcases h.realize_compile stage hash with
    ⟨-, hok⟩ | ⟨before, root, after, fault, hsplit, -, hnot, -⟩
  · exact hok
  · have hroot : root ∈ d.roots.filter fun root => stage.includes root.phase := by
      rw [hsplit]
      exact List.mem_append_right _ List.mem_cons_self
    obtain ⟨hmem, hstage⟩ := List.mem_filter.mp hroot
    exact absurd (hdistinct root hmem hstage) hnot

/-- The compiled roots of a definition have distinct names. -/
theorem Definition.Sound.compile_names (h : d.Sound piece idents) (hash : Signature → UInt64) :
    ((d.compile hash).roots.map (·.containingName)).Nodup := by
  rw [compile, List.map_map]
  exact h.names

end Compiled

/-- **Replaying a definition's own plan** realizes what walking its trees realizes, exactly if no
group that is built for the stage repeats an attribute. Otherwise the first root that is built with
such a group is refused. -/
theorem Built.compile_realize {good : RootDecl → Prop} {d : Definition} (h : Built good d)
    (stage : Stage) (hash : Signature → UInt64) :
    ((d.compile hash).realize d stage hash = .ok (d.realize stage) ↔
        ∀ root ∈ d.roots, stage.includes root.phase = true → root.tree.Distinct) ∧
      ((d.compile hash).realize d stage hash ≠ .ok (d.realize stage) →
        ∃ before root after fault,
          d.roots.filter (fun root => stage.includes root.phase) = before ++ root :: after ∧
          (∀ earlier ∈ before, earlier.tree.Distinct) ∧ ¬root.tree.Distinct ∧
          (d.compile hash).realize d stage hash =
            .error (.malformedPlan root.typeName fault)) := by
  refine ⟨⟨fun hok => ?_, fun hdistinct => h.sound_any.compile_realize_eq_ok hdistinct hash⟩,
    fun hne => ?_⟩
  · rcases h.sound_any.realize_compile stage hash with ⟨hall, -⟩ | ⟨_, _, _, _, -, -, -, herror⟩
    · exact fun root hroot hstage => hall root (List.mem_filter.mpr ⟨hroot, hstage⟩)
    · cases hok.symm.trans herror
  · exact (h.sound_any.realize_compile stage hash).resolve_left fun hok => hne hok.2

/-- A root `a` that declares two attributes with one identifier, under two names. -/
def repeatDecl : RootDecl where
  group := ⟨"AConfig", false,
    [⟨"x", .element, none, .object .string, false, none⟩,
      ⟨"x", .explicit "y", none, .primitive .int, false, none⟩]⟩
  name := .explicit "a"
  phase := .runTime

/-- A root that repeats an attribute is accepted, but its own plan does not fit it. -/
theorem compile_realize_repeatDecl :
    let d := (empty.registerRoot repeatDecl).1
    Built (fun _ => True) d ∧
      ∃ fault, d.compile.realize d .build = .error (.malformedPlan "AConfig" fault) := by
  intro d
  have hbuilt : Built (fun _ => True) d :=
    .register .empty trivial (Prod.ext rfl (by decide +kernel))
  have hroots : d.roots.map (fun root => (root.typeName, root.tree.fields.map (·.1))) =
      [("AConfig", ["x", "x"])] := by
    decide +kernel
  obtain ⟨root, hroot, hfields⟩ := List.map_eq_singleton_iff.mp hroots
  obtain ⟨htype, hidents⟩ := Prod.mk.inj hfields
  have hnot : ¬root.tree.Distinct := fun hdistinct => by
    have hnodup := hdistinct _ (.refl _)
    rw [hidents] at hnodup
    exact absurd hnodup (by decide)
  obtain ⟨hiff, hrefused⟩ := hbuilt.compile_realize .build Signature.mix
  have hmem : root ∈ d.roots := by rw [hroot]; exact List.mem_singleton.mpr rfl
  obtain ⟨before, other, after, fault, hsplit, -, -, herror⟩ :=
    hrefused fun hok => hnot (hiff.mp hok root hmem rfl)
  have hother : other ∈ d.roots.filter fun root => Stage.build.includes root.phase := by
    rw [hsplit]
    exact List.mem_append_right _ List.mem_cons_self
  obtain rfl : other = root := by
    have hother := (List.mem_filter.mp hother).1
    rw [hroot] at hother
    exact List.mem_singleton.mp hother
  refine ⟨hbuilt, fault, ?_⟩
  rw [← htype]
  exact herror

end PropertyBinding

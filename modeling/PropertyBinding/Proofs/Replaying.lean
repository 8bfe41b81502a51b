import PropertyBinding.Plan
import PropertyBinding.Proofs.Slots

/-!
# Replaying operations

A replay accepts exactly the operations that spell the tree of the root (`Items`): one item for
every attribute, in any order, which for a group holds the items of the group between its `enter`
and its `exit`. The result has its fields in the order of the items (`Root.replay_accepts`).

That such operations are carried out follows the items (`Items.run`). That no others are is read off
the groups under construction: the operations that are left complete them, the innermost first
(`Completes`, `completes_of_finishRoot`).
-/

namespace PropertyBinding

/-! ### Items -/

/-- Whether an attribute is set to a value, and not entered. -/
def Node.IsSlot : Node → Prop
  | .group _ => False
  | .map _ | .leaf _ => True

/-- Whether there is exactly one field for every attribute of a group. -/
structure GroupNode.EachOnce (node : GroupNode) (fields : Entries Value) : Prop where
  distinct : (Entries.keys fields).Nodup
  all : ∀ field ∈ node.fields, field.1 ∈ Entries.keys fields

/-- Whether operations are items for attributes of a group, each by its first declaration, and
build fields in their order. -/
inductive Items : GroupNode → Entries Value → List PlanOp → Prop where
  | nil (node : GroupNode) : Items node [] []
  /-- A leaf or a map is set to a value. -/
  | set {node : GroupNode} {field : String} {child : Node} {fields : Entries Value}
      {ops : List PlanOp} (declared : node.field? field = some child) (slot : child.IsSlot)
      (value : Value) (rest : Items node fields ops) :
      Items node ((field, value) :: fields) (.set field value :: ops)
  /-- A group is entered, each of its attributes gets its item, and it is left again. -/
  | group {node nested : GroupNode} {field : String} {inner fields : Entries Value}
      {innerOps ops : List PlanOp} (declared : node.field? field = some (.group nested))
      (within : Items nested inner innerOps) (once : nested.EachOnce inner)
      (rest : Items node fields ops) :
      Items node ((field, .group ⟨nested.typeName, inner⟩) :: fields)
        (.enter field nested.typeName :: (innerOps ++ .exit :: ops))

/-! ### Single operations -/

/-- A group under construction that has accepted a field. -/
def PlanFrame.accept (frame : PlanFrame) (field : String) (value : Value) : PlanFrame :=
  { frame with group := frame.group.accept field value }

/-- A group under construction with more fields behind its own. -/
def PlanFrame.append (frame : PlanFrame) (fields : Entries Value) : PlanFrame :=
  { frame with group := ⟨frame.group.typeName, frame.group.fields ++ fields⟩ }

section Steps

variable {frame parent : PlanFrame} {outer frames next : List PlanFrame} {field : String}
  {value : Value}

@[simp]
theorem PlanFrame.append_nil (frame : PlanFrame) : frame.append [] = frame := by
  obtain ⟨field, ⟨typeName, fields⟩, node⟩ := frame
  simp [append]

@[simp]
theorem PlanFrame.append_append (frame : PlanFrame) (as bs : Entries Value) :
    (frame.append as).append bs = frame.append (as ++ bs) := by
  rw [append, append, append, List.append_assoc]

/-- A field that has not been set is accepted behind the others. -/
theorem PlanFrame.accept_eq_append (h : frame.group.get? field = none) (value : Value) :
    frame.accept field value = frame.append [(field, value)] := by
  rw [accept, append, Group.accept, Entries.put_eq_append h]

/-- A group is complete if all its attributes have been set. -/
theorem checkComplete_ok_iff {g : Group} {node : GroupNode} :
    checkComplete g node = .ok () ↔ ∀ field ∈ node.fields, (g.get? field.1).isSome := by
  rw [checkComplete]
  cases hfind : node.fields.find? fun field => (g.get? field.1).isNone with
  | none => simpa [Option.isSome_iff_ne_none] using List.find?_eq_none.mp hfind
  | some field =>
    refine iff_of_false (fun h => ?_) fun hall => ?_
    · cases h
    · have hset := hall field (List.mem_of_find?_eq_some hfind)
      have hunset := List.find?_some hfind
      rw [Option.isNone_iff_eq_none] at hunset
      rw [hunset] at hset
      cases hset

/-- A group is entered as the first attribute of its name, which has not been set. -/
theorem PlanOp.step_enter_iff {typeName : String} :
    (PlanOp.enter field typeName).step (frame :: outer) = .ok next ↔
      ∃ nested, frame.node.field? field = some (.group nested) ∧ nested.typeName = typeName ∧
        frame.group.get? field = none ∧
        next = ⟨field, .empty typeName, nested⟩ :: frame :: outer := by
  rw [PlanOp.step]
  cases hfield : frame.node.field? field with
  | none => simp
  | some child =>
    cases child with
    | group nested =>
      by_cases htype : nested.typeName = typeName
      · cases hset : frame.group.get? field <;> simp [htype, eq_comm]
      · simp [htype]
    | _ => simp

/-- A value is set as the first attribute of its name, which is a leaf or a map and has not been
set. -/
theorem PlanOp.step_set_iff :
    (PlanOp.set field value).step (frame :: outer) = .ok next ↔
      ∃ child, frame.node.field? field = some child ∧ child.IsSlot ∧
        frame.group.get? field = none ∧ next = frame.append [(field, value)] :: outer := by
  rw [PlanOp.step]
  cases hfield : frame.node.field? field with
  | none => simp
  | some child =>
    cases child with
    | group nested => simp [Node.IsSlot]
    | _ =>
      cases hset : frame.group.get? field with
      | none =>
        rw [← PlanFrame.accept_eq_append hset]
        simp [Node.IsSlot, PlanFrame.accept, eq_comm]
      | some v => simp

/-- A finished group is stored in the group around it. -/
theorem PlanOp.step_exit_iff :
    PlanOp.exit.step (frame :: parent :: outer) = .ok next ↔
      checkComplete frame.group frame.node = .ok () ∧
        next = parent.accept frame.field (.group frame.group) :: outer := by
  rw [PlanOp.step]
  cases checkComplete frame.group frame.node <;> simp [PlanFrame.accept, eq_comm]

/-- A root is finished if no group in it is under construction and it is complete. -/
theorem finishRoot_ok_iff {g : Group} :
    finishRoot frames = .ok g ↔
      ∃ frame, frames = [frame] ∧ checkComplete frame.group frame.node = .ok () ∧
        frame.group = g := by
  match frames with
  | [] => simp [finishRoot]
  | [frame] =>
    rw [finishRoot]
    cases hcheck : checkComplete frame.group frame.node <;>
      simp [hcheck, Functor.map, Except.map]
  | _ :: _ :: _ => simp [finishRoot]

/-- Operations are carried out if the first one and then the others are. -/
theorem runOps_cons_iff {op : PlanOp} {ops : List PlanOp} {frames' : List PlanFrame} :
    runOps (op :: ops) frames = .ok frames' ↔
      ∃ next, op.step frames = .ok next ∧ runOps ops next = .ok frames' := by
  rw [runOps, List.foldlM_cons]
  cases op.step frames with
  | error fault =>
    refine iff_of_false (fun h => nomatch h) ?_
    rintro ⟨next, hnext, -⟩
    cases hnext
  | ok next =>
    refine ⟨fun h => ⟨next, rfl, h⟩, ?_⟩
    rintro ⟨next', hnext, h⟩
    obtain rfl := Except.ok.inj hnext
    exact h

/-- Operations are carried out if the first part and then the rest are. -/
theorem runOps_append_iff {ops more : List PlanOp} {frames' : List PlanFrame} :
    runOps (ops ++ more) frames = .ok frames' ↔
      ∃ mid, runOps ops frames = .ok mid ∧ runOps more mid = .ok frames' := by
  induction ops generalizing frames with
  | nil =>
    refine ⟨fun h => ⟨frames, rfl, h⟩, ?_⟩
    rintro ⟨mid, hmid, h⟩
    obtain rfl := Except.ok.inj hmid
    exact h
  | cons op ops ih =>
    rw [List.cons_append, runOps_cons_iff]
    constructor
    · rintro ⟨next, hstep, hrest⟩
      obtain ⟨mid, hmid, hmore⟩ := ih.mp hrest
      exact ⟨mid, runOps_cons_iff.mpr ⟨next, hstep, hmid⟩, hmore⟩
    · rintro ⟨mid, hmid, hmore⟩
      obtain ⟨next, hstep, hrest⟩ := runOps_cons_iff.mp hmid
      exact ⟨next, hstep, ih.mpr ⟨mid, hrest, hmore⟩⟩

end Steps

/-! ### Items are carried out -/

/-- A name that is the key of one of more fields has not been set, if all keys are distinct. -/
private theorem get?_eq_none {g : Group} {field : String} {value : Value} {fields : Entries Value}
    (h : (Entries.keys (g.fields ++ (field, value) :: fields)).Nodup) : g.get? field = none := by
  refine Option.eq_none_iff_forall_not_mem.mpr fun v hset => ?_
  have hkey : field ∈ Entries.keys g.fields :=
    Entries.isSome_lookup_iff.mp (Option.isSome_iff_exists.mpr ⟨v, hset⟩)
  rw [Entries.keys, List.map_append, List.map_cons] at h
  exact (List.nodup_append.mp h).2.2 _ hkey _ List.mem_cons_self rfl

/-- **Items are carried out**: their group accepts the fields, if none of them has been set. -/
theorem Items.run {node : GroupNode} {fields : Entries Value} {ops : List PlanOp}
    (h : Items node fields ops) (frame : PlanFrame) (hnode : frame.node = node)
    (hdistinct : (Entries.keys (frame.group.fields ++ fields)).Nodup) (outer : List PlanFrame) :
    runOps ops (frame :: outer) = .ok (frame.append fields :: outer) := by
  induction h generalizing frame outer with
  | nil node => rw [PlanFrame.append_nil]; rfl
  | @set node field child fields ops declared slot value rest ih =>
    subst hnode
    refine runOps_cons_iff.mpr ⟨frame.append [(field, value)] :: outer, ?_, ?_⟩
    · exact PlanOp.step_set_iff.mpr ⟨child, declared, slot, get?_eq_none hdistinct, rfl⟩
    · have hrest := ih (frame.append [(field, value)]) rfl
        (by simpa [PlanFrame.append] using hdistinct) outer
      simpa using hrest
  | @group node nested field inner fields innerOps ops declared within once rest ihwithin ihrest =>
    subst hnode
    have hunset := get?_eq_none hdistinct
    let entered : PlanFrame := ⟨field, .empty nested.typeName, nested⟩
    refine runOps_cons_iff.mpr ⟨entered :: frame :: outer, ?_, ?_⟩
    · exact PlanOp.step_enter_iff.mpr ⟨nested, declared, rfl, hunset, rfl⟩
    refine runOps_append_iff.mpr ⟨entered.append inner :: frame :: outer, ?_, ?_⟩
    · exact ihwithin entered rfl once.distinct (frame :: outer)
    refine runOps_cons_iff.mpr
      ⟨frame.append [(field, .group ⟨nested.typeName, inner⟩)] :: outer, ?_, ?_⟩
    · refine PlanOp.step_exit_iff.mpr ⟨checkComplete_ok_iff.mpr fun field' hfield => ?_, ?_⟩
      · exact Entries.isSome_lookup_iff.mpr (once.all field' hfield)
      · rw [← PlanFrame.accept_eq_append hunset]
        rfl
    · have hrest := ihrest (frame.append [(field, .group ⟨nested.typeName, inner⟩)]) rfl
        (by simpa [PlanFrame.append] using hdistinct) outer
      simpa using hrest

/-! ### Nothing else is carried out -/

/-- Whether operations complete the groups under construction, the innermost first: the remaining
items of a group, then its `exit` and what completes the groups around it. The last group is that
of the root. -/
inductive Completes : List PlanFrame → List PlanOp → Group → Prop where
  | root {frame : PlanFrame} {fields : Entries Value} {ops : List PlanOp}
      (items : Items frame.node fields ops)
      (once : frame.node.EachOnce (frame.append fields).group.fields) :
      Completes [frame] ops (frame.append fields).group
  | nested {frame parent : PlanFrame} {outer : List PlanFrame} {fields : Entries Value}
      {ops rest : List PlanOp} {g : Group} (items : Items frame.node fields ops)
      (once : frame.node.EachOnce (frame.append fields).group.fields)
      (around : Completes
        (parent.accept frame.field (.group (frame.append fields).group) :: outer) rest g) :
      Completes (frame :: parent :: outer) (ops ++ .exit :: rest) g

/-- A root with all its fields is complete. -/
theorem Completes.finished {frame : PlanFrame} (once : frame.node.EachOnce frame.group.fields) :
    Completes [frame] [] frame.group := by
  rw [← frame.append_nil] at once
  have h := Completes.root (.nil frame.node) once
  rwa [frame.append_nil] at h

/-- A group with all its fields is left, and what is around it is completed. -/
theorem Completes.exit {frame parent : PlanFrame} {outer : List PlanFrame} {ops : List PlanOp}
    {g : Group} (once : frame.node.EachOnce frame.group.fields)
    (around : Completes (parent.accept frame.field (.group frame.group) :: outer) ops g) :
    Completes (frame :: parent :: outer) (.exit :: ops) g := by
  rw [← frame.append_nil] at once around
  exact .nested (.nil frame.node) once around

/-- Items come before what completes their group. -/
theorem Completes.prepend {frame : PlanFrame} {outer : List PlanFrame} {ops : List PlanOp}
    {g : Group} (added : Entries Value) (before : List PlanOp)
    (hitems : ∀ {fields ops}, Items frame.node fields ops →
      Items frame.node (added ++ fields) (before ++ ops))
    (h : Completes (frame.append added :: outer) ops g) :
    Completes (frame :: outer) (before ++ ops) g := by
  cases h with
  | root items once =>
    rw [PlanFrame.append_append] at once ⊢
    exact .root (hitems items) once
  | nested items once around =>
    rw [PlanFrame.append_append] at once around
    rw [← List.append_assoc]
    exact .nested (hitems items) once around

/-- A complete group with distinct fields has each of its attributes once. -/
theorem eachOnce_of_checkComplete {g : Group} {node : GroupNode}
    (hdistinct : (Entries.keys g.fields).Nodup) (hcheck : checkComplete g node = .ok ()) :
    node.EachOnce g.fields where
  distinct := hdistinct
  all := fun field hfield =>
    Entries.isSome_lookup_iff.mp (checkComplete_ok_iff.mp hcheck field hfield)

/-- **Operations that finish a root** complete the groups under construction. -/
theorem completes_of_finishRoot {ops : List PlanOp} {frames frames' : List PlanFrame} {g : Group}
    (hdistinct : ∀ frame ∈ frames, (Entries.keys frame.group.fields).Nodup)
    (hrun : runOps ops frames = .ok frames') (hfinish : finishRoot frames' = .ok g) :
    Completes frames ops g := by
  induction ops generalizing frames with
  | nil =>
    obtain rfl := Except.ok.inj hrun
    obtain ⟨frame, rfl, hcheck, rfl⟩ := finishRoot_ok_iff.mp hfinish
    have hframe := hdistinct frame (List.mem_singleton.mpr rfl)
    exact .finished (eachOnce_of_checkComplete hframe hcheck)
  | cons op ops ih =>
    obtain ⟨next, hstep, hrest⟩ := runOps_cons_iff.mp hrun
    cases frames with
    | nil => cases op <;> cases hstep
    | cons frame outer =>
      obtain ⟨hframe, houter⟩ := List.forall_mem_cons.mp hdistinct
      cases op with
      | set field value =>
        obtain ⟨child, hchild, hslot, hunset, rfl⟩ := PlanOp.step_set_iff.mp hstep
        have hcompletes : Completes (frame.append [(field, value)] :: outer) ops g := by
          refine ih ?_ hrest
          rw [← PlanFrame.accept_eq_append hunset]
          exact List.forall_mem_cons.mpr ⟨Entries.nodup_keys_put hframe field value, houter⟩
        exact .prepend [(field, value)] [.set field value]
          (fun items => .set hchild hslot value items) hcompletes
      | enter field typeName =>
        obtain ⟨nested, hnested, rfl, hunset, rfl⟩ := PlanOp.step_enter_iff.mp hstep
        have hempty : (Entries.keys (Group.empty nested.typeName).fields).Nodup := List.nodup_nil
        have hcompletes := ih (List.forall_mem_cons.mpr ⟨hempty, hdistinct⟩) hrest
        -- The group that has been entered is completed first; with its `exit` it is an item.
        cases hcompletes with
        | @nested _ _ _ fields innerOps rest _ items once around =>
          rw [PlanFrame.accept_eq_append hunset] at around
          have hitem := around.prepend _ (.enter field nested.typeName :: (innerOps ++ [.exit]))
            fun {more ops} rest => by
              simpa [PlanFrame.append, Group.empty] using Items.group hnested items once rest
          simpa using hitem
      | exit =>
        cases outer with
        | nil => cases hstep
        | cons parent outer =>
          obtain ⟨hcheck, rfl⟩ := PlanOp.step_exit_iff.mp hstep
          obtain ⟨hparent, houter⟩ := List.forall_mem_cons.mp houter
          refine .exit (eachOnce_of_checkComplete hframe hcheck) (ih ?_ hrest)
          exact List.forall_mem_cons.mpr ⟨Entries.nodup_keys_put hparent _ _, houter⟩

/-! ### Replaying a root -/

/-- Every operation leaves a group under construction. -/
theorem PlanOp.step_ne_nil {op : PlanOp} {frames next : List PlanFrame}
    (h : op.step frames = .ok next) : next ≠ [] := by
  cases frames with
  | nil => cases op <;> cases h
  | cons frame outer =>
    cases op with
    | enter field typeName =>
      obtain ⟨nested, -, -, -, rfl⟩ := PlanOp.step_enter_iff.mp h
      exact List.cons_ne_nil _ _
    | set field value =>
      obtain ⟨child, -, -, -, rfl⟩ := PlanOp.step_set_iff.mp h
      exact List.cons_ne_nil _ _
    | exit =>
      cases outer with
      | nil => cases h
      | cons parent outer =>
        obtain ⟨-, rfl⟩ := PlanOp.step_exit_iff.mp h
        exact List.cons_ne_nil _ _

/-- Operations leave a group under construction, if there was one. -/
theorem runOps_ne_nil {ops : List PlanOp} {frames frames' : List PlanFrame} (hne : frames ≠ [])
    (h : runOps ops frames = .ok frames') : frames' ≠ [] := by
  induction ops generalizing frames with
  | nil =>
    obtain rfl := Except.ok.inj h
    exact hne
  | cons op ops ih =>
    obtain ⟨next, hstep, hrest⟩ := runOps_cons_iff.mp h
    exact ih (PlanOp.step_ne_nil hstep) hrest

/-- Operations that finish a root are its replay. -/
theorem Root.replay_eq_ok {root : Root} {ops : List PlanOp} {frames : List PlanFrame} {g : Group}
    (hrun : runOps ops [root.frame] = .ok frames) (hfinish : finishRoot frames = .ok g) :
    root.replay ops = .ok g := by
  have hbind : (runOps ops [root.frame] >>= finishRoot) = .ok g := by
    rw [hrun]
    exact hfinish
  rw [replay, hbind]

/-- A replay comes to a finished root, or to a fault that is reported for the root. -/
theorem Root.replay_cases (root : Root) (ops : List PlanOp) :
    (∃ frames g, runOps ops [root.frame] = .ok frames ∧ finishRoot frames = .ok g ∧
        root.replay ops = .ok g) ∨
      ∃ fault, root.replay ops = .error (.malformedPlan root.typeName fault) := by
  cases hrun : runOps ops [root.frame] with
  | error fault => exact Or.inr ⟨fault, by rw [replay, hrun]; rfl⟩
  | ok frames =>
    cases hfinish : finishRoot frames with
    | error fault =>
      have hbind : (runOps ops [root.frame] >>= finishRoot) = .error fault := by
        rw [hrun]
        exact hfinish
      exact Or.inr ⟨fault, by rw [replay, hbind]⟩
    | ok g => exact Or.inl ⟨frames, g, rfl, hfinish, replay_eq_ok hrun hfinish⟩

/-- A root is replayed exactly by the items of its tree. -/
theorem Root.replay_ok_iff {root : Root} {ops : List PlanOp} {g : Group} :
    root.replay ops = .ok g ↔
      ∃ fields, g = ⟨root.typeName, fields⟩ ∧ Items root.tree fields ops ∧
        root.tree.EachOnce fields := by
  constructor
  · intro h
    rcases root.replay_cases ops with ⟨frames, g', hrun, hfinish, hok⟩ | ⟨fault, herror⟩
    · obtain rfl := Except.ok.inj (hok.symm.trans h)
      have hempty : ∀ frame ∈ [root.frame], (Entries.keys frame.group.fields).Nodup := by
        simp [Root.frame, Group.empty, Entries.keys]
      cases completes_of_finishRoot hempty hrun hfinish with
      | @root _ fields _ items once => exact ⟨fields, rfl, items, once⟩
    · cases herror.symm.trans h
  · rintro ⟨fields, rfl, items, once⟩
    have hrun := items.run root.frame rfl once.distinct []
    have hfinish : finishRoot [root.frame.append fields] = .ok ⟨root.typeName, fields⟩ := by
      refine finishRoot_ok_iff.mpr ⟨_, rfl, checkComplete_ok_iff.mpr fun field hfield => ?_, rfl⟩
      exact Entries.isSome_lookup_iff.mpr (once.all field hfield)
    exact replay_eq_ok hrun hfinish

/-- **What a replay accepts.** The operations are items of the root's tree with each of its
attributes once; then the result has the fields that they build. All others are refused for the
root. No operation ever finds that all groups have been left. -/
theorem Root.replay_accepts (root : Root) (ops : List PlanOp) :
    (∀ g, root.replay ops = .ok g ↔
        ∃ fields, g = ⟨root.typeName, fields⟩ ∧ Items root.tree fields ops ∧
          root.tree.EachOnce fields) ∧
      ((¬∃ fields, Items root.tree fields ops ∧ root.tree.EachOnce fields) →
        ∃ fault, root.replay ops = .error (.malformedPlan root.typeName fault)) ∧
      ∀ before op after, ops = before ++ op :: after → runOps before [root.frame] ≠ .ok [] := by
  refine ⟨fun g => replay_ok_iff, fun hnot => ?_, fun before op after _ hrun => ?_⟩
  · rcases root.replay_cases ops with ⟨frames, g, -, -, hok⟩ | herror
    · obtain ⟨fields, -, items, once⟩ := replay_ok_iff.mp hok
      exact absurd ⟨fields, items, once⟩ hnot
    · exact herror
  · exact runOps_ne_nil (List.cons_ne_nil _ _) hrun rfl

end PropertyBinding

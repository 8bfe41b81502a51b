import PropertyBinding.Proofs.StoredPlan

/-!
# Plans of other definitions

A plan that has been compiled from one definition can be replayed on another one with the same
signature. If it is accepted, it realizes what walking the trees of the first definition realizes
(`Definition.realize_foreign`), since the operations of a node store its default wherever they can
be carried out (`runOps_of_compileNode`).

What walking the second definition realizes is the same exactly if the trees of the roots are alike
(`Node.Alike`, `GroupNode.alike_iff`). The signature does not say so: it names the leaves in the
order of registration and by their patterns, not the roots that own them, and no maps without
leaves. So a leaf can stand where the other definition has a map (`firstOwner_realize_ne`).
-/

namespace PropertyBinding

open Definition

/-! ### Operations of another tree -/

section Operations

variable (leaves : List Leaf) {frame : PlanFrame} {outer frames' : List PlanFrame}
  {ops : List PlanOp}

/-- A value that has been set in a group under construction. -/
theorem runOps_of_set {field : String} {value : Value}
    (h : runOps (.set field value :: ops) (frame :: outer) = .ok frames') :
    runOps ops (frame.accept field value :: outer) = .ok frames' := by
  obtain ⟨next, hstep, hops⟩ := runOps_cons_iff.mp h
  obtain ⟨-, -, -, hunset, rfl⟩ := PlanOp.step_set_iff.mp hstep
  rwa [PlanFrame.accept_eq_append hunset]

mutual

/-- **The operations of a node** let any group accept the default of the node, if they are carried
out in it. -/
theorem runOps_of_compileNode (field : String) : (child : Node) →
    ∀ {frame : PlanFrame} {outer frames' : List PlanFrame} {ops : List PlanOp},
      runOps (compileNode leaves field child ++ ops) (frame :: outer) = .ok frames' →
        runOps ops (frame.accept field (defaultOver leaves child) :: outer) = .ok frames'
  | .group ⟨typeName, fields⟩, frame, outer, frames', ops, h => by
    rw [compileNode, List.cons_append, List.append_assoc] at h
    obtain ⟨next, hstep, hbelow⟩ := runOps_cons_iff.mp h
    obtain ⟨nested, -, -, -, rfl⟩ := PlanOp.step_enter_iff.mp hstep
    -- Whatever descriptor is entered, the group in it accepts the defaults of the attributes.
    obtain ⟨next', hstep', hops⟩ := runOps_cons_iff.mp (runOps_of_compileFields fields hbelow)
    obtain ⟨-, rfl⟩ := PlanOp.step_exit_iff.mp hstep'
    rw [defaultOver, defaultGroupOver]
    exact hops
  | .map value, frame, outer, frames', ops, h => by
    rw [compileNode, List.singleton_append] at h
    exact runOps_of_set h
  | .leaf id, frame, outer, frames', ops, h => by
    rw [compileNode, List.singleton_append] at h
    exact runOps_of_set h

/-- The operations of attributes let any group accept their defaults, one after the other. -/
theorem runOps_of_compileFields : (fields : List (String × Node)) →
    ∀ {frame : PlanFrame} {outer frames' : List PlanFrame} {ops : List PlanOp},
      runOps (compileFields leaves fields ++ ops) (frame :: outer) = .ok frames' →
        runOps ops ({ frame with
          group := acceptDefaults leaves frame.group fields } :: outer) = .ok frames'
  | [], frame, outer, frames', ops, h => by
    rw [compileFields, List.nil_append] at h
    rw [acceptDefaults]
    exact h
  | (field, child) :: rest, frame, outer, frames', ops, h => by
    rw [compileFields, List.append_assoc] at h
    rw [acceptDefaults]
    exact runOps_of_compileFields rest (runOps_of_compileNode field child h)

end

/-- The operations of a root, replayed for another root of the same type, build the default of the
first. -/
theorem Root.replay_foreign {root other : Root} {g : Group}
    (htype : root.tree.typeName = other.typeName)
    (h : other.replay (root.compile leaves).ops = .ok g) :
    g = defaultGroupOver leaves root.tree := by
  rcases other.replay_cases (root.compile leaves).ops with
    ⟨frames, g', hrun, hfinish, hok⟩ | ⟨fault, herror⟩
  · obtain rfl := Except.ok.inj (hok.symm.trans h)
    rw [Root.compile, ← List.append_nil (compileFields leaves root.tree.fields)] at hrun
    obtain rfl := Except.ok.inj (runOps_of_compileFields leaves root.tree.fields hrun)
    obtain ⟨frame, hframe, -, rfl⟩ := finishRoot_ok_iff.mp hfinish
    obtain ⟨rfl, -⟩ := List.cons.inj hframe
    obtain ⟨typeName, containingName, rootName, phase, ⟨treeTypeName, fields⟩⟩ := root
    obtain rfl : treeTypeName = other.typeName := htype
    rw [defaultGroupOver]
    rfl
  · cases herror.symm.trans h

end Operations

/-! ### Definitions with one signature -/

section Signature

variable {piece : String → Prop} {idents : List String → Prop} {A B : Definition} {a b : Root}
  {stage : Stage} {hash : Signature → UInt64}

/-- Roots of one containing name have one type and one phase, if the signatures are the same. -/
theorem Definition.Sound.root_eq_of_signature (hB : B.Sound piece idents)
    (hsignature : A.signature = B.signature) (ha : a ∈ A.roots) (hb : b ∈ B.roots)
    (hname : a.containingName = b.containingName) :
    a.typeName = b.typeName ∧ a.phase = b.phase := by
  have hroots := congrArg Signature.roots hsignature
  dsimp only [signature] at hroots
  have hmem := List.mem_map_of_mem (f := fun r : Root =>
    (⟨r.containingName, r.rootName, r.typeName, r.phase⟩ : RootSignature)) ha
  rw [hroots] at hmem
  obtain ⟨b', hb', heq⟩ := List.mem_map.mp hmem
  obtain ⟨hname', -, htype, hphase⟩ := RootSignature.mk.inj heq
  obtain rfl := List.inj_on_of_nodup_map hB.names hb' hb (hname'.trans hname)
  exact ⟨htype.symm, hphase.symm⟩

/-- The compiled roots of a definition, realized for another one with the same signature, are stored
with the defaults of the first, one after the other. -/
private theorem foldlM_foreign (hA : A.Sound piece idents) (hB : B.Sound piece idents)
    (hsignature : A.signature = B.signature) {roots : List Root}
    (hroots : ∀ root ∈ roots, root ∈ A.roots) {c c' : RealizedConfig}
    (h : (roots.map (Root.compile A.leaves)).foldlM (RootPlan.realize B) c = .ok c') :
    c' = roots.foldl (fun c root => c.store root (A.defaultGroup root.tree)) c := by
  induction roots generalizing c with
  | nil => exact (Except.ok.inj h).symm
  | cons a rest ih =>
    obtain ⟨ha, hrest⟩ := List.forall_mem_cons.mp hroots
    rw [List.map_cons, List.foldlM_cons] at h
    obtain ⟨next, hnext, h⟩ := ok_of_bind_eq_ok h
    obtain ⟨b, hb, hname, g, hreplay, rfl⟩ := RootPlan.realize_ok hnext
    obtain ⟨htype, -⟩ := hB.root_eq_of_signature hsignature ha hb hname.symm
    have hg := Root.replay_foreign A.leaves ((hA.laid a ha).typeName.trans htype) hreplay
    have hstore : c.store b g = c.store a (A.defaultGroup a.tree) := by
      rw [RealizedConfig.store, RealizedConfig.store, htype, hname, hg]
      rfl
    rw [hstore] at h
    exact ih hrest h

/-- **What the plan of another definition realizes** is what walking that other definition
realizes. -/
theorem Definition.realize_foreign (hA : A.Sound piece idents) (hB : B.Sound piece idents)
    (hsignature : A.signature = B.signature) {c : RealizedConfig}
    (hc : (A.compile hash).realize B stage hash = .ok c) : c = A.realize stage := by
  have hfingerprint : (A.compile hash).fingerprint = B.fingerprint hash :=
    congrArg hash hsignature
  have hfilter : (A.compile hash).roots.filter (fun root => stage.includes root.phase) =
      (A.roots.filter fun root => stage.includes root.phase).map (Root.compile A.leaves) :=
    List.filter_map
  rw [Plan.realize, if_neg (not_not.mpr hfingerprint), hfilter] at hc
  exact foldlM_foreign hA hB hsignature (fun root hroot => (List.mem_filter.mp hroot).1) hc

/-- Two definitions with one signature realize the same if they have the same defaults. -/
private theorem foldl_store_congr {as bs : List Root}
    (hroots : as.map (fun r => (⟨r.containingName, r.rootName, r.typeName, r.phase⟩ :
      RootSignature)) = bs.map fun r => ⟨r.containingName, r.rootName, r.typeName, r.phase⟩)
    (hdefaults : ∀ a ∈ as, ∀ b ∈ bs, a.containingName = b.containingName →
      stage.includes a.phase = true → A.defaultGroup a.tree = B.defaultGroup b.tree)
    (c : RealizedConfig) :
    (as.filter fun root => stage.includes root.phase).foldl
        (fun c root => c.store root (A.defaultGroup root.tree)) c =
      (bs.filter fun root => stage.includes root.phase).foldl
        (fun c root => c.store root (B.defaultGroup root.tree)) c := by
  induction as generalizing bs c with
  | nil =>
    obtain rfl := List.map_eq_nil_iff.mp hroots.symm
    rfl
  | cons a as ih =>
    obtain ⟨b, bs, rfl, hb, hrest⟩ := List.map_eq_cons_iff.mp hroots.symm
    obtain ⟨hname, -, htype, hphase⟩ := RootSignature.mk.inj hb
    have hbelow := ih hrest.symm fun a' ha' b' hb' =>
      hdefaults a' (List.mem_cons_of_mem _ ha') b' (List.mem_cons_of_mem _ hb')
    by_cases hstage : stage.includes a.phase = true
    · have hdefault := hdefaults a List.mem_cons_self b List.mem_cons_self hname.symm hstage
      have hstore : c.store b (B.defaultGroup b.tree) = c.store a (A.defaultGroup a.tree) := by
        rw [RealizedConfig.store, RealizedConfig.store, htype, hname, hdefault]
      have hstage' : stage.includes b.phase = true := by rwa [hphase]
      simp only [List.filter_cons, hstage, hstage', if_true, List.foldl_cons, hstore]
      exact hbelow _
    · have hstage' : ¬stage.includes b.phase = true := by rwa [hphase]
      simp only [List.filter_cons, hstage, hstage']
      exact hbelow c

/-- Two definitions with one signature realize the same for a stage exactly if the roots of the
stage have the same defaults. -/
theorem Definition.realize_eq_iff (hA : A.Sound piece idents) (hB : B.Sound piece idents)
    (hsignature : A.signature = B.signature) :
    A.realize stage = B.realize stage ↔
      ∀ a ∈ A.roots, ∀ b ∈ B.roots, a.containingName = b.containingName →
        stage.includes a.phase = true → A.defaultGroup a.tree = B.defaultGroup b.tree := by
  constructor
  · intro heq a ha b hb hname hstage
    have hstage' : stage.includes b.phase = true := by
      rwa [← (hB.root_eq_of_signature hsignature ha hb hname).2]
    have hget := realize_get?_eq hA.names ha hstage
    rw [heq, hname, realize_get?_eq hB.names hb hstage'] at hget
    exact (Option.some.inj hget).symm
  · exact fun hdefaults =>
      foldl_store_congr (congrArg Signature.roots hsignature) hdefaults .empty

end Signature

/-! ### Trees with one default -/

section Alike

variable {leavesA leavesB : List Leaf}

/-- The identifiers of a group's attributes, each where it comes first. -/
def GroupNode.idents (g : GroupNode) : List String := (g.fields.map (·.1)).eraseDups

/-- Whether two nodes are built alike: leaves with one default, maps, or groups of one type with the
same identifiers in the same order, where the attributes that count for each are alike. -/
inductive Node.Alike (leavesA leavesB : List Leaf) : Node → Node → Prop where
  | leaf {i j : Nat} (default : defaultOver leavesA (.leaf i) = defaultOver leavesB (.leaf j)) :
      Alike leavesA leavesB (.leaf i) (.leaf j)
  | map (a b : Node) : Alike leavesA leavesB (.map a) (.map b)
  | group {g h : GroupNode} (typeName : g.typeName = h.typeName) (idents : g.idents = h.idents)
      (attributes : ∀ ident a b, g.attribute? ident = some a → h.attribute? ident = some b →
        Alike leavesA leavesB a b) : Alike leavesA leavesB (.group g) (.group h)

/-- Entries are determined by their keys, in order, and by what stands under them. -/
theorem Entries.ext_lookup {α : Type} {as bs : Entries α} (hkeys : keys as = keys bs)
    (hnodup : (keys as).Nodup) (hlookup : ∀ key, as.lookup key = bs.lookup key) : as = bs := by
  induction as generalizing bs with
  | nil => exact (List.map_eq_nil_iff.mp hkeys.symm).symm
  | cons entry as ih =>
    obtain ⟨key, v⟩ := entry
    obtain ⟨⟨key', w⟩, bs, rfl, hkey', hrest⟩ := List.map_eq_cons_iff.mp hkeys.symm
    obtain rfl : key' = key := hkey'
    obtain ⟨hkey, hnodup⟩ := List.nodup_cons.mp hnodup
    have hself := hlookup key'
    rw [List.lookup_cons_self, List.lookup_cons_self] at hself
    have hbelow : as = bs := by
      refine ih hrest.symm hnodup fun other => ?_
      by_cases hother : other = key'
      · -- The key of the first entry is not among those of the others.
        have hnone : ∀ entries : Entries α, key' ∉ keys entries → entries.lookup key' = none := by
          intro entries hmem
          rwa [← Option.not_isSome_iff_eq_none, Entries.isSome_lookup_iff]
        rw [hother, hnone as hkey, hnone bs fun hmem => hkey (hrest ▸ hmem)]
      · have hne : (other == key') = false := by simpa using hother
        have hbelow := hlookup other
        rwa [List.lookup_cons, hne, List.lookup_cons, hne] at hbelow
    rw [Option.some.inj hself, hbelow]

/-- Accepting the defaults of attributes, a group gets new identifiers behind its own. -/
theorem keys_acceptDefaults (leaves : List Leaf) (g : Group) (fields : List (String × Node)) :
    Entries.keys (acceptDefaults leaves g fields).fields =
      Entries.keys g.fields ++
        ((fields.map (·.1)).removeAll (Entries.keys g.fields)).eraseDups := by
  induction fields generalizing g with
  | nil => simp [acceptDefaults, List.removeAll]
  | cons field rest ih =>
    obtain ⟨ident, child⟩ := field
    rw [acceptDefaults, ih, Group.accept, Entries.keys_put, List.map_cons, List.cons_removeAll]
    by_cases hmem : ident ∈ Entries.keys g.fields
    · simp [hmem]
    · have hremove : (rest.map (·.1)).removeAll (Entries.keys g.fields ++ [ident]) =
          ((rest.map (·.1)).removeAll (Entries.keys g.fields)).filter fun b => !b == ident := by
        rw [List.removeAll, List.removeAll, List.filter_filter]
        refine List.filter_congr fun other _ => ?_
        by_cases hother : other = ident <;> simp [hother]
      simp [hmem, hremove, List.eraseDups_cons]

/-- The attributes of a default group have distinct keys. -/
theorem nodup_keys_acceptDefaults (leaves : List Leaf) {g : Group}
    (hg : (Entries.keys g.fields).Nodup) (fields : List (String × Node)) :
    (Entries.keys (acceptDefaults leaves g fields).fields).Nodup := by
  induction fields generalizing g with
  | nil => rwa [acceptDefaults]
  | cons field rest ih =>
    obtain ⟨ident, child⟩ := field
    rw [acceptDefaults]
    exact ih (Entries.nodup_keys_put hg ident _)

theorem Group.eq_of_fields {g h : Group} (htype : g.typeName = h.typeName)
    (hfields : g.fields = h.fields) : g = h := by
  obtain ⟨t, fs⟩ := g
  obtain ⟨u, gs⟩ := h
  obtain rfl : t = u := htype
  obtain rfl : fs = gs := hfields
  rfl

theorem defaultGroupOver_typeName (leaves : List Leaf) (g : GroupNode) :
    (defaultGroupOver leaves g).typeName = g.typeName := by
  obtain ⟨typeName, fields⟩ := g
  rw [defaultGroupOver, acceptDefaults_typeName]
  rfl

/-- The default of a group has each of its identifiers once, where it comes first. -/
theorem keys_defaultGroupOver (leaves : List Leaf) (g : GroupNode) :
    Entries.keys (defaultGroupOver leaves g).fields = g.idents ∧
      (Entries.keys (defaultGroupOver leaves g).fields).Nodup := by
  obtain ⟨typeName, fields⟩ := g
  rw [defaultGroupOver]
  refine ⟨?_, nodup_keys_acceptDefaults leaves (g := .empty typeName) List.nodup_nil fields⟩
  rw [keys_acceptDefaults]
  simp [Group.empty, Entries.keys, List.removeAll, GroupNode.idents]

/-- Groups have one default if they have one type, the same identifiers in the same order, and the
same defaults of the attributes that count. -/
theorem defaultGroupOver_eq_iff {g h : GroupNode} :
    defaultGroupOver leavesA g = defaultGroupOver leavesB h ↔
      g.typeName = h.typeName ∧ g.idents = h.idents ∧ ∀ ident,
        (g.attribute? ident).map (defaultOver leavesA) =
          (h.attribute? ident).map (defaultOver leavesB) := by
  obtain ⟨hkeysA, hnodup⟩ := keys_defaultGroupOver leavesA g
  obtain ⟨hkeysB, -⟩ := keys_defaultGroupOver leavesB h
  have hlookup : ∀ (leaves : List Leaf) (g : GroupNode) (ident : String),
      (defaultGroupOver leaves g).fields.lookup ident =
        (g.attribute? ident).map (defaultOver leaves) := by
    intro leaves g ident
    rw [← defaultOver_group_slot?, defaultOver]
    rfl
  constructor
  · intro heq
    refine ⟨?_, ?_, fun ident => ?_⟩
    · rw [← defaultGroupOver_typeName leavesA g, heq, defaultGroupOver_typeName]
    · rw [← hkeysA, heq, hkeysB]
    · rw [← hlookup leavesA g, heq, hlookup]
  · rintro ⟨htype, hidents, hattributes⟩
    refine Group.eq_of_fields ?_ (Entries.ext_lookup ?_ hnodup fun ident => ?_)
    · rw [defaultGroupOver_typeName, htype, defaultGroupOver_typeName]
    · rw [hkeysA, hidents, hkeysB]
    · rw [hlookup, hlookup, hattributes]

/-- A group has an attribute for each of its identifiers. -/
theorem GroupNode.isSome_attribute?_iff {g : GroupNode} {ident : String} :
    (g.attribute? ident).isSome ↔ ident ∈ g.idents := by
  rw [attribute?, Entries.isSome_lookup_iff, Entries.keys, List.map_reverse, List.mem_reverse,
    idents, List.mem_eraseDups]

/-- Nodes that are built alike have one default. -/
theorem Node.Alike.defaultOver_eq {a b : Node} (h : a.Alike leavesA leavesB b) :
    defaultOver leavesA a = defaultOver leavesB b := by
  induction h with
  | leaf default => exact default
  | map a b => rw [defaultOver, defaultOver]
  | @group g h typeName idents attributes ih =>
    rw [defaultOver, defaultOver, defaultGroupOver_eq_iff.mpr ⟨typeName, idents, fun ident => ?_⟩]
    have hiff : (g.attribute? ident).isSome ↔ (h.attribute? ident).isSome := by
      rw [GroupNode.isSome_attribute?_iff, idents, GroupNode.isSome_attribute?_iff]
    cases hg : g.attribute? ident with
    | none =>
      rw [hg] at hiff
      rw [Option.not_isSome_iff_eq_none.mp fun hsome => Bool.false_ne_true (hiff.mpr hsome)]
      rfl
    | some a =>
      obtain ⟨b, hh⟩ := Option.isSome_iff_exists.mp (hiff.mp (by rw [hg]; rfl))
      rw [hh, Option.map_some, Option.map_some, ih ident a b hg hh]

mutual

/-- Nodes with one default are built alike, since the defaults of leaves are scalars. -/
theorem Node.alike_of_defaultOver_eq (hA : ∀ leaf ∈ leavesA, leaf.defaultValue.IsScalar)
    (hB : ∀ leaf ∈ leavesB, leaf.defaultValue.IsScalar) : (a : Node) → ∀ {b : Node},
      defaultOver leavesA a = defaultOver leavesB b → a.Alike leavesA leavesB b
  | .group ⟨typeName, fields⟩, b, h => by
    cases b with
    | group g =>
      rw [defaultOver, defaultOver] at h
      obtain ⟨htype, hidents, hattributes⟩ := defaultGroupOver_eq_iff.mp (Value.group.inj h)
      refine .group htype hidents fun ident a b ha hb => ?_
      have heq := hattributes ident
      rw [ha, hb] at heq
      exact alike_of_mem hA hB fields (List.mem_reverse.mp (Entries.mem_of_lookup ha))
        (Option.some.inj heq)
    | map value =>
      rw [defaultOver, defaultOver] at h
      cases h
    | leaf id =>
      have hscalar := isScalar_defaultOver hB id
      rw [← h, defaultOver] at hscalar
      exact hscalar.elim
  | .map value, b, h => by
    cases b with
    | group g =>
      rw [defaultOver, defaultOver] at h
      cases h
    | map value' => exact .map value value'
    | leaf id =>
      have hscalar := isScalar_defaultOver hB id
      rw [← h, defaultOver] at hscalar
      exact hscalar.elim
  | .leaf id, b, h => by
    have hscalar := isScalar_defaultOver hA id
    cases b with
    | leaf id' => exact .leaf h
    | group g =>
      rw [h, defaultOver] at hscalar
      exact hscalar.elim
    | map value =>
      rw [h, defaultOver] at hscalar
      exact hscalar.elim

/-- Attributes with one default are built alike. -/
theorem alike_of_mem (hA : ∀ leaf ∈ leavesA, leaf.defaultValue.IsScalar)
    (hB : ∀ leaf ∈ leavesB, leaf.defaultValue.IsScalar) : (fields : List (String × Node)) →
      ∀ {ident : String} {a b : Node}, (ident, a) ∈ fields →
        defaultOver leavesA a = defaultOver leavesB b → a.Alike leavesA leavesB b
  | [], _, _, _, hmem, _ => absurd hmem List.not_mem_nil
  | (first, child) :: rest, ident, a, b, hmem, h => by
    rcases List.mem_cons.mp hmem with heq | hmem
    · obtain ⟨-, rfl⟩ := Prod.mk.inj heq
      exact Node.alike_of_defaultOver_eq hA hB a h
    · exact alike_of_mem hA hB rest hmem h

end

/-- **Groups have one default exactly if they are built alike.** -/
theorem GroupNode.alike_iff (hA : ∀ leaf ∈ leavesA, leaf.defaultValue.IsScalar)
    (hB : ∀ leaf ∈ leavesB, leaf.defaultValue.IsScalar) {g h : GroupNode} :
    (Node.group g).Alike leavesA leavesB (.group h) ↔
      defaultGroupOver leavesA g = defaultGroupOver leavesB h := by
  constructor
  · intro halike
    have heq := halike.defaultOver_eq
    rw [defaultOver, defaultOver] at heq
    exact Value.group.inj heq
  · intro heq
    refine Node.alike_of_defaultOver_eq hA hB _ ?_
    rw [defaultOver, defaultOver, heq]

end Alike

/-! ### Right and wrong plans -/

/-- **What the plan of another definition realizes.** A plan that is accepted although it has been
compiled from another definition with the same signature realizes what walking that definition
realizes. This is what walking the definition itself realizes exactly if the trees of the roots of
the stage are built alike. -/
theorem Built.foreign_realize_iff {goodA goodB : RootDecl → Prop} {A B : Definition}
    (hA : Built goodA A) (hB : Built goodB B) (hsignature : A.signature = B.signature)
    {stage : Stage} {hash : Signature → UInt64} {c : RealizedConfig}
    (hc : (A.compile hash).realize B stage hash = .ok c) :
    c = A.realize stage ∧
      (c = B.realize stage ↔ ∀ a ∈ A.roots, ∀ b ∈ B.roots, a.containingName = b.containingName →
        stage.includes a.phase = true →
          (Node.group a.tree).Alike A.leaves B.leaves (.group b.tree)) := by
  have hsoundA := hA.sound_any
  have hsoundB := hB.sound_any
  obtain rfl := realize_foreign hsoundA hsoundB hsignature hc
  refine ⟨rfl, (realize_eq_iff hsoundA hsoundB hsignature).trans ?_⟩
  refine forall₂_congr fun a _ => forall₂_congr fun b _ => forall₂_congr fun _ _ => ?_
  exact (GroupNode.alike_iff hsoundA.scalar hsoundB.scalar).symm

/-- A root with a string `x`. -/
def stringRoot (typeName rootName : String) (name : ItemName) : RootDecl where
  group := ⟨typeName, false, [⟨"x", name, none, .object .string, false, none⟩]⟩
  name := .explicit rootName
  phase := .buildTime

/-- A root with a map `x` of groups without attributes. -/
def mapRoot (typeName rootName valueType : String) : RootDecl where
  group := ⟨typeName, false, [⟨"x", .element, none,
    .map (some .string) (some (.group ⟨valueType, true, []⟩)), false, none⟩]⟩
  name := .explicit rootName
  phase := .buildTime

/-- A plan does not tell the types of map values. -/
theorem foreign_realize_iff_mapRoot :
    let A := (empty.registerRoot (mapRoot "AConfig" "a" "G")).1
    let B := (empty.registerRoot (mapRoot "AConfig" "a" "H")).1
    ∃ c, A.compile.realize B .build = .ok c ∧ c = A.realize .build ∧
      (c = B.realize .build ↔ ∀ a ∈ A.roots, ∀ b ∈ B.roots, a.containingName = b.containingName →
        Stage.build.includes a.phase = true →
          (Node.group a.tree).Alike A.leaves B.leaves (.group b.tree)) := by
  intro A B
  have hA : Built (fun _ => True) A := .register .empty trivial (Prod.ext rfl (by decide +kernel))
  have hB : Built (fun _ => True) B := .register .empty trivial (Prod.ext rfl (by decide +kernel))
  have hok : (A.compile.realize B .build).isOk = true := by decide +kernel
  cases hc : A.compile.realize B .build with
  | error e =>
    rw [hc] at hok
    cases hok
  | ok c => exact ⟨c, rfl, hA.foreign_realize_iff hB (by decide +kernel) hc⟩

/-- Two roots, the first of which owns the leaf `a.b.x`. -/
def firstOwner : Definition :=
  ((empty.registerRoot (stringRoot "AConfig" "a" (.explicit "b.x"))).1.registerRoot
    (mapRoot "BConfig" "a.b" "G")).1

/-- The same roots, but the second one owns the leaf. -/
def secondOwner : Definition :=
  ((empty.registerRoot (mapRoot "AConfig" "a" "G")).1.registerRoot
    (stringRoot "BConfig" "a.b" .element)).1

/-- **A signature does not tell which root owns a leaf.** The plan of one definition is accepted by
the other, and realizes a string where that one has a map. -/
theorem firstOwner_realize_ne :
    Built (fun _ => True) firstOwner ∧ Built (fun _ => True) secondOwner ∧
      firstOwner.signature = secondOwner.signature ∧
      ∃ c, firstOwner.compile.realize secondOwner .build = .ok c ∧
        c ≠ secondOwner.realize .build := by
  refine ⟨?_, ?_, by decide +kernel, ?_⟩
  · refine .register (.register .empty trivial (Prod.ext rfl ?_)) trivial (Prod.ext rfl ?_)
    all_goals decide +kernel
  · refine .register (.register .empty trivial (Prod.ext rfl ?_)) trivial (Prod.ext rfl ?_)
    all_goals decide +kernel
  have hstring : (firstOwner.compile.realize secondOwner .build).toOption.bind (fun c =>
      ((c.get? "a").bind (·.get? "x")).bind Value.asString?) = some "" := by
    decide +kernel
  have hmap : (((secondOwner.realize .build).get? "a").bind (·.get? "x")).bind Value.asString? =
      none := by
    decide +kernel
  cases hc : firstOwner.compile.realize secondOwner .build with
  | error e =>
    rw [hc] at hstring
    cases hstring
  | ok c =>
    refine ⟨c, rfl, ?_⟩
    rintro rfl
    rw [hc] at hstring
    cases hmap.symm.trans hstring

end PropertyBinding

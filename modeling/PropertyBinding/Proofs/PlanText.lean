import PropertyBinding.Proofs.Registered
import PropertyBinding.Proofs.ValueText

/-!
# Reading stored plans back

A plan is stored as a well-formed tree (`PlanText.wellFormed_ofPlan`), so that its text reads as
what its tree reads as. Operations, roots and plans are read with what their values are read as
(`PlanText.op?_set`, `PlanText.root?_ofRoot`, `PlanText.plan?_ofPlan`), from which reading back and
failing to read follow for every plan whose values can be stored (`Plan.ofText_toText`,
`Plan.ofText_toText_eq_error`). A compiled plan stores only the defaults of leaves and empty maps.
These can be stored, since what a text reads as is not nested deeply (`Convert.storable_value`).
-/

namespace PropertyBinding

open Definition

/-! ### Trees of plans -/

namespace PlanText

/-- Every operation is stored as a well-formed tree. -/
theorem wellFormed_ofOp (op : PlanOp) : (ofOp op).WellFormed := by
  cases op with
  | enter field typeName =>
    exact wellFormed_alternative (Json.wellFormed_obj (List.forall_mem_cons.mpr
      ⟨.string field, List.forall_mem_singleton.mpr (.string typeName)⟩))
  | set field value =>
    exact wellFormed_alternative (Json.wellFormed_obj (List.forall_mem_cons.mpr
      ⟨.string field, List.forall_mem_singleton.mpr (wellFormed_ofValue value)⟩))
  | exit => exact .string "Exit"

/-- Every compiled root is stored as a well-formed tree. -/
theorem wellFormed_ofRoot (r : RootPlan) : (ofRoot r).WellFormed := by
  have hops : (Json.array (r.ops.map ofOp)).WellFormed :=
    .array (List.forall_mem_map.mpr fun op _ => wellFormed_ofOp op)
  refine Json.wellFormed_obj ?_
  simp only [List.forall_mem_cons]
  exact ⟨.string _, .string _, .string _, hops, List.forall_mem_nil _⟩

/-- **Every plan is stored as a well-formed tree.** -/
theorem wellFormed_ofPlan (p : Plan) : (ofPlan p).WellFormed := by
  have hroots : (Json.array (p.roots.map ofRoot)).WellFormed :=
    .array (List.forall_mem_map.mpr fun r _ => wellFormed_ofRoot r)
  refine Json.wellFormed_obj ?_
  simp only [List.forall_mem_cons]
  exact ⟨wellFormed_int _, hroots, List.forall_mem_nil _⟩

/-! ### Reading plans -/

section Reading

variable (depth : Nat)

/-- An operation that stores a value is read with the value. -/
theorem op?_set (field : String) (v : Value) :
    op? depth (ofOp (.set field v)) = (value? (depth - 2) (ofValue v)).map (.set field) := by
  change (value? (depth - 2) (ofValue v)).bind _ = _
  cases value? (depth - 2) (ofValue v) <;> rfl

theorem phase?_planName (phase : Phase) : phase? (.str phase.planName) = some phase := by
  cases phase <;> rfl

/-- A compiled root is read with its operations. -/
theorem root?_ofRoot (r : RootPlan) :
    root? depth (ofRoot r) =
      (r.ops.mapM fun op => op? (depth - 2) (ofOp op)).map fun ops => { r with ops } := by
  change (phase? (.str r.phase.planName)).bind (fun phase =>
    ((r.ops.map ofOp).mapM (op? (depth - 2))).bind fun ops =>
      some (⟨r.containingName, r.typeName, phase, ops⟩ : RootPlan)) = _
  rw [phase?_planName, Option.bind_some, List.mapM_map, Option.map_eq_bind]
  rfl

/-- A plan is read with its roots. -/
theorem plan?_ofPlan (p : Plan) :
    plan? (ofPlan p) =
      (p.roots.mapM fun r => root? (nestingLimit - 2) (ofRoot r)).map fun roots =>
        { p with roots } := by
  have hsize := p.fingerprint.toNat_lt
  have hread : integer? 0 (UInt64.size - 1) (.int p.fingerprint.toNat) =
      some (p.fingerprint.toNat : Int) :=
    integer?_int (by omega) (by simp only [UInt64.size]; omega) (by decide) (by decide)
  change (integer? 0 (UInt64.size - 1) (.int p.fingerprint.toNat)).bind (fun fingerprint =>
    ((p.roots.map ofRoot).mapM (root? (nestingLimit - 2))).bind fun roots =>
      some (⟨.ofNat fingerprint.toNat, roots⟩ : Plan)) = _
  rw [hread, Option.bind_some, List.mapM_map, Option.map_eq_bind, Int.toNat_natCast,
    UInt64.ofNat_toNat]
  rfl

end Reading

end PlanText

/-! ### Stored values -/

/-- The values that an operation stores, with all values within them. -/
def PlanOp.stored : PlanOp → List Value
  | .set _ v => v.parts
  | .enter _ _ | .exit => []

/-- The values that a plan stores, with all values within them. -/
def Plan.stored (p : Plan) : List Value :=
  p.roots.flatMap fun r => r.ops.flatMap PlanOp.stored

/-- Whether an operation is read back with so many more containers allowed, if the floating-point
numbers in it are. -/
def PlanOp.Storable (depth : Nat) : PlanOp → Prop
  | .set _ v => PlanText.Storable (depth - 2) v
  | .enter _ _ | .exit => True

/-- Whether all operations of a plan can be stored. The plan, its roots, each root and its
operations are containers around them. -/
def Plan.Storable (p : Plan) : Prop :=
  ∀ r ∈ p.roots, ∀ op ∈ r.ops, op.Storable (PlanText.nestingLimit - 2 - 2)

section Plans

variable {p : Plan}

/-- A storable operation reads back, if all floating-point numbers in it do. -/
theorem PlanText.op?_ofOp {depth : Nat} {op : PlanOp} (h : op.Storable depth)
    (hstored : ∀ w ∈ op.stored, w.isFinite = true ∧ w.readsBack = true) :
    PlanText.op? depth (PlanText.ofOp op) = some op := by
  cases op with
  | enter field typeName => rfl
  | exit => rfl
  | set field v =>
    rw [PlanText.op?_set, PlanText.value?_ofValue h hstored]
    rfl

/-- An operation with a floating-point number that is not finite is not read back. -/
theorem PlanText.op?_eq_none {depth : Nat} {op : PlanOp} (h : op.Storable depth) {w : Value}
    (hw : w ∈ op.stored) (hfinite : w.isFinite = false) :
    PlanText.op? depth (PlanText.ofOp op) = none := by
  cases op with
  | enter field typeName => cases hw
  | exit => cases hw
  | set field v =>
    rw [PlanText.op?_set, PlanText.value?_eq_none h hw hfinite]
    rfl

theorem Plan.mem_stored {w : Value} :
    w ∈ p.stored ↔ ∃ r ∈ p.roots, ∃ op ∈ r.ops, w ∈ op.stored := by
  simp [Plan.stored]

/-- The text of a plan stands for what the tree of the plan is read as. -/
theorem Plan.ofText_toText_eq :
    Plan.ofText p.toText =
      (PlanText.plan? (PlanText.ofPlan p)).elim (.error .planFormat) .ok := by
  rw [Plan.ofText, Plan.toText, Json.parse?_compress (PlanText.wellFormed_ofPlan p),
    Option.bind_some]
  cases PlanText.plan? (PlanText.ofPlan p) <;> rfl

/-- **A plan reads back from its text**, if all floating-point numbers in it are finite and read
back from their shortest digits. -/
theorem Plan.ofText_toText (h : p.Storable)
    (hstored : ∀ w ∈ p.stored, w.isFinite = true ∧ w.readsBack = true) :
    Plan.ofText p.toText = .ok p := by
  rw [Plan.ofText_toText_eq, PlanText.plan?_ofPlan, mapM_eq_some fun r hr => ?_]
  · rfl
  · rw [PlanText.root?_ofRoot, mapM_eq_some fun op hop => ?_]
    · rfl
    · exact PlanText.op?_ofOp (h r hr op hop) fun w hw =>
        hstored w (Plan.mem_stored.mpr ⟨r, hr, op, hop, hw⟩)

/-- **A plan does not read back from its text**, if some floating-point number in it is not
finite. -/
theorem Plan.ofText_toText_eq_error (h : p.Storable) {w : Value} (hw : w ∈ p.stored)
    (hfinite : w.isFinite = false) : Plan.ofText p.toText = .error .planFormat := by
  obtain ⟨r, hr, op, hop, hw⟩ := Plan.mem_stored.mp hw
  rw [Plan.ofText_toText_eq, PlanText.plan?_ofPlan, mapM_eq_none hr]
  · rfl
  · rw [PlanText.root?_ofRoot, mapM_eq_none hop (PlanText.op?_eq_none (h r hr op hop) hw hfinite)]
    rfl

end Plans

/-! ### Compiled plans -/

namespace Convert

variable {depth : Nat} {raw : String} {v : Value}

/-- What a text of a scalar type reads as is stored in one container. -/
theorem storable_scalar {type : ValueType} (h : Convert.scalar type raw = .ok v) :
    PlanText.Storable (depth + 1) v := by
  cases type with
  | string =>
    obtain rfl := Except.ok.inj h
    exact .string raw
  | path =>
    obtain rfl := Except.ok.inj h
    exact .path raw
  | boolean | integer | long | float | double | memorySize | enum names =>
    obtain ⟨_, -, rfl⟩ := ok_of_map_eq_ok h
    constructor

/-- **What a text reads as for a leaf** is stored in three containers. -/
theorem storable_value {kind : LeafKind} (h : Convert.value kind raw = .ok v) :
    PlanText.Storable (depth + 3) v := by
  rcases Convert.value_cases h with
    ⟨type, hread⟩ | rfl | rfl | ⟨type, inner, hread, rfl⟩ | ⟨type, items, hread, rfl⟩
  · exact storable_scalar hread
  · exact .unset
  · exact .absent
  · exact .present (storable_scalar hread)
  · refine .list fun item hitem => ?_
    obtain ⟨text, htext⟩ := hread item hitem
    exact storable_scalar htext

end Convert

section Compiled

variable {leaves : List Leaf}

/-- The default of a leaf can be stored. -/
theorem storable_defaultOver {depth : Nat}
    (hvalues : ∀ leaf ∈ leaves, Convert.value leaf.kind leaf.default = .ok leaf.defaultValue)
    (id : Nat) : PlanText.Storable (depth + 3) (defaultOver leaves (.leaf id)) := by
  rw [defaultOver]
  cases hleaf : leaves[id]? with
  | none => exact .unset
  | some leaf => exact Convert.storable_value (hvalues leaf (List.mem_of_getElem? hleaf))

mutual

/-- The operations that a node is compiled to can be stored. -/
theorem storable_compileNode
    (hvalues : ∀ leaf ∈ leaves, Convert.value leaf.kind leaf.default = .ok leaf.defaultValue)
    {depth : Nat} (field : String) :
    (node : Node) → ∀ op ∈ compileNode leaves field node, op.Storable (depth + 5)
  | .group ⟨typeName, fields⟩ => by
    rw [compileNode, List.forall_mem_cons, List.forall_mem_append, List.forall_mem_singleton]
    exact ⟨trivial, storable_compileFields hvalues fields, trivial⟩
  | .map value => by
    rw [compileNode, List.forall_mem_singleton, defaultOver]
    exact .map List.Pairwise.nil (List.forall_mem_nil _)
  | .leaf id => by
    rw [compileNode, List.forall_mem_singleton]
    exact storable_defaultOver hvalues id

/-- The operations that attributes are compiled to can be stored. -/
theorem storable_compileFields
    (hvalues : ∀ leaf ∈ leaves, Convert.value leaf.kind leaf.default = .ok leaf.defaultValue)
    {depth : Nat} :
    (fields : List (String × Node)) → ∀ op ∈ compileFields leaves fields, op.Storable (depth + 5)
  | [] => List.forall_mem_nil _
  | (field, node) :: rest => by
    rw [compileFields, List.forall_mem_append]
    exact ⟨storable_compileNode hvalues field node, storable_compileFields hvalues rest⟩

end

/-- The plan of a definition can be stored. -/
theorem Definition.Sound.storable_compile {piece : String → Prop} {idents : List String → Prop}
    {d : Definition} (h : d.Sound piece idents) (hash : Signature → UInt64) :
    (d.compile hash).Storable := by
  intro r hr op hop
  obtain ⟨root, -, rfl⟩ := List.mem_map.mp hr
  exact storable_compileFields h.values root.tree.fields op hop

end Compiled

/-- **The text of a definition's plan** stands for the plan, if all floating-point numbers in its
defaults are finite. It stands for no plan if one of them is not. -/
theorem Built.ofText_toText_compile {good : RootDecl → Prop} {d : Definition} (h : Built good d)
    {hash : Signature → UInt64}
    (hreads : ∀ w ∈ (d.compile hash).stored, w.isFinite = true → w.readsBack = true) :
    ((∀ w ∈ (d.compile hash).stored, w.isFinite = true) →
        Plan.ofText (d.compile hash).toText = .ok (d.compile hash)) ∧
      ((∃ w ∈ (d.compile hash).stored, w.isFinite = false) →
        Plan.ofText (d.compile hash).toText = .error .planFormat) := by
  have hstorable := h.sound_any.storable_compile hash
  refine ⟨fun hfinite => ?_, ?_⟩
  · exact Plan.ofText_toText hstorable fun w hw =>
      ⟨hfinite w hw, hreads w hw (hfinite w hw)⟩
  · rintro ⟨w, hw, hfinite⟩
    exact Plan.ofText_toText_eq_error hstorable hw hfinite

/-- A root with numbers of 64 bits. -/
def ratesDecl (rates : String) : RootDecl where
  group := ⟨"RatesConfig", false,
    [⟨"rates", .element, some rates, .list (some .double), false, none⟩,
      ⟨"names", .element, none, .map (some .string) (some (.object .string)), false, none⟩]⟩
  name := .hyphenated
  phase := .buildTime

/-- A list of finite numbers reads back, one with an infinite number does not. -/
theorem ofText_toText_compile_ratesDecl :
    let finite := (empty.registerRoot (ratesDecl "0.1,-2.5e300")).1
    let infinite := (empty.registerRoot (ratesDecl "0.1,inf")).1
    Plan.ofText finite.compile.toText = .ok finite.compile ∧
      Plan.ofText infinite.compile.toText = .error .planFormat := by
  intro finite infinite
  have hfinite : Built (fun _ => True) finite :=
    .register .empty trivial (Prod.ext rfl (by decide +kernel))
  have hinfinite : Built (fun _ => True) infinite :=
    .register .empty trivial (Prod.ext rfl (by decide +kernel))
  constructor
  · exact (hfinite.ofText_toText_compile (by decide +kernel)).1 (by decide +kernel)
  · exact (hinfinite.ofText_toText_compile (by decide +kernel)).2 (by decide +kernel)

end PropertyBinding

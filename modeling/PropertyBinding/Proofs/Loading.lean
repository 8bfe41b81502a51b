import Mathlib.Data.List.Forall2
import PropertyBinding.Proofs.Realizing

/-!
# Loaded configs

A config comes out of realizing a definition, by walking its trees or by replaying its plan, and
then out of loads, alone or beside the configs of other definitions (`Loaded`). A load may end at a
value that cannot be read; what has been applied before stays, so this is a config too.

Whatever holds of the default of every root, and is preserved by placing the value of a matched
leaf, holds of every root of every loaded config (`Loaded.holds`).
-/

namespace PropertyBinding

open Definition

/-- A config that has been realized for a definition and then loaded any number of times. -/
inductive Loaded (d : Definition) : RealizedConfig → Prop where
  | walked (stage : Stage) : Loaded d (d.realize stage)
  | replayed {stage : Stage} {hash : Signature → UInt64} {c : RealizedConfig}
      (realized : (d.compile hash).realize d stage hash = .ok c) : Loaded d c
  /-- The config is the `i`-th target of a load, which has come to its end or not. -/
  | load {c c' : RealizedConfig} {l : Loader} {source : Source} {targets : List LoadTarget}
      {i : Nat} (loaded : Loaded d c) (before : targets[i]? = some ⟨d, c⟩)
      (after : (l.load source targets).1[i]? = some ⟨d, c'⟩) : Loaded d c'

/-! ### One step -/

/-- What giving a raw value to a target comes to. Nothing happens if the leaf's root is not
realized; otherwise the value cannot be read, or placing it has no result, or the root is replaced
by one in which it has been placed, and the text is noted if it has been written. -/
theorem Loader.applyTo_cases (d : Definition) (c : RealizedConfig) (leaf : Leaf) (name : Cursor)
    (raw : String) :
    (c.get? leaf.root = none ∧ Loader.applyTo ⟨d, c⟩ leaf name raw = .ok (⟨d, c⟩, .skipped)) ∨
      (∃ reason, Loader.applyTo ⟨d, c⟩ leaf name raw =
        .error (.conversion name.name raw reason)) ∨
      ∃ g value, c.get? leaf.root = some g ∧ leaf.valueOf name.name raw = .ok value ∧
        ((∃ e, leaf.place d name value g = .error e ∧
            Loader.applyTo ⟨d, c⟩ leaf name raw = .error e) ∨
          ∃ g' written, leaf.place d name value g = .ok (g', written) ∧
            Loader.applyTo ⟨d, c⟩ leaf name raw =
              .ok (⟨d, if written then
                  ({ c with roots := Entries.put leaf.root g' c.roots } : RealizedConfig).record
                    name.name raw
                else { c with roots := Entries.put leaf.root g' c.roots }⟩,
                if written then .applied else .skipped)) := by
  rw [Loader.applyTo]
  dsimp only
  cases hget : c.get? leaf.root with
  | none => exact Or.inl ⟨rfl, rfl⟩
  | some g =>
    refine Or.inr ?_
    cases hvalue : leaf.valueOf name.name raw with
    | error e =>
      obtain ⟨reason, -, rfl⟩ := Leaf.valueOf_eq_error_iff.mp hvalue
      exact Or.inl ⟨reason, rfl⟩
    | ok value =>
      refine Or.inr ⟨g, value, rfl, rfl, ?_⟩
      dsimp only
      cases hplace : leaf.place d name value g with
      | error e => exact Or.inl ⟨e, rfl, rfl⟩
      | ok r =>
        obtain ⟨g', written⟩ := r
        refine Or.inr ⟨g', written, rfl, ?_⟩
        cases written <;> rfl

/-- What giving a raw value to a target has placed in the leaf's root, if there was no fault. -/
theorem Loader.exists_place_of_applyTo {d : Definition} {c : RealizedConfig} {leaf : Leaf}
    {name : Cursor} {raw : String} {target' : LoadTarget} {outcome : Loader.Outcome} {g : Group}
    (hget : c.get? leaf.root = some g)
    (h : Loader.applyTo ⟨d, c⟩ leaf name raw = .ok (target', outcome)) :
    ∃ value g' written, leaf.place d name value g = .ok (g', written) ∧
      target'.config.get? leaf.root = some g' := by
  rcases applyTo_cases d c leaf name raw with
    ⟨hnone, -⟩ | ⟨reason, heq⟩ | ⟨g₁, value, hget₁, -, ⟨e, -, heq⟩ | ⟨g', written, hplace, heq⟩⟩
  · cases hget.symm.trans hnone
  · cases heq.symm.trans h
  · cases heq.symm.trans h
  obtain rfl := Option.some.inj (hget.symm.trans hget₁)
  obtain ⟨rfl, -⟩ := Prod.mk.inj (Except.ok.inj (heq.symm.trans h))
  refine ⟨value, g', written, hplace, ?_⟩
  cases written <;> exact Entries.lookup_put_self _ _ _

/-- What ends the attempt to give a raw value to targets is one that has a leaf for the name. -/
theorem Loader.applyFirst_error {name : Cursor} {raw : String} {targets : List LoadTarget}
    {e : BindError} (h : Loader.applyFirst name raw targets = .error e) :
    ∃ target ∈ targets, ∃ id leaf, target.definition.matchLeaf name = some (id, leaf) ∧
      Loader.applyTo target leaf name raw = .error e := by
  induction targets with
  | nil => cases h
  | cons target rest ih =>
    rw [applyFirst] at h
    split at h
    · rename_i id leaf hmatch
      split at h
      · cases h
      · rename_i e' happly
        obtain rfl := Except.error.inj h
        exact ⟨target, List.mem_cons_self, id, leaf, hmatch, happly⟩
    · split at h
      · cases h
      · rename_i e' hrest
        obtain rfl := Except.error.inj h
        obtain ⟨other, hother, hfound⟩ := ih hrest
        exact ⟨other, List.mem_cons_of_mem _ hother, hfound⟩

/-- What a name does to the targets of a load, whatever has been reported: nothing outside the
namespace, and else what giving the raw value to the first target that has a leaf for it does. -/
theorem Loader.loadName_ok_iff {l : Loader} {source : Source} {targets targets' : List LoadTarget}
    {report : LoadReport} {name : String} :
    (∃ report', l.loadName source targets report name = .ok (targets', report')) ↔
      ((Cursor.ofName name).peek? ≠ some l.namespaceName ∧ targets' = targets) ∨
        ((Cursor.ofName name).peek? = some l.namespaceName ∧ ∃ outcome,
          Loader.applyFirst (Cursor.ofName name).next.2 ((source.value? name).getD "") targets =
            .ok (targets', outcome)) := by
  rw [loadName]
  by_cases hin : (Cursor.ofName name).peek? = some l.namespaceName
  · rw [if_neg (not_not.mpr hin)]
    simp only [hin, ne_eq, not_true_eq_false, false_and, true_and, false_or]
    cases applyFirst (Cursor.ofName name).next.2 ((source.value? name).getD "") targets with
    | error e => simp
    | ok r =>
      obtain ⟨targets'', outcome⟩ := r
      cases outcome with
      | unknown =>
        dsimp only
        split_ifs <;> simp
      | _ => simp
  · rw [if_pos hin]
    simp [hin, eq_comm]

/-- What loading a name for a target with a leaf for it has placed in the leaf's root. -/
theorem Loader.exists_place_of_loadName {l : Loader} {source : Source}
    {report report' : LoadReport} {targets : List LoadTarget} {name : String} {d : Definition}
    {c c' : RealizedConfig} {id : Nat} {leaf : Leaf} {g : Group}
    (hname : (Cursor.ofName name).peek? = some l.namespaceName)
    (hmatch : d.matchLeaf (Cursor.ofName name).next.2 = some (id, leaf))
    (hget : c.get? leaf.root = some g)
    (h : l.loadName source (⟨d, c⟩ :: targets) report name = .ok (⟨d, c'⟩ :: targets, report')) :
    ∃ value g' written, leaf.place d (Cursor.ofName name).next.2 value g = .ok (g', written) ∧
      c'.get? leaf.root = some g' := by
  rcases loadName_ok_iff.mp ⟨report', h⟩ with ⟨hother, -⟩ | ⟨-, outcome, hfirst⟩
  · exact absurd hname hother
  rw [applyFirst, hmatch] at hfirst
  dsimp only at hfirst
  split at hfirst
  · rename_i target' outcome' happly
    obtain ⟨htargets, -⟩ := Prod.mk.inj (Except.ok.inj hfirst)
    obtain ⟨value, g', written, hplace, hget'⟩ := exists_place_of_applyTo hget happly
    rw [(List.cons.inj htargets).1] at hget'
    exact ⟨value, g', written, hplace, hget'⟩
  · cases hfirst

/-- What ends the loading of a name: the name is in the namespace, and a target has a leaf for
it. -/
theorem Loader.loadName_error {l : Loader} {source : Source} {targets : List LoadTarget}
    {report : LoadReport} {name : String} {e : BindError}
    (h : l.loadName source targets report name = .error e) :
    (Cursor.ofName name).peek? = some l.namespaceName ∧
      ∃ target ∈ targets, ∃ id leaf,
        target.definition.matchLeaf (Cursor.ofName name).next.2 = some (id, leaf) ∧
        Loader.applyTo target leaf (Cursor.ofName name).next.2 ((source.value? name).getD "") =
          .error e := by
  rw [loadName] at h
  by_cases hin : (Cursor.ofName name).peek? ≠ some l.namespaceName
  · rw [if_pos hin] at h
    cases h
  rw [if_neg hin] at h
  refine ⟨not_not.mp hin, applyFirst_error ?_⟩
  cases happly : applyFirst (Cursor.ofName name).next.2 ((source.value? name).getD "") targets with
  | error e' =>
    simp only [happly] at h
    rw [Except.error.inj h]
  | ok r =>
    obtain ⟨targets', outcome⟩ := r
    simp only [happly] at h
    cases outcome with
    | unknown => split_ifs at h
    | _ => cases h

/-! ### What loads keep -/

/-- Whether loads keep a relation between a target and what becomes of it: it is reflexive and
transitive, and holds when a raw value is given to a target with a leaf for the name. -/
structure LoadTarget.KeptByLoads (R : LoadTarget → LoadTarget → Prop) : Prop where
  refl : ∀ t, R t t
  trans : ∀ t t' t'', R t t' → R t' t'' → R t t''
  applyTo : ∀ (t t' : LoadTarget) (id : Nat) (leaf : Leaf) (name : Cursor) (raw : String)
    (outcome : Loader.Outcome), t.definition.matchLeaf name = some (id, leaf) →
    Loader.applyTo t leaf name raw = .ok (t', outcome) → R t t'

namespace LoadTarget.KeptByLoads

variable {R : LoadTarget → LoadTarget → Prop}

/-- Nothing has become of targets. -/
theorem refl_all (hR : KeptByLoads R) (targets : List LoadTarget) :
    List.Forall₂ R targets targets :=
  List.forall₂_same.mpr fun t _ => hR.refl t

/-- Two changes one after the other, target by target. -/
theorem trans_all (hR : KeptByLoads R) {ts ts' ts'' : List LoadTarget} (h : List.Forall₂ R ts ts')
    (h' : List.Forall₂ R ts' ts'') : List.Forall₂ R ts ts'' := by
  induction h generalizing ts'' with
  | nil => exact h'
  | cons hfirst _ ih =>
    cases h' with
    | cons hfirst' hrest' => exact .cons (hR.trans _ _ _ hfirst hfirst') (ih hrest')

/-- Giving a raw value to the first target that has a leaf for it. -/
theorem applyFirst (hR : KeptByLoads R) {name : Cursor} {raw : String}
    {targets targets' : List LoadTarget} {outcome : Loader.Outcome}
    (h : Loader.applyFirst name raw targets = .ok (targets', outcome)) :
    List.Forall₂ R targets targets' := by
  induction targets generalizing targets' outcome with
  | nil =>
    obtain ⟨rfl, -⟩ := Prod.mk.inj (Except.ok.inj h)
    exact .nil
  | cons target rest ih =>
    rw [Loader.applyFirst] at h
    split at h
    · rename_i id leaf hmatch
      split at h
      · rename_i target' outcome' happly
        obtain ⟨rfl, -⟩ := Prod.mk.inj (Except.ok.inj h)
        exact .cons (hR.applyTo _ _ _ _ _ _ _ hmatch happly) (hR.refl_all rest)
      · cases h
    · split at h
      · rename_i rest' outcome' hrest
        obtain ⟨rfl, -⟩ := Prod.mk.inj (Except.ok.inj h)
        exact .cons (hR.refl target) (ih hrest)
      · cases h

/-- Loading one name. -/
theorem loadName (hR : KeptByLoads R) {l : Loader} {source : Source}
    {targets targets' : List LoadTarget} {report report' : LoadReport} {name : String}
    (h : l.loadName source targets report name = .ok (targets', report')) :
    List.Forall₂ R targets targets' := by
  rcases Loader.loadName_ok_iff.mp ⟨report', h⟩ with ⟨-, rfl⟩ | ⟨-, outcome, happly⟩
  · exact hR.refl_all targets'
  · exact hR.applyFirst happly

/-- Loading names, to the end or to a value that cannot be read. -/
theorem loadNames (hR : KeptByLoads R) (l : Loader) (source : Source) (names : List String)
    (targets : List LoadTarget) (report : LoadReport) :
    List.Forall₂ R targets (l.loadNames source targets report names).1 := by
  induction names generalizing targets report with
  | nil => exact hR.refl_all targets
  | cons name rest ih =>
    rw [Loader.loadNames]
    split
    · exact hR.refl_all targets
    · rename_i targets' report' hname
      exact hR.trans_all (hR.loadName hname) (ih targets' report')

/-- **What loads keep** holds of every target of a load, in its place. -/
theorem load (hR : KeptByLoads R) {l : Loader} {source : Source} {targets : List LoadTarget}
    {i : Nat} {t t' : LoadTarget} (before : targets[i]? = some t)
    (after : (l.load source targets).1[i]? = some t') : R t t' := by
  have hkept := hR.loadNames l source source.names targets {}
  obtain ⟨hi, rfl⟩ := List.getElem?_eq_some_iff.mp before
  obtain ⟨hi', rfl⟩ := List.getElem?_eq_some_iff.mp after
  exact hkept.get hi hi'

end LoadTarget.KeptByLoads

/-! ### Properties of the realized roots -/

/-- Whether every realized root is one of the definition and has a property. -/
def RealizedConfig.Holds (d : Definition) (P : Root → Group → Prop) (c : RealizedConfig) : Prop :=
  ∀ name g, c.get? name = some g → ∃ root ∈ d.roots, root.containingName = name ∧ P root g

/-- Whether placing the value of a matched leaf in a realized root preserves a property. -/
def PlacePreserves (d : Definition) (P : Root → Group → Prop) : Prop :=
  ∀ root ∈ d.roots, ∀ (name : Cursor) (id : Nat) (leaf : Leaf) (raw : String) (value : Value)
    (g g' : Group) (written : Bool), d.matchLeaf name = some (id, leaf) →
    leaf.root = root.containingName → leaf.valueOf name.name raw = .ok value → P root g →
    leaf.place d name value g = .ok (g', written) → P root g'

/-- Whether a target keeps its definition in a load, and a config of the definition a property of
its roots. -/
def LoadTarget.Keeps (d : Definition) (P : Root → Group → Prop) (t t' : LoadTarget) : Prop :=
  t'.definition = t.definition ∧ (t.definition = d → t.config.Holds d P → t'.config.Holds d P)

section Run

variable {piece : String → Prop} {idents : List String → Prop} {d : Definition}
  {P : Root → Group → Prop}

/-- Giving a raw value to a target whose definition has matched the leaf. -/
theorem Loader.applyTo_keeps (hP : PlacePreserves d P) {target target' : LoadTarget} {id : Nat}
    {leaf : Leaf} {name : Cursor} {raw : String} {outcome : Loader.Outcome}
    (hmatch : target.definition.matchLeaf name = some (id, leaf))
    (h : Loader.applyTo target leaf name raw = .ok (target', outcome)) :
    target.Keeps d P target' := by
  obtain ⟨d', c⟩ := target
  rcases applyTo_cases d' c leaf name raw with
    ⟨-, heq⟩ | ⟨reason, heq⟩ | ⟨g, value, hget, hvalue, ⟨e, -, heq⟩ | ⟨g', written, hplace, heq⟩⟩
  · obtain ⟨rfl, -⟩ := Prod.mk.inj (Except.ok.inj (heq.symm.trans h))
    exact ⟨rfl, fun _ hholds => hholds⟩
  · cases heq.symm.trans h
  · cases heq.symm.trans h
  obtain ⟨rfl, -⟩ := Prod.mk.inj (Except.ok.inj (heq.symm.trans h))
  refine ⟨rfl, ?_⟩
  rintro rfl hholds other g'' hother
  replace hother : (Entries.put leaf.root g' c.roots).lookup other = some g'' := by
    cases written <;> exact hother
  by_cases hname : other = leaf.root
  · subst hname
    rw [Entries.lookup_put_self] at hother
    obtain rfl := Option.some.inj hother
    obtain ⟨root, hroot, hcontaining, hg⟩ := hholds _ g hget
    exact ⟨root, hroot, hcontaining,
      hP root hroot name id leaf raw value g g' written hmatch hcontaining.symm hvalue hg hplace⟩
  · rw [Entries.lookup_put_of_ne hname] at hother
    exact hholds other g'' hother

/-- Loads keep targets. -/
theorem LoadTarget.Keeps.keptByLoads (hP : PlacePreserves d P) :
    LoadTarget.KeptByLoads (LoadTarget.Keeps d P) where
  refl := fun _ => ⟨rfl, fun _ hholds => hholds⟩
  trans := fun _ _ _ h h' =>
    ⟨h'.1.trans h.1, fun hd hholds => h'.2 (h.1.trans hd) (h.2 hd hholds)⟩
  applyTo := fun _ _ _ _ _ _ _ hmatch h => Loader.applyTo_keeps hP hmatch h

/-- A name takes loaded configs to loaded configs, since a load might have ended there. -/
theorem Loaded.loadName {c c' : RealizedConfig} (h : Loaded d c) {l : Loader} {source : Source}
    {targets targets' : List LoadTarget} {report report' : LoadReport} {name : String}
    (hload : l.loadName source targets report name = .ok (targets', report')) {i : Nat}
    (before : targets[i]? = some ⟨d, c⟩) (after : targets'[i]? = some ⟨d, c'⟩) : Loaded d c' := by
  -- A load of this name alone comes to the same targets, whatever its report says.
  let one : Source := { source with names := [name] }
  have hone : ∃ report'', l.loadName one targets {} name = .ok (targets', report'') :=
    Loader.loadName_ok_iff.mpr (Loader.loadName_ok_iff.mp ⟨report', hload⟩)
  obtain ⟨report'', hone⟩ := hone
  have htargets : (l.load one targets).1 = targets' := by
    rw [Loader.load, Loader.loadNames, hone]
    rfl
  rw [← htargets] at after
  exact .load h before after

/-- **What holds of loaded configs**: a property of the defaults of all roots, if placing the value
of a matched leaf preserves it. -/
theorem Loaded.holds (hd : d.Sound piece idents)
    (hdefault : ∀ root ∈ d.roots, P root (d.defaultGroup root.tree)) (hP : PlacePreserves d P)
    {c : RealizedConfig} (h : Loaded d c) : c.Holds d P := by
  have hwalked : ∀ stage : Stage, (d.realize stage).Holds d P := by
    intro stage name g hget
    obtain ⟨root, hroot, hname, -, rfl⟩ := exists_root_of_realize_get? hget
    exact ⟨root, hroot, hname, hdefault root hroot⟩
  induction h with
  | walked stage => exact hwalked stage
  | @replayed stage hash c realized =>
    -- A plan that can be replayed realizes the same config as the walk.
    rw [hd.realize_of_compile realized]
    exact hwalked stage
  | @load c c' l source targets i loaded before after ih =>
    -- A load keeps every target in its place, so the config after it comes from the one before.
    exact ((LoadTarget.Keeps.keptByLoads hP).load before after).2 rfl ih

end Run

end PropertyBinding

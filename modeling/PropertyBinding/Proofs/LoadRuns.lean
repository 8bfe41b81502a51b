import PropertyBinding.Proofs.PlainLoading

/-!
# Loads name by name

A load takes one name after the other. What becomes of a name is its fate (`Loader.Fate`), and a
step says what the name does to the targets of a load by its fate (`Loader.Step`): at most the first
target whose definition has a leaf for the name changes. With one target, a step changes nothing or
it has placed a value (`Loader.Step.single_cases`).

A load that comes to its end is a run of steps, and its report is what the fates of the names add up
to (`Loader.load_eq_ok_iff`); one name more is one step more (`Loader.load_append_singleton_iff`).
Runs keep the definitions, and take loaded configs to loaded configs.
-/

namespace PropertyBinding

open Definition

/-! ### What becomes of a name -/

/-- The leaf that the definition of a target has for what follows the namespace of a full name, with
its index. -/
def LoadTarget.leafFor? (target : LoadTarget) (name : String) : Option (Nat × Leaf) :=
  target.definition.matchLeaf (Cursor.ofName name).next.2

/-- Whether a raw text has a value for the leaf of a name, the root of the leaf is realized, and
placing the value in it gives the group `g`. -/
def LoadTarget.Places (target : LoadTarget) (name raw root : String) (g : Group)
    (written : Bool) : Prop :=
  ∃ id leaf before value, target.leafFor? name = some (id, leaf) ∧ leaf.root = root ∧
    target.config.get? root = some before ∧ leaf.Gives raw value ∧
    leaf.place target.definition (Cursor.ofName name).next.2 value before = .ok (g, written)

namespace Loader

/-- The first target whose definition has a leaf for a name, by its position. -/
def takerOf? (targets : List LoadTarget) (name : String) : Option Nat :=
  targets.findIdx? fun target => (target.leafFor? name).isSome

/-- Whether a name lies in the namespace of a loader. -/
def Owns (l : Loader) (name : String) : Prop :=
  (Cursor.ofName name).peek? = some l.namespaceName

instance (l : Loader) (name : String) : Decidable (l.Owns name) :=
  inferInstanceAs (Decidable (_ = _))

/-- What becomes of a name in a load. -/
inductive Fate where
  /-- It lies outside the namespace. -/
  | unmatched
  /-- No definition has a leaf for it. -/
  | unrecognized
  /-- No definition has a leaf for it, and it is excepted. -/
  | excepted
  /-- The target at this position has a leaf for it, but the value has not been written. -/
  | skipped (target : Nat)
  /-- The value has been written into the target at this position. -/
  | applied (target : Nat)
  deriving DecidableEq, Repr

namespace Fate

/-- The target that has a leaf for the name. -/
def target? : Fate → Option Nat
  | skipped i | applied i => some i
  | _ => none

/-- Whether the value has been written. -/
def isApplied : Fate → Bool
  | applied _ => true
  | _ => false

end Fate

/-- What a name does to targets, by its fate. -/
inductive Step (l : Loader) (value? : String → Option String) (name : String) :
    List LoadTarget → Fate → List LoadTarget → Prop where
  | unmatched {targets : List LoadTarget} (outside : ¬l.Owns name) :
      Step l value? name targets .unmatched targets
  | unrecognized {targets : List LoadTarget} (inside : l.Owns name)
      (unknown : ∀ t ∈ targets, t.leafFor? name = none) (reported : name ∉ l.exceptions) :
      Step l value? name targets .unrecognized targets
  | excepted {targets : List LoadTarget} (inside : l.Owns name)
      (unknown : ∀ t ∈ targets, t.leafFor? name = none) (excepted : name ∈ l.exceptions) :
      Step l value? name targets .excepted targets
  /-- The leaf's root is not realized. -/
  | unrealized {before after : List LoadTarget} {t : LoadTarget} {id : Nat} {leaf : Leaf}
      (inside : l.Owns name) (unknown : ∀ t ∈ before, t.leafFor? name = none)
      (leafFor : t.leafFor? name = some (id, leaf))
      (unrealized : t.config.get? leaf.root = none) :
      Step l value? name (before ++ t :: after) (.skipped before.length) (before ++ t :: after)
  /-- The realized graph does not follow the leaf's path to its end. -/
  | unplaced {before after : List LoadTarget} {t : LoadTarget} {root : String} {g : Group}
      (inside : l.Owns name) (unknown : ∀ t ∈ before, t.leafFor? name = none)
      (places : t.Places name ((value? name).getD "") root g false) :
      Step l value? name (before ++ t :: after) (.skipped before.length)
        (before ++ { t with config := t.config.withRoot root g } :: after)
  /-- The value has been written, and the literal text is noted under the name. -/
  | applied {before after : List LoadTarget} {t : LoadTarget} {root : String} {g : Group}
      (inside : l.Owns name) (unknown : ∀ t ∈ before, t.leafFor? name = none)
      (places : t.Places name ((value? name).getD "") root g true) :
      Step l value? name (before ++ t :: after) (.applied before.length)
        (before ++
          { t with config := t.config.placed root g name ((value? name).getD "") } :: after)

/-- What names do to targets, one after the other, with the fate of each. -/
inductive Run (l : Loader) (value? : String → Option String) :
    List LoadTarget → List (String × Fate) → List LoadTarget → Prop where
  | nil (targets : List LoadTarget) : Run l value? targets [] targets
  | cons {name : String} {fate : Fate} {log : List (String × Fate)}
      {targets targets' targets'' : List LoadTarget}
      (step : l.Step value? name targets fate targets')
      (run : Run l value? targets' log targets'') :
      Run l value? targets ((name, fate) :: log) targets''

end Loader

/-- A report with the fate of one more name. -/
def LoadReport.note (report : LoadReport) (entry : String × Loader.Fate) : LoadReport :=
  match entry.2 with
  | .unmatched => { report with unmatched := insertName entry.1 report.unmatched }
  | .unrecognized => { report with unrecognized := report.unrecognized ++ [entry.1] }
  | .excepted | .skipped _ => report
  | .applied _ => { report with applied := report.applied + 1 }

/-- The report on the fates of names. -/
def LoadReport.ofLog (log : List (String × Loader.Fate)) : LoadReport :=
  log.foldl LoadReport.note {}

theorem LoadReport.ofLog_append_singleton (log : List (String × Loader.Fate))
    (entry : String × Loader.Fate) : ofLog (log ++ [entry]) = (ofLog log).note entry := by
  rw [ofLog, List.foldl_append]
  rfl

/-! ### Giving a raw text to targets -/

namespace Loader

/-- A raw text whose leaf has no realized root changes nothing. -/
theorem applyTo_of_unrealized {t : LoadTarget} {leaf : Leaf} (cursor : Cursor) (raw : String)
    (h : t.config.get? leaf.root = none) : applyTo t leaf cursor raw = .ok (t, .skipped) := by
  rw [applyTo]
  simp only [h]

/-- A target that has a leaf for a name is given the raw text, whatever comes of it. -/
theorem applyTo_ne_unknown {t t' : LoadTarget} {leaf : Leaf} {cursor : Cursor} {raw : String}
    {outcome : Outcome} (h : applyTo t leaf cursor raw = .ok (t', outcome)) :
    outcome ≠ .unknown := by
  rintro rfl
  rcases applyTo_cases t.definition t.config leaf cursor raw with
    ⟨-, heq⟩ | ⟨reason, heq⟩ | ⟨g, value, -, -, ⟨e, -, heq⟩ | ⟨g', written, -, heq⟩⟩
  · cases h.symm.trans heq
  · cases h.symm.trans heq
  · cases h.symm.trans heq
  · have houtcome := (Prod.mk.inj (Except.ok.inj (h.symm.trans heq))).2
    split_ifs at houtcome

/-- No definition has a leaf for a name, or one is the first that has. -/
theorem exists_taker (targets : List LoadTarget) (name : String) :
    (∀ t ∈ targets, t.leafFor? name = none) ∨
      ∃ before t after id leaf, targets = before ++ t :: after ∧
        (∀ t ∈ before, t.leafFor? name = none) ∧ t.leafFor? name = some (id, leaf) := by
  induction targets with
  | nil => exact Or.inl (List.forall_mem_nil _)
  | cons t rest ih =>
    cases hleaf : t.leafFor? name with
    | some found => exact Or.inr ⟨[], t, rest, found.1, found.2, rfl, List.forall_mem_nil _, hleaf⟩
    | none =>
      rcases ih with hunknown | ⟨before, t', after, id, leaf, rfl, hbefore, hleaf'⟩
      · exact Or.inl (List.forall_mem_cons.mpr ⟨hleaf, hunknown⟩)
      · exact Or.inr ⟨t :: before, t', after, id, leaf, rfl,
          List.forall_mem_cons.mpr ⟨hleaf, hbefore⟩, hleaf'⟩

/-- The first target that has a leaf for a name stands where it is found. -/
theorem takerOf?_append {before after : List LoadTarget} {t : LoadTarget} {name : String}
    (hbefore : ∀ t ∈ before, t.leafFor? name = none) (h : (t.leafFor? name).isSome) :
    takerOf? (before ++ t :: after) name = some before.length := by
  induction before with
  | nil => rw [takerOf?, List.nil_append, List.findIdx?_cons, h]; rfl
  | cons first before ih =>
    obtain ⟨hfirst, hrest⟩ := List.forall_mem_cons.mp hbefore
    have hstep := ih hrest
    rw [takerOf?] at hstep ⊢
    rw [List.cons_append, List.findIdx?_cons, hfirst, hstep]
    rfl

theorem takerOf?_eq_none_iff {targets : List LoadTarget} {name : String} :
    takerOf? targets name = none ↔ ∀ t ∈ targets, t.leafFor? name = none := by
  simp [takerOf?]

/-- Which target has a leaf for a name depends on the definitions only. -/
theorem takerOf?_congr {targets targets' : List LoadTarget}
    (h : targets'.map (·.definition) = targets.map (·.definition)) (name : String) :
    takerOf? targets' name = takerOf? targets name := by
  have hmap : ∀ ts : List LoadTarget, takerOf? ts name =
      (ts.map (·.definition)).findIdx? fun d =>
        (d.matchLeaf (Cursor.ofName name).next.2).isSome := fun ts => by
    rw [List.findIdx?_map]
    rfl
  rw [hmap, hmap, h]

/-- A name that no definition has a leaf for is given to no target. -/
theorem applyFirst_unknown {targets : List LoadTarget} {name : String} (raw : String)
    (h : ∀ t ∈ targets, t.leafFor? name = none) :
    applyFirst (Cursor.ofName name).next.2 raw targets = .ok (targets, .unknown) := by
  induction targets with
  | nil => rfl
  | cons t rest ih =>
    obtain ⟨ht, hrest⟩ := List.forall_mem_cons.mp h
    rw [LoadTarget.leafFor?] at ht
    rw [applyFirst, ht]
    simp only [ih hrest]

/-! ### Loading a name -/

variable {l : Loader} {source : Source} {value? : String → Option String} {name : String}
  {targets targets' targets'' : List LoadTarget} {report report' : LoadReport} {fate : Fate}
  {log log' : List (String × Fate)}

/-- A name outside the namespace. -/
theorem loadName_of_not_owns (h : ¬l.Owns name) : l.loadName source targets report name =
    .ok (targets, report.note (name, .unmatched)) := by
  rw [Owns] at h
  rw [loadName, if_pos h]
  rfl

/-- A name in the namespace that no definition has a leaf for. -/
theorem loadName_of_unknown (hown : l.Owns name) (h : ∀ t ∈ targets, t.leafFor? name = none) :
    l.loadName source targets report name = .ok (targets,
      report.note (name, if name ∈ l.exceptions then .excepted else .unrecognized)) := by
  rw [Owns] at hown
  rw [loadName, if_neg (not_not.mpr hown), applyFirst_unknown _ h]
  dsimp only
  split_ifs <;> rfl

/-- A name in the namespace that is given to the first target with a leaf for it. -/
theorem loadName_of_leaf {before after : List LoadTarget} {t : LoadTarget} {id : Nat} {leaf : Leaf}
    (hown : l.Owns name) (hbefore : ∀ t ∈ before, t.leafFor? name = none)
    (hleaf : t.leafFor? name = some (id, leaf)) :
    l.loadName source (before ++ t :: after) report name =
      (applyTo t leaf ⟨name, 1⟩ ((source.value? name).getD "")).map fun r =>
        (before ++ r.1 :: after, report.note (name,
          if r.2 = .applied then .applied before.length else .skipped before.length)) := by
  rw [Owns] at hown
  rw [loadName, if_neg (not_not.mpr hown), applyFirst_eq _ _ hbefore hleaf, Cursor.next_ofName hown]
  cases happly : applyTo t leaf ⟨name, 1⟩ ((source.value? name).getD "") with
  | error e => rfl
  | ok r =>
    obtain ⟨t', outcome⟩ := r
    cases outcome with
    | unknown => exact absurd rfl (applyTo_ne_unknown happly)
    | _ => rfl

/-! ### Steps and runs -/

/-- A name whose loading comes to its end takes a step, and its fate is noted. -/
theorem exists_step (h : l.loadName source targets report name = .ok (targets', report')) :
    ∃ fate, l.Step source.value? name targets fate targets' ∧
      report' = report.note (name, fate) := by
  by_cases hown : l.Owns name
  swap
  · rw [loadName_of_not_owns hown] at h
    obtain ⟨rfl, rfl⟩ := Prod.mk.inj (Except.ok.inj h)
    exact ⟨.unmatched, .unmatched hown, rfl⟩
  rcases exists_taker targets name with hunknown | ⟨before, t, after, id, leaf, rfl, hbefore, hleaf⟩
  · rw [loadName_of_unknown hown hunknown] at h
    obtain ⟨rfl, rfl⟩ := Prod.mk.inj (Except.ok.inj h)
    by_cases hexcepted : name ∈ l.exceptions
    · exact ⟨.excepted, .excepted hown hunknown hexcepted, by rw [if_pos hexcepted]⟩
    · exact ⟨.unrecognized, .unrecognized hown hunknown hexcepted, by rw [if_neg hexcepted]⟩
  rw [loadName_of_leaf hown hbefore hleaf] at h
  obtain ⟨⟨t', outcome⟩, happly, heq⟩ := ok_of_map_eq_ok h
  obtain ⟨rfl, rfl⟩ := Prod.mk.inj heq
  rcases applyTo_cases t.definition t.config leaf ⟨name, 1⟩ ((source.value? name).getD "") with
    ⟨hnone, heq⟩ | ⟨reason, heq⟩ |
      ⟨g, value, hget, hvalue, ⟨e, -, heq⟩ | ⟨g', written, hplace, heq⟩⟩
  · obtain ⟨rfl, rfl⟩ := Prod.mk.inj (Except.ok.inj (happly.symm.trans heq))
    exact ⟨_, .unrealized hown hbefore hleaf hnone, rfl⟩
  · cases happly.symm.trans heq
  · cases happly.symm.trans heq
  · rw [← Cursor.next_ofName hown] at hplace
    have hplaces : t.Places name ((source.value? name).getD "") leaf.root g' written :=
      ⟨id, leaf, g, value, hleaf, rfl, hget, Leaf.valueOf_eq_ok_iff.mp hvalue, hplace⟩
    obtain ⟨rfl, rfl⟩ := Prod.mk.inj (Except.ok.inj (happly.symm.trans heq))
    cases written with
    | true => exact ⟨_, .applied hown hbefore hplaces, rfl⟩
    | false => exact ⟨_, .unplaced hown hbefore hplaces, rfl⟩

/-- Every step is what loading the name comes to. -/
theorem Step.loadName (h : l.Step source.value? name targets fate targets') (report : LoadReport) :
    l.loadName source targets report name = .ok (targets', report.note (name, fate)) := by
  cases h with
  | unmatched outside => exact loadName_of_not_owns outside
  | unrecognized inside unknown reported => rw [loadName_of_unknown inside unknown, if_neg reported]
  | excepted inside unknown excepted => rw [loadName_of_unknown inside unknown, if_pos excepted]
  | unrealized inside unknown leafFor unrealized =>
    rw [loadName_of_leaf inside unknown leafFor, applyTo_of_unrealized _ _ unrealized]
    rfl
  | unplaced inside unknown places | applied inside unknown places =>
    obtain ⟨id, leaf, before, value, hleaf, rfl, hget, hgives, hplace⟩ := places
    rw [Cursor.next_ofName inside] at hplace
    rw [loadName_of_leaf inside unknown hleaf, applyTo_of_place hget hgives hplace]
    rfl

/-- A step is what loading the name from a source with the same values comes to, whatever the source
lists. -/
theorem Step.exists_loadName (h : l.Step value? name targets fate targets') (report : LoadReport) :
    ∃ report', l.loadName ⟨[name], value?⟩ targets report name = .ok (targets', report') :=
  ⟨_, Step.loadName h report⟩

/-- Whether a name leaves every config of a definition alone in which the same roots are realized as
in a given one. -/
def Fate.Rests (l : Loader) (value? : String → Option String) (name : String) (fate : Fate)
    (d : Definition) (c : RealizedConfig) : Prop :=
  ∀ c' : RealizedConfig, (∀ root, (c'.get? root).isSome = (c.get? root).isSome) →
    l.Step value? name [⟨d, c'⟩] fate [⟨d, c'⟩]

/-- **A step with one target** changes nothing, whatever the realized roots hold, for want of a leaf
or of its root, or it has placed the value of a leaf in its root. -/
theorem Step.single_cases {d : Definition} {c : RealizedConfig}
    (h : l.Step value? name [⟨d, c⟩] fate targets') :
    (targets' = [⟨d, c⟩] ∧ fate.isApplied = false ∧
        (l.Owns name → ∀ id leaf, LoadTarget.leafFor? ⟨d, c⟩ name = some (id, leaf) →
          c.get? leaf.root = none) ∧
        fate.Rests l value? name d c) ∨
      l.Owns name ∧ ∃ root g written,
        LoadTarget.Places ⟨d, c⟩ name ((value? name).getD "") root g written ∧
        fate = (if written then .applied 0 else .skipped 0) ∧
        targets' = [⟨d, if written then c.placed root g name ((value? name).getD "")
          else c.withRoot root g⟩] := by
  have hsingle : ∀ {before after : List LoadTarget} {t : LoadTarget},
      [⟨d, c⟩] = before ++ t :: after → before = [] ∧ after = [] ∧ t = ⟨d, c⟩ := by
    intro before after t heq
    cases before with
    | nil =>
      obtain ⟨rfl, rfl⟩ := List.cons.inj heq
      exact ⟨rfl, rfl, rfl⟩
    | cons first before => simp at heq
  have hunknown : (∀ t ∈ [LoadTarget.mk d c], t.leafFor? name = none) →
      ∀ c', ∀ t ∈ [LoadTarget.mk d c'], t.leafFor? name = none := by
    intro hall c' t ht
    obtain rfl := List.mem_singleton.mp ht
    exact hall ⟨d, c⟩ (List.mem_singleton_self _)
  have hnoLeaf : (∀ t ∈ [LoadTarget.mk d c], t.leafFor? name = none) → ∀ (id : Nat) (leaf : Leaf),
      LoadTarget.leafFor? ⟨d, c⟩ name = some (id, leaf) → c.get? leaf.root = none := by
    intro hall id leaf hleaf
    cases (hall _ (List.mem_singleton_self _)).symm.trans hleaf
  generalize htargets : [LoadTarget.mk d c] = targets at h
  cases h with
  | unmatched outside =>
    exact Or.inl ⟨rfl, rfl, fun hown => absurd hown outside, fun c' _ => .unmatched outside⟩
  | unrecognized inside unknown reported =>
    subst htargets
    exact Or.inl ⟨rfl, rfl, fun _ => hnoLeaf unknown,
      fun c' _ => .unrecognized inside (hunknown unknown c') reported⟩
  | excepted inside unknown excepted =>
    subst htargets
    exact Or.inl ⟨rfl, rfl, fun _ => hnoLeaf unknown,
      fun c' _ => .excepted inside (hunknown unknown c') excepted⟩
  | unrealized inside unknown leafFor unrealized =>
    obtain ⟨rfl, rfl, rfl⟩ := hsingle htargets
    refine Or.inl ⟨rfl, rfl, fun _ id leaf hleaf => ?_, fun c' hrealized => ?_⟩
    · obtain ⟨-, rfl⟩ := Prod.mk.inj (Option.some.inj (leafFor.symm.trans hleaf))
      exact unrealized
    have hnone : c'.get? _ = none :=
      Option.isNone_iff_eq_none.mp (by rw [← Option.not_isSome, hrealized, unrealized]; rfl)
    exact @Step.unrealized l value? name [] [] ⟨d, c'⟩ _ _ inside unknown leafFor hnone
  | unplaced inside unknown places =>
    obtain ⟨rfl, rfl, rfl⟩ := hsingle htargets
    exact Or.inr ⟨inside, _, _, false, places, rfl, rfl⟩
  | applied inside unknown places =>
    obtain ⟨rfl, rfl, rfl⟩ := hsingle htargets
    exact Or.inr ⟨inside, _, _, true, places, rfl, rfl⟩

/-- A step keeps a target a target of the same definition. -/
theorem Step.exists_single {d : Definition} {c : RealizedConfig}
    (h : l.Step value? name [⟨d, c⟩] fate targets') : ∃ c', targets' = [⟨d, c'⟩] := by
  rcases h.single_cases with ⟨heq, -⟩ | ⟨-, root, g, written, -, -, heq⟩ <;> exact ⟨_, heq⟩

/-- A step takes loaded configs to loaded configs. -/
theorem Step.isLoaded {d : Definition} {c c' : RealizedConfig} (hc : Loaded d c)
    (h : l.Step value? name [⟨d, c⟩] fate [⟨d, c'⟩]) : Loaded d c' := by
  obtain ⟨report, hload⟩ := h.exists_loadName {}
  exact hc.loadName (i := 0) hload rfl rfl

/-- Names that take steps are loaded before what follows them. -/
theorem Run.loadNames_append (h : l.Run source.value? targets log targets') (start : LoadReport)
    (rest : List String) : l.loadNames source targets start (log.map (·.1) ++ rest) =
      l.loadNames source targets' (log.foldl LoadReport.note start) rest := by
  induction h generalizing start with
  | nil => rfl
  | cons step _ ih =>
    rw [List.map_cons, List.cons_append, loadNames, step.loadName]
    exact ih _

/-- Names take steps, up to the first whose loading has no result. -/
theorem exists_run (l : Loader) (source : Source) (targets : List LoadTarget) (start : LoadReport)
    (names : List String) : ∃ log targets', l.Run source.value? targets log targets' ∧
      (names = log.map (·.1) ∨ ∃ name after e, names = log.map (·.1) ++ name :: after ∧
        l.loadName source targets' (log.foldl LoadReport.note start) name = .error e) := by
  induction names generalizing targets start with
  | nil => exact ⟨[], targets, .nil _, Or.inl rfl⟩
  | cons name rest ih =>
    cases hname : l.loadName source targets start name with
    | error e => exact ⟨[], targets, .nil _, Or.inr ⟨name, rest, e, rfl, hname⟩⟩
    | ok r =>
      obtain ⟨fate, step, hnoted⟩ := exists_step hname
      obtain ⟨log, targets', run, hends⟩ := ih r.1 r.2
      refine ⟨(name, fate) :: log, targets', .cons step run, ?_⟩
      rcases hends with rfl | ⟨other, after, e, rfl, herror⟩
      · exact Or.inl rfl
      · rw [hnoted] at herror
        exact Or.inr ⟨other, after, e, rfl, herror⟩

/-- **A load that comes to its end** is a run of steps through the names of the source, and its
report is the one on the fates of the names. -/
theorem load_eq_ok_iff : l.load source targets = (targets', .ok report) ↔
    ∃ log, log.map (·.1) = source.names ∧ l.Run source.value? targets log targets' ∧
      report = .ofLog log := by
  have hload {log : List (String × Fate)} {targets' : List LoadTarget}
      (hnames : log.map (·.1) = source.names) (run : l.Run source.value? targets log targets') :
      l.load source targets = (targets', .ok (.ofLog log)) := by
    rw [load, ← hnames, ← List.append_nil (log.map _), run.loadNames_append]
    rfl
  constructor
  · intro h
    obtain ⟨log, between, run, hnames | ⟨name, after, e, hnames, herror⟩⟩ :=
      l.exists_run source targets {} source.names
    · obtain ⟨rfl, hreport⟩ := Prod.mk.inj ((hload hnames.symm run).symm.trans h)
      exact ⟨log, hnames.symm, run, (Except.ok.inj hreport).symm⟩
    · rw [load, hnames, run.loadNames_append, loadNames, herror] at h
      cases h
  · rintro ⟨log, hnames, run, rfl⟩
    exact hload hnames run

/-- Runs one after the other are one run. -/
theorem Run.append (h : l.Run value? targets log targets')
    (h' : l.Run value? targets' log' targets'') :
    l.Run value? targets (log ++ log') targets'' := by
  induction h with
  | nil => exact h'
  | cons step _ ih => exact .cons step (ih h')

/-- A run through two lists comes to targets in between. -/
theorem Run.exists_between (h : l.Run value? targets (log ++ log') targets'') :
    ∃ targets', l.Run value? targets log targets' ∧ l.Run value? targets' log' targets'' := by
  induction log generalizing targets with
  | nil => exact ⟨targets, .nil _, h⟩
  | cons entry log ih =>
    cases h with
    | cons step run =>
      obtain ⟨targets', hfirst, hsecond⟩ := ih run
      exact ⟨targets', .cons step hfirst, hsecond⟩

/-- A load of one name more is the load of the names before it, and a step. -/
theorem load_append_singleton_iff {before : List String} :
    l.load ⟨before ++ [name], value?⟩ targets = (targets'', .ok report') ↔
      ∃ targets' report fate, l.load ⟨before, value?⟩ targets = (targets', .ok report) ∧
        l.Step value? name targets' fate targets'' ∧ report' = report.note (name, fate) := by
  rw [load_eq_ok_iff]
  constructor
  · rintro ⟨log, hnames, run, rfl⟩
    obtain ⟨first, last, rfl, hfirst, hlast⟩ := List.map_eq_append_iff.mp hnames
    obtain ⟨⟨_, fate⟩, rest, rfl, rfl, hrest⟩ := List.map_eq_cons_iff.mp hlast
    obtain rfl := List.map_eq_nil_iff.mp hrest
    obtain ⟨targets', hfirstRun, hlastRun⟩ := run.exists_between
    cases hlastRun with
    | cons step run =>
      cases run
      exact ⟨targets', .ofLog first, fate, load_eq_ok_iff.mpr ⟨first, hfirst, hfirstRun, rfl⟩, step,
        LoadReport.ofLog_append_singleton _ _⟩
  · rintro ⟨targets', report, fate, hload, step, rfl⟩
    obtain ⟨log, hnames, run, rfl⟩ := load_eq_ok_iff.mp hload
    exact ⟨log ++ [(name, fate)], by rw [List.map_append, hnames]; rfl,
      run.append (.cons step (.nil _)), (LoadReport.ofLog_append_singleton _ _).symm⟩

/-- A run takes loaded configs to loaded configs. -/
theorem Run.exists_loaded {d : Definition} {c : RealizedConfig} (hc : Loaded d c)
    (h : l.Run value? [⟨d, c⟩] log targets') : ∃ c', targets' = [⟨d, c'⟩] ∧ Loaded d c' := by
  induction log generalizing c with
  | nil =>
    cases h
    exact ⟨c, rfl, hc⟩
  | cons entry log ih =>
    cases h with
    | cons step run =>
      obtain ⟨c₁, rfl⟩ := step.exists_single
      exact ih (step.isLoaded hc) run

/-- A load that is not aborted takes loaded configs to loaded configs. -/
theorem exists_loaded_of_load {d : Definition} {c : RealizedConfig} (hc : Loaded d c)
    {source : Source} {report : LoadReport}
    (h : l.load source [⟨d, c⟩] = (targets', .ok report)) :
    ∃ c', targets' = [⟨d, c'⟩] ∧ Loaded d c' := by
  obtain ⟨log, -, run, -⟩ := load_eq_ok_iff.mp h
  exact run.exists_loaded hc

theorem exists_load_of_toOption {d : Definition} {c : RealizedConfig} (hc : Loaded d c)
    {source : Source} {report : LoadReport}
    (h : (l.load source [⟨d, c⟩]).2.toOption = some report) :
    ∃ c', l.load source [⟨d, c⟩] = ([⟨d, c'⟩], .ok report) ∧ Loaded d c' := by
  cases hload : l.load source [⟨d, c⟩] with
  | mk targets' result =>
    rw [hload] at h
    cases result with
    | error e => cases h
    | ok found =>
      obtain rfl := Option.some.inj h
      obtain ⟨c', rfl, hc'⟩ := exists_loaded_of_load hc hload
      exact ⟨c', rfl, hc'⟩

/-- A step keeps the definitions of all targets. -/
theorem Step.definitions (h : l.Step value? name targets fate targets') :
    targets'.map (·.definition) = targets.map (·.definition) := by
  cases h <;> simp

/-- A run keeps the definitions of all targets. -/
theorem Run.definitions (h : l.Run value? targets log targets') :
    targets'.map (·.definition) = targets.map (·.definition) := by
  induction h with
  | nil => rfl
  | cons step _ ih => rw [ih, step.definitions]

end Loader

end PropertyBinding

import PropertyBinding.Proofs.Bijection
import PropertyBinding.Proofs.Indices
import PropertyBinding.Proofs.LoadRuns

/-!
# Loads that come to no end

If every definition has been built by accepted declarations, the templates on the path of a leaf
are those of the definition (`Built.exists_template`), so placing a value comes to an end
(`Built.place_ok`). What is left to end a load is a raw text that cannot be read: a loader refuses a
name if the first target with a leaf for it has realized the leaf's root and the text does not read
as the leaf's kind (`Loader.Refuses`, `Loader.loadName_eq_error_iff`).

Loads change neither definitions nor which roots are realized, so whether a name is refused can be
told before the load. A load ends at the first name of its source that is refused, with the targets
to which a load of the names before it comes (`Loader.load_aborts`).
-/

namespace PropertyBinding

open Definition

/-! ### Placing comes to an end -/

/-- A template that a write asks for is one that its path names. -/
theorem Asks.exists_mem {template : Nat → Option Value} {key : Nat → Option String} {slot : Value}
    {path : List PathStep} {address : List SlotStep} {asked : Nat}
    (h : Asks template key slot path address asked) : ∃ segment, .key segment asked ∈ path := by
  induction h with
  | missing _ _ => exact ⟨_, List.mem_cons_self⟩
  | entry _ _ _ ih | field _ _ ih =>
    obtain ⟨segment, hmem⟩ := ih
    exact ⟨segment, List.mem_cons_of_mem _ hmem⟩

/-- The templates on a way are in the table, and are defaults of nodes. -/
theorem Way.exists_template {leaves : List Leaf} {templates : List Value} {piece : String → Prop}
    {node : Node} {key full : List String} {steps : List PathStep} {id segment template : Nat}
    (h : Way leaves templates piece node key steps full id)
    (hmem : .key segment template ∈ steps) :
    ∃ value, templates[template]? = some (defaultOver leaves value) := by
  induction h with
  | leaf key id => cases hmem
  | field _ _ _ ih => exact ih ((List.mem_cons.mp hmem).resolve_left nofun)
  | entry template_eq _ ih =>
    rcases List.mem_cons.mp hmem with heq | hrest
    · obtain ⟨-, rfl⟩ := PathStep.key.inj heq
      exact ⟨_, template_eq⟩
    · exact ih hrest

section Built

variable {good : RootDecl → Prop} {d : Definition} {id : Nat} {leaf : Leaf}

/-- In a definition built by accepted declarations, the path of a leaf names templates of the
definition, which are defaults of nodes. -/
theorem Built.exists_template (h : Built good d) (hleaf : d.leaf? id = some leaf)
    {segment template : Nat} (hmem : .key segment template ∈ leaf.path) :
    ∃ value, d.template? template = some (d.defaultValue value) := by
  obtain ⟨root, hroot, hid⟩ := h.owned (List.getElem?_eq_some_iff.mp hleaf).1
  obtain ⟨leaf', hleaf', -, steps, full, hpath, -, way⟩ :=
    (h.sound_any.laid root hroot).exists_leaf hid
  obtain rfl := Option.some.inj (hleaf.symm.trans hleaf')
  rw [hpath] at hmem
  exact way.exists_template hmem

/-- In a definition built by accepted declarations, placing a value comes to an end. -/
theorem Built.place_ok (h : Built good d) (hleaf : d.leaf? id = some leaf) (name : Cursor)
    (value : Value) (g : Group) : ∃ g' written, leaf.place d name value g = .ok (g', written) := by
  cases hplace : leaf.place d name value g with
  | ok r => exact ⟨r.1, r.2, rfl⟩
  | error e =>
    obtain ⟨address, asked, hasks, hnone, -⟩ := Leaf.place_eq_error_iff.mp hplace
    obtain ⟨segment, hmem⟩ := hasks.exists_mem
    obtain ⟨v, hv⟩ := h.exists_template hleaf hmem
    cases hnone.symm.trans hv

end Built

/-! ### Names that are refused -/

namespace Loader

/-- Whether a loader refuses a name for a reason: it lies in the namespace, the first target with a
leaf for it has realized the leaf's root, and the leaf rejects the raw text. -/
def Refuses (l : Loader) (value? : String → Option String) (targets : List LoadTarget)
    (name : String) (reason : ConversionError) : Prop :=
  l.Owns name ∧ ∃ i t id leaf, takerOf? targets name = some i ∧ targets[i]? = some t ∧
    t.leafFor? name = some (id, leaf) ∧ (t.config.get? leaf.root).isSome ∧
    leaf.Rejects ((value? name).getD "") reason

variable {l : Loader} {source : Source} {targets targets' : List LoadTarget} {name : String}
  {e : BindError}

/-- Giving a raw text to a target has no result exactly if the root of the leaf is realized and the
leaf rejects the text. -/
theorem applyTo_eq_error_iff {good : RootDecl → Prop} {t : LoadTarget}
    (h : Built good t.definition) {id : Nat} {leaf : Leaf} {cursor : Cursor} {raw : String}
    (hmatch : t.definition.matchLeaf cursor = some (id, leaf)) :
    applyTo t leaf cursor raw = .error e ↔ (t.config.get? leaf.root).isSome ∧
      ∃ reason, leaf.Rejects raw reason ∧ e = .conversion cursor.name raw reason := by
  cases hget : t.config.get? leaf.root with
  | none => simp [applyTo_of_unrealized cursor raw hget]
  | some before =>
    rw [← Leaf.valueOf_eq_error_iff, and_iff_right (Option.isSome_some)]
    cases hvalue : leaf.valueOf cursor.name raw with
    | error e' =>
      rw [applyTo]
      simp [hget, hvalue]
    | ok value =>
      obtain ⟨g, written, hplace⟩ := h.place_ok (matchLeaf_eq_some hmatch).2 cursor value before
      rw [applyTo_of_place hget (Leaf.valueOf_eq_ok_iff.mp hvalue) hplace]
      simp

/-- **What ends the loading of a name** is that it is refused. -/
theorem loadName_eq_error_iff (hbuilt : ∀ t ∈ targets, Built (fun _ => True) t.definition)
    {report : LoadReport} : l.loadName source targets report name = .error e ↔
      ∃ reason, l.Refuses source.value? targets name reason ∧
        e = .conversion name ((source.value? name).getD "") reason := by
  by_cases hown : l.Owns name
  swap
  · rw [loadName_of_not_owns hown]
    simp [Refuses, hown]
  rcases exists_taker targets name with hunknown | ⟨before, t, after, id, leaf, rfl, hbefore, hleaf⟩
  · rw [loadName_of_unknown hown hunknown]
    simp [Refuses, takerOf?_eq_none_iff.mpr hunknown]
  have htaker : takerOf? (before ++ t :: after) name = some before.length :=
    takerOf?_append hbefore (by rw [hleaf]; rfl)
  have ht : (before ++ t :: after)[before.length]? = some t := by simp
  -- The target is determined by the name, so a refusal is one by this target.
  have hrefuses : ∀ reason, l.Refuses source.value? (before ++ t :: after) name reason ↔
      (t.config.get? leaf.root).isSome ∧ leaf.Rejects ((source.value? name).getD "") reason := by
    intro reason
    constructor
    · rintro ⟨-, i, t', id', leaf', hi, ht', hleaf', hrealized, hrejects⟩
      obtain rfl := Option.some.inj (htaker.symm.trans hi)
      obtain rfl := Option.some.inj (ht.symm.trans ht')
      obtain ⟨-, rfl⟩ := Prod.mk.inj (Option.some.inj (hleaf.symm.trans hleaf'))
      exact ⟨hrealized, hrejects⟩
    · rintro ⟨hrealized, hrejects⟩
      exact ⟨hown, before.length, t, id, leaf, htaker, ht, hleaf, hrealized, hrejects⟩
  have hmatch : t.definition.matchLeaf ⟨name, 1⟩ = some (id, leaf) := by
    rw [← Cursor.next_ofName hown]
    exact hleaf
  rw [loadName_of_leaf hown hbefore hleaf, map_eq_error_iff,
    applyTo_eq_error_iff (hbuilt t (by simp)) hmatch]
  simp only [hrefuses, and_assoc, exists_and_left]

/-! ### Refusals in the course of a load -/

/-- A load stops at the first name whose loading has no result. -/
theorem load_eq_error_iff : l.load source targets = (targets', .error e) ↔
    ∃ log name after, source.names = log.map (·.1) ++ name :: after ∧
      l.Run source.value? targets log targets' ∧
      l.loadName source targets' (.ofLog log) name = .error e := by
  have hload {log : List (String × Fate)} {targets' : List LoadTarget} {name : String}
      {after : List String} {e : BindError} (hnames : source.names = log.map (·.1) ++ name :: after)
      (run : l.Run source.value? targets log targets')
      (herror : l.loadName source targets' (.ofLog log) name = .error e) :
      l.load source targets = (targets', .error e) := by
    rw [LoadReport.ofLog] at herror
    rw [load, hnames, run.loadNames_append, loadNames, herror]
  constructor
  · intro h
    obtain ⟨log, between, run, hnames | ⟨name, after, e', hnames, herror⟩⟩ :=
      l.exists_run source targets {} source.names
    · cases h.symm.trans (load_eq_ok_iff.mpr ⟨log, hnames.symm, run, rfl⟩)
    · obtain ⟨rfl, heq⟩ := Prod.mk.inj ((hload hnames run herror).symm.trans h)
      obtain rfl := Except.error.inj heq
      exact ⟨log, name, after, hnames, run, herror⟩
  · rintro ⟨log, name, after, hnames, run, herror⟩
    exact hload hnames run herror

variable {value? : String → Option String} {log : List (String × Fate)} {fate : Fate}
  {reason : ConversionError}

/-- A run keeps which roots are realized. -/
theorem Run.keepsRoots (h : l.Run value? targets log targets') :
    List.Forall₂ LoadTarget.KeepsRoots targets targets' := by
  induction h with
  | nil targets => exact LoadTarget.keepsRoots_keptByLoads.refl_all targets
  | cons step _ ih =>
    obtain ⟨report, hload⟩ := step.exists_loadName {}
    exact LoadTarget.keepsRoots_keptByLoads.trans_all
      (LoadTarget.keepsRoots_keptByLoads.loadName hload) ih

/-- A name that is refused is refused by all targets with the same definitions and the same realized
roots. -/
theorem Refuses.of_keepsRoots (h : l.Refuses value? targets name reason)
    (hdefinitions : targets'.map (·.definition) = targets.map (·.definition))
    (hroots : List.Forall₂ LoadTarget.KeepsRoots targets targets') :
    l.Refuses value? targets' name reason := by
  obtain ⟨hown, i, t, id, leaf, htaker, ht, hleaf, hrealized, hrejects⟩ := h
  obtain ⟨hi, rfl⟩ := List.getElem?_eq_some_iff.mp ht
  have hi' : i < targets'.length := hroots.length_eq ▸ hi
  obtain ⟨hdefinition, -, hkept⟩ : targets[i].KeepsRoots targets'[i] := hroots.get hi hi'
  refine ⟨hown, i, targets'[i], id, leaf, ?_, List.getElem?_eq_getElem hi', ?_, ?_, hrejects⟩
  · rw [takerOf?_congr hdefinitions, htaker]
  · rw [LoadTarget.leafFor?, hdefinition]
    exact hleaf
  · rw [hkept, hrealized]

/-- Whether a name is refused does not change in the course of a load. -/
theorem Run.refuses_iff (h : l.Run value? targets log targets') :
    l.Refuses value? targets' name reason ↔ l.Refuses value? targets name reason := by
  refine ⟨fun hrefuses => hrefuses.of_keepsRoots h.definitions.symm ?_,
    fun hrefuses => hrefuses.of_keepsRoots h.definitions h.keepsRoots⟩
  exact h.keepsRoots.flip.imp fun _ _ hkeeps =>
    ⟨hkeeps.1.symm, hkeeps.2.1.symm, fun name => (hkeeps.2.2 name).symm⟩

/-- A run keeps definitions that have been built by accepted declarations. -/
theorem Run.built (h : l.Run value? targets log targets')
    (hbuilt : ∀ t ∈ targets, Built (fun _ => True) t.definition) :
    ∀ t ∈ targets', Built (fun _ => True) t.definition := by
  have hall : ∀ d ∈ targets.map (·.definition), Built (fun _ => True) d :=
    List.forall_mem_map.mpr hbuilt
  rw [← h.definitions] at hall
  exact List.forall_mem_map.mp hall

/-- No name of a run is refused. -/
theorem Run.not_refuses (h : l.Run value? targets log targets')
    (hbuilt : ∀ t ∈ targets, Built (fun _ => True) t.definition) :
    ∀ entry ∈ log, ∀ reason, ¬l.Refuses value? targets entry.1 reason := by
  induction h with
  | nil => exact List.forall_mem_nil _
  | cons step _ ih =>
    have hrun := Run.cons step (.nil _)
    refine List.forall_mem_cons.mpr ⟨fun reason hrefuses => ?_, fun entry hentry reason => ?_⟩
    · obtain ⟨report, hload⟩ := step.exists_loadName {}
      cases hload.symm.trans (loadName_eq_error_iff hbuilt |>.mpr ⟨reason, hrefuses, rfl⟩)
    · rw [← hrun.refuses_iff]
      exact ih (hrun.built hbuilt) entry hentry reason

/-- A load ends without a report exactly at the first name that is refused, with the targets to
which a load of the names before it comes. -/
theorem load_eq_error_iff_refuses (hbuilt : ∀ t ∈ targets, Built (fun _ => True) t.definition) :
    l.load source targets = (targets', .error e) ↔
      ∃ before name after reason report, source.names = before ++ name :: after ∧
        (∀ other ∈ before, ∀ reason, ¬l.Refuses source.value? targets other reason) ∧
        l.Refuses source.value? targets name reason ∧
        e = .conversion name ((source.value? name).getD "") reason ∧
        l.load ⟨before, source.value?⟩ targets = (targets', .ok report) := by
  rw [load_eq_error_iff]
  constructor
  · rintro ⟨log, name, after, hnames, run, herror⟩
    obtain ⟨reason, hrefuses, rfl⟩ := (loadName_eq_error_iff (run.built hbuilt)).mp herror
    exact ⟨_, name, after, reason, _, hnames, List.forall_mem_map.mpr (run.not_refuses hbuilt),
      run.refuses_iff.mp hrefuses, rfl, load_eq_ok_iff.mpr ⟨log, rfl, run, rfl⟩⟩
  · rintro ⟨before, name, after, reason, report, hnames, -, hrefuses, rfl, hload⟩
    obtain ⟨log, rfl, run, -⟩ := load_eq_ok_iff.mp hload
    exact ⟨log, name, after, hnames, run, (loadName_eq_error_iff (run.built hbuilt)).mpr
      ⟨reason, run.refuses_iff.mpr hrefuses, rfl⟩⟩

/-- **An aborted load is the load of the names before**: a load ends without a report exactly at the
first name that is refused, with the full name and its raw text in the error and the targets to
which a load of the names before it comes. It comes to its end exactly if no name is refused. -/
theorem load_aborts (l : Loader) (source : Source) {targets : List LoadTarget}
    (hbuilt : ∀ t ∈ targets, Built (fun _ => True) t.definition) :
    ((∃ e, (l.load source targets).2 = .error e) ↔
        ∃ name ∈ source.names, ∃ reason, l.Refuses source.value? targets name reason) ∧
      ∀ targets' e, l.load source targets = (targets', .error e) ↔
        ∃ before name after reason report, source.names = before ++ name :: after ∧
          (∀ other ∈ before, ∀ reason, ¬l.Refuses source.value? targets other reason) ∧
          l.Refuses source.value? targets name reason ∧
          e = .conversion name ((source.value? name).getD "") reason ∧
          l.load ⟨before, source.value?⟩ targets = (targets', .ok report) := by
  refine ⟨⟨?_, ?_⟩, fun targets' e => load_eq_error_iff_refuses hbuilt⟩
  · rintro ⟨e, herror⟩
    obtain ⟨before, name, after, reason, report, hnames, -, hrefuses, -⟩ :=
      (load_eq_error_iff_refuses hbuilt).mp (Prod.ext rfl herror)
    exact ⟨name, by simp [hnames], reason, hrefuses⟩
  · rintro ⟨name, hname, reason, hrefuses⟩
    cases hload : (l.load source targets).2 with
    | error e => exact ⟨e, rfl⟩
    | ok report =>
      obtain ⟨log, hnames, run, -⟩ := load_eq_ok_iff.mp (Prod.ext rfl hload)
      rw [← hnames] at hname
      obtain ⟨entry, hentry, rfl⟩ := List.mem_map.mp hname
      exact absurd hrefuses (run.not_refuses hbuilt entry hentry reason)

/-- A text that does not read as a number ends a load behind the first of three names, and makes no
map entry. -/
theorem load_aborts_plainDecl :
    let d := (empty.registerRoot plainDecl).1
    let l := ofNamespace "app"
    let source := (Properties.ofPairs
      [("app.a.m.k.v", "x"), ("app.a.m.j.n", "seven"), ("app.a.m.k.n", "8")]).toSource
    let targets : List LoadTarget := [⟨d, d.realize .runtime⟩]
    (∀ t ∈ targets, Built (fun _ => True) t.definition) ∧
      ∃ targets' name reason, l.load source targets =
          (targets', .error (.conversion name ((source.value? name).getD "") reason)) ∧
        (∃ before after report, source.names = before ++ name :: after ∧
          l.load ⟨before, source.value?⟩ targets = (targets', .ok report)) ∧
        name = "app.a.m.j.n" ∧ targets'.map (fun t => (t.config.get? "a").bind fun g =>
          ((g.get? "m").bind Value.asMap?).map Entries.keys) = [some ["k"]] := by
  intro d l source targets
  have hbuilt : ∀ t ∈ targets, Built (fun _ => True) t.definition :=
    List.forall_mem_singleton.mpr (.register .empty trivial (Prod.ext rfl (by decide +kernel)))
  have hrun : (match (l.load source targets).2 with
        | .error (.conversion name _ _) => some name
        | _ => none) = some "app.a.m.j.n" ∧
      (l.load source targets).1.map (fun t => (t.config.get? "a").bind fun g =>
        ((g.get? "m").bind Value.asMap?).map Entries.keys) = [some ["k"]] := by
    decide +kernel
  obtain ⟨hname, hkeys⟩ := hrun
  cases hload : (l.load source targets).2 with
  | ok report => simp [hload] at hname
  | error e =>
    have heq : l.load source targets = ((l.load source targets).1, .error e) := Prod.ext rfl hload
    obtain ⟨before, name, after, reason, report, hnames, -, -, rfl, hbefore⟩ :=
      ((load_aborts l source hbuilt).2 _ e).mp heq
    refine ⟨hbuilt, _, name, reason, heq, ⟨before, after, report, hnames, hbefore⟩, ?_, hkeys⟩
    simpa [hload] using hname

end Loader

end PropertyBinding

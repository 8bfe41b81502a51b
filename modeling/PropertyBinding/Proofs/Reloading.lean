import PropertyBinding.Proofs.Aborting
import PropertyBinding.Proofs.LoadReports
import PropertyBinding.Proofs.Writings

/-!
# Loading twice

In a definition built by accepted declarations, placing the value of a leaf is a writing
(`Built.exists_writing`). So is what a name does to one target of a load, if the graph and the
literal texts of the target are taken together (`RealizedConfig.noted`): the definitions decide
whether the target is given the value, and a writing that leaves everything alone stands for a name
that is not for it (`Loader.exists_actsAs`).

A run is the writings of its names in every target (`Loader.Run.noted`), so a second run through the
same names changes nothing (`Loader.Run.twice`). Whether a name is refused does not change in the
course of a load, nor does what is reported, so that a second load comes to the same end
(`Loader.load_twice`).
-/

namespace PropertyBinding

open Definition

/-! ### Writes as writings -/

/-- If the templates of a path are there, writing a scalar along it is a writing. -/
theorem Value.exists_writing {template : Nat → Option Value} (key : Nat → Option String)
    {value : Value} (hscalar : value.IsScalar) (path : List PathStep)
    (htemplates : ∀ segment entry, .key segment entry ∈ path → ∃ v, template entry = some v) :
    ∃ w : Writing, ∀ v : Value,
      v.write template key value path = .ok (w.apply v, w.reaches v) := by
  induction path with
  | nil => exact ⟨.replace value hscalar, fun v => rfl⟩
  | cons step rest ih =>
    obtain ⟨w, hw⟩ := ih fun segment entry hmem =>
      htemplates segment entry (List.mem_cons_of_mem _ hmem)
    cases step with
    | field ident =>
      refine ⟨.into (.field ident) w, fun v => ?_⟩
      cases hslot : v.slot? (.field ident) with
      | none =>
        have hbelow : v.below? (.field ident) = none := by
          cases v with
          | group g => exact hslot
          | _ => rfl
        rw [Value.write_field_of_none hslot, Writing.apply_into_of_none hbelow,
          Writing.reaches_into_of_none hbelow]
      | some inner =>
        have hbelow := Value.below?_of_slot? (s := .field ident) hslot
        rw [Value.write_field hslot, hw, Writing.apply_into hbelow, Writing.reaches_into hbelow]
        rfl
    | key segment entry =>
      obtain ⟨made, hmade⟩ := htemplates segment entry List.mem_cons_self
      cases hkey : key segment with
      | none => exact ⟨.leave, fun v => Value.write_key_of_none hkey⟩
      | some k =>
        refine ⟨.into (.entry k made) w, fun v => ?_⟩
        cases v with
        | map entries =>
          have hor : (entries.lookup k).or (template entry) =
              some ((entries.lookup k).getD made) := by
            rw [hmade]
            cases entries.lookup k <;> rfl
          rw [Value.write_entry hkey hor, hw]
          rfl
        | _ => exact Value.write_key_of_asMap?_eq_none rfl

/-- If the templates of a leaf's path are there, placing a scalar for the leaf is a writing. -/
theorem Leaf.exists_writing {d : Definition} {leaf : Leaf} (name : Cursor) {value : Value}
    (hscalar : value.IsScalar)
    (htemplates : ∀ segment entry, .key segment entry ∈ leaf.path →
      ∃ v, d.template? entry = some v) :
    ∃ w : Writing, ∀ g g' written, leaf.place d name value g = .ok (g', written) →
      w.apply (.group g) = .group g' ∧ w.reaches (.group g) = written := by
  cases hpath : leaf.path with
  | nil =>
    refine ⟨.leave, fun g g' written hplace => ?_⟩
    rw [Leaf.place, hpath] at hplace
    obtain ⟨rfl, rfl⟩ := Prod.mk.inj (Except.ok.inj hplace)
    exact ⟨rfl, rfl⟩
  | cons step rest =>
    cases step with
    | field ident =>
      obtain ⟨w, hw⟩ := Value.exists_writing
        (fun segment => name.segment? (name.position + segment)) hscalar leaf.path htemplates
      refine ⟨w, fun g g' written hplace => ?_⟩
      have hwrite := (Leaf.place_eq hpath).symm.trans (congrArg _ hplace)
      exact Prod.mk.inj (Except.ok.inj ((hw (.group g)).symm.trans hwrite))
    | key segment entry =>
      refine ⟨.leave, fun g g' written hplace => ?_⟩
      rw [Leaf.place, hpath] at hplace
      obtain ⟨rfl, rfl⟩ := Prod.mk.inj (Except.ok.inj hplace)
      exact ⟨rfl, rfl⟩

/-- In a definition built by accepted declarations, placing the value that a raw text gives a leaf
is a writing. -/
theorem Built.exists_writing {good : RootDecl → Prop} {d : Definition} (h : Built good d) {id : Nat}
    {leaf : Leaf} (hleaf : d.leaf? id = some leaf) (name : Cursor) (raw : String) :
    ∃ w : Writing, ∀ value g g' written, leaf.Gives raw value →
      leaf.place d name value g = .ok (g', written) →
        w.apply (.group g) = .group g' ∧ w.reaches (.group g) = written := by
  by_cases hvalue : ∃ value, leaf.Gives raw value
  · obtain ⟨value, hgives⟩ := hvalue
    have hscalar : value.IsScalar :=
      Leaf.valueOf_isScalar (h.sound_any.scalar leaf (List.mem_of_getElem? hleaf))
        (Leaf.valueOf_eq_ok_iff.mpr hgives : leaf.valueOf raw raw = .ok value)
    obtain ⟨w, hw⟩ := Leaf.exists_writing name hscalar fun segment entry hmem =>
      ⟨_, (h.exists_template hleaf hmem).choose_spec⟩
    refine ⟨w, fun other g g' written hgives' hplace => ?_⟩
    rw [← hgives.unique hgives'] at hplace
    exact hw g g' written hplace
  · exact ⟨.leave, fun value _ _ _ hgives => absurd ⟨value, hgives⟩ hvalue⟩

/-! ### Realized roots as one value -/

namespace RealizedConfig

/-- The realized roots as the attributes of one group, and the literal texts of the names that have
been loaded. -/
def noted (c : RealizedConfig) : NotedValue where
  value := .group ⟨"", c.roots.map fun root => (root.1, .group root.2)⟩
  texts := c.loaded

variable {c c' : RealizedConfig} {root name raw : String} {g g' : Group} {w : Writing}

/-- The attributes are the realized roots. -/
theorem noted_slot? (c : RealizedConfig) (root : String) :
    c.noted.value.slot? (.field root) = (c.get? root).map .group :=
  Entries.lookup_map Value.group root c.roots

/-- Putting a root is putting an attribute. -/
theorem noted_withRoot (c : RealizedConfig) (root : String) (g : Group) :
    (c.withRoot root g).noted.value = c.noted.value.put (.field root) (.group g) :=
  congrArg (fun fields => Value.group ⟨"", fields⟩) (Entries.map_put Value.group root g c.roots)

/-- The attributes and the texts determine a config, but for the names of its types. -/
theorem eq_of_noted_eq (hnoted : c'.noted = c.noted) (hbyType : c'.byType = c.byType) : c' = c := by
  obtain ⟨roots, byType, loaded⟩ := c
  obtain ⟨roots', byType', loaded'⟩ := c'
  obtain ⟨hvalue, hloaded⟩ := NotedValue.mk.inj hnoted
  obtain ⟨-, hmap⟩ := Group.mk.inj (Value.group.inj hvalue)
  have hroots : roots' = roots := by
    refine List.map_injective_iff.mpr (fun a b hab => ?_) hmap
    obtain ⟨hname, hgroup⟩ := Prod.mk.inj hab
    exact Prod.ext hname (Value.group.inj hgroup)
  obtain rfl := hroots
  obtain rfl : byType' = byType := hbyType
  obtain rfl : loaded' = loaded := hloaded
  rfl

/-- Placing a value in a root, for a name and its text, is a writing into the attribute. -/
theorem note_noted (hget : c.get? root = some g) (happly : w.apply (.group g) = .group g') :
    (Writing.into (.field root) w).note name raw c.noted =
      (if w.reaches (.group g) then c.placed root g' name raw else c.withRoot root g').noted := by
  have hslot : c.noted.value.slot? (WriteStep.field root).slot = some (.group g) := by
    rw [WriteStep.slot, noted_slot?, hget, Option.map_some]
  have hbelow := Value.below?_of_slot? hslot
  rw [Writing.note, Writing.apply_into hbelow, Writing.reaches_into hbelow, happly, WriteStep.slot,
    ← noted_withRoot]
  cases w.reaches (.group g) <;> rfl

/-- Without the root, nothing is written. -/
theorem note_noted_of_none (hget : c.get? root = none) :
    (Writing.into (.field root) w).note name raw c.noted = c.noted := by
  have hbelow : c.noted.value.below? (.field root) = none := by
    change c.noted.value.slot? (.field root) = none
    rw [noted_slot?, hget, Option.map_none]
  rw [Writing.note, Writing.apply_into_of_none hbelow, Writing.reaches_into_of_none hbelow]
  rfl

end RealizedConfig

/-! ### What a name does to a target -/

namespace Loader

variable {l : Loader} {source : Source} {value? : String → Option String} {name : String}
  {start targets targets' targets'' : List LoadTarget} {report report' : LoadReport} {fate : Fate}
  {log log' : List (String × Fate)} {i : Nat} {t : LoadTarget}

/-- Whether a writing is what a name does to the target at a position, whatever is in the configs of
the targets: only their definitions count. -/
def ActsAs (l : Loader) (value? : String → Option String) (start : List LoadTarget) (i : Nat)
    (name : String) (w : Writing) : Prop :=
  ∀ targets fate targets', targets.map (·.definition) = start.map (·.definition) →
    l.Step value? name targets fate targets' → ∀ t, targets[i]? = some t →
      ∃ t', targets'[i]? = some t' ∧ t'.config.byType = t.config.byType ∧
        t'.config.noted = w.note name ((value? name).getD "") t.config.noted

/-- **What a name does to a target** is a writing: the definitions decide which target is given the
value, and where it is placed. -/
theorem exists_actsAs (hbuilt : ∀ t ∈ start, Built (fun _ => True) t.definition) (l : Loader)
    (value? : String → Option String) (i : Nat) (name : String) :
    ∃ w : Writing, l.ActsAs value? start i name w := by
  by_cases hmine : l.Owns name ∧ takerOf? start name = some i
  swap
  · refine ⟨.leave, fun targets fate targets' hdefinitions step t ht => ⟨t, ?_, rfl, rfl⟩⟩
    rw [step.getElem?_eq, ht]
    rw [step.target?_eq, takerOf?_congr hdefinitions]
    split_ifs with hown
    · exact fun htaker => hmine ⟨hown, htaker⟩
    · exact nofun
  obtain ⟨hown, htaker⟩ := hmine
  obtain ⟨hi, hleaf, -⟩ := List.findIdx?_eq_some_iff_getElem.mp htaker
  obtain ⟨⟨id, leaf⟩, hleaf⟩ := Option.isSome_iff_exists.mp hleaf
  obtain ⟨w, hw⟩ := (hbuilt _ (List.getElem_mem hi)).exists_writing (matchLeaf_eq_some hleaf).2
    (Cursor.ofName name).next.2 ((value? name).getD "")
  refine ⟨.into (.field leaf.root) w, fun targets fate targets' hdefinitions step t ht => ?_⟩
  have hdefinition : t.definition = start[i].definition := by
    have hat := congrArg (·[i]?) hdefinitions
    simpa [ht, hi] using hat
  have hfate : fate.target? = some i := by
    rw [step.target?_eq, if_pos hown, takerOf?_congr hdefinitions, htaker]
  obtain ⟨id', leaf', t', hleaf', ht', heffect⟩ := step.taken hfate ht
  rw [LoadTarget.leafFor?, hdefinition] at hleaf'
  obtain ⟨rfl, rfl⟩ := Prod.mk.inj (Option.some.inj (hleaf.symm.trans hleaf'))
  refine ⟨t', ht', ?_⟩
  rcases heffect with ⟨hnone, -, rfl⟩ | ⟨g, value, g', written, hget, hgives, hplace, -, rfl⟩
  · exact ⟨rfl, (RealizedConfig.note_noted_of_none hnone).symm⟩
  · rw [hdefinition] at hplace
    obtain ⟨happly, rfl⟩ := hw value g g' written hgives hplace
    refine ⟨?_, (RealizedConfig.note_noted hget happly).symm⟩
    cases w.reaches (.group g) <;> rfl

/-- **A run is the writings of its names** in every target. -/
theorem Run.noted {writing : String → Writing}
    (hwriting : ∀ name, l.ActsAs value? start i name (writing name))
    (h : l.Run value? targets log targets')
    (hdefinitions : targets.map (·.definition) = start.map (·.definition))
    (ht : targets[i]? = some t) :
    ∃ t', targets'[i]? = some t' ∧ t'.config.byType = t.config.byType ∧
      t'.config.noted = Writing.noteAll writing (fun name => (value? name).getD "")
        (log.map (·.1)) t.config.noted := by
  induction h generalizing t with
  | nil => exact ⟨t, ht, rfl, rfl⟩
  | cons step _ ih =>
    obtain ⟨t₁, ht₁, hbyType₁, hnoted₁⟩ := hwriting _ _ _ _ hdefinitions step t ht
    obtain ⟨t', ht', hbyType', hnoted'⟩ := ih (step.definitions.trans hdefinitions) ht₁
    exact ⟨t', ht', hbyType'.trans hbyType₁, by rw [hnoted', hnoted₁]; rfl⟩

/-- **A second run through the same names changes nothing.** -/
theorem Run.twice (hbuilt : ∀ t ∈ targets, Built (fun _ => True) t.definition)
    (h : l.Run value? targets log targets') (h' : l.Run value? targets' log' targets'')
    (hnames : log'.map (·.1) = log.map (·.1)) : targets'' = targets' := by
  have hdefinitions := h'.definitions
  refine List.ext_getElem? fun i => ?_
  cases ht : targets[i]? with
  | none =>
    have hlength : targets'.length = targets.length := by
      simpa using congrArg List.length h.definitions
    have hlength' : targets''.length = targets'.length := by
      simpa using congrArg List.length hdefinitions
    have hle := List.getElem?_eq_none_iff.mp ht
    rw [List.getElem?_eq_none (by omega), List.getElem?_eq_none (by omega)]
  | some t =>
    choose writing hwriting using exists_actsAs hbuilt l value? i
    obtain ⟨t', ht', -, hnoted⟩ := h.noted hwriting rfl ht
    obtain ⟨t'', ht'', hbyType, hnoted'⟩ := h'.noted hwriting h.definitions ht'
    have hdefinition : t''.definition = t'.definition := by
      simpa [ht', ht''] using congrArg (·[i]?) hdefinitions
    have hconfig : t''.config = t'.config := by
      refine RealizedConfig.eq_of_noted_eq ?_ hbyType
      rw [hnoted', hnames, hnoted, Writing.noteAll_noteAll]
    obtain ⟨definition, config⟩ := t'
    obtain ⟨definition'', config''⟩ := t''
    obtain rfl : definition'' = definition := hdefinition
    obtain rfl : config'' = config := hconfig
    rw [ht', ht'']

/-! ### Loads -/

/-- What is reported by runs through the same names depends on the definitions only. -/
theorem Run.reported_twice (h : l.Run source.value? targets log targets')
    (h' : l.Run source.value? targets' log' targets'') (hnames : log.map (·.1) = source.names)
    (hnames' : log'.map (·.1) = source.names) :
    (LoadReport.ofLog log').unmatched = (LoadReport.ofLog log).unmatched ∧
      (LoadReport.ofLog log').unrecognized = (LoadReport.ofLog log).unrecognized := by
  have haccounts := h.accounts hnames (LoadReport.sums_ofLog log)
  have haccounts' := h'.accounts hnames' (LoadReport.sums_ofLog log')
  constructor
  · exact LoadReport.eq_of_ascending haccounts'.ascending haccounts.ascending fun name =>
      (haccounts'.unmatched name).trans (haccounts.unmatched name).symm
  · rw [haccounts'.unrecognized, haccounts.unrecognized]
    simp only [takerOf?_congr h.definitions]

/-- A load that has come to its end does so again, and changes nothing. -/
theorem load_again (hbuilt : ∀ t ∈ targets, Built (fun _ => True) t.definition)
    (h : l.load source targets = (targets', .ok report)) :
    ∃ report', l.load source targets' = (targets', .ok report') ∧
      report'.unmatched = report.unmatched ∧ report'.unrecognized = report.unrecognized := by
  obtain ⟨log, hnames, run, rfl⟩ := load_eq_ok_iff.mp h
  cases hagain : l.load source targets' with
  | mk targets'' result =>
    cases result with
    | error e =>
      obtain ⟨before, name, after, reason, -, hsplit, -, hrefuses, -⟩ :=
        (load_eq_error_iff_refuses (run.built hbuilt)).mp hagain
      have hname : name ∈ log.map (·.1) := by simp [hnames, hsplit]
      obtain ⟨entry, hentry, rfl⟩ := List.mem_map.mp hname
      exact absurd (run.refuses_iff.mp hrefuses) (run.not_refuses hbuilt entry hentry reason)
    | ok report' =>
      obtain ⟨log', hnames', run', rfl⟩ := load_eq_ok_iff.mp hagain
      obtain rfl := run.twice hbuilt run' (hnames'.trans hnames.symm)
      exact ⟨_, rfl, run.reported_twice run' hnames hnames'⟩

/-- **Loading is idempotent**: if all definitions have been built by accepted declarations, a second
load of the same source leaves every target as the first has left it, whatever the targets were and
whether the first has come to its end. It has the same end, and reports the same names. -/
theorem load_twice (l : Loader) (source : Source) {targets : List LoadTarget}
    (hbuilt : ∀ t ∈ targets, Built (fun _ => True) t.definition) :
    let once := l.load source targets
    let twice := l.load source once.1
    twice.1 = once.1 ∧ (∀ e, once.2 = .error e → twice.2 = .error e) ∧
      ∀ report, once.2 = .ok report → ∃ report', twice.2 = .ok report' ∧
        report'.unmatched = report.unmatched ∧ report'.unrecognized = report.unrecognized := by
  intro once twice
  cases hend : once.2 with
  | ok report =>
    obtain ⟨report', hagain, hreported⟩ := load_again hbuilt (Prod.ext rfl hend)
    have htwice : twice = (once.1, .ok report') := hagain
    rw [htwice]
    refine ⟨rfl, nofun, fun found hfound => ?_⟩
    obtain rfl := Except.ok.inj hfound
    exact ⟨report', rfl, hreported⟩
  | error e =>
    -- The names before the one that is refused are loaded to the end, and may be loaded again.
    obtain ⟨before, name, after, reason, report, hnames, hbefore, hrefuses, rfl, hload⟩ :=
      (load_eq_error_iff_refuses hbuilt).mp (show l.load source targets = (once.1, .error e) from
        Prod.ext rfl hend)
    obtain ⟨report', hagain, -⟩ := load_again hbuilt hload
    obtain ⟨log, -, run, -⟩ := load_eq_ok_iff.mp hload
    have htwice : twice = (once.1, .error _) :=
      (load_eq_error_iff_refuses (run.built hbuilt)).mpr ⟨before, name, after, reason, report',
        hnames, fun other hother reason hrefuses =>
          hbefore other hother reason (run.refuses_iff.mp hrefuses),
        run.refuses_iff.mpr hrefuses, rfl, hagain⟩
    rw [htwice]
    exact ⟨rfl, fun e he => he, nofun⟩

/-- Two names for one slot, loaded twice: to the end, and up to a text that is no number. -/
theorem load_twice_plainDecl :
    let d := (empty.registerRoot plainDecl).1
    let l := ofNamespace "app"
    let targets : List LoadTarget := [⟨d, d.realize .runtime⟩]
    let read := fun t : LoadTarget => (t.config.loaded, (t.config.get? "a").bind fun g =>
      ((Value.group g).at? [.field "m", .entry "k", .field "v"]).bind Value.asString?)
    ∀ n ∈ ["8", "eight"],
      let source := (Properties.ofPairs [("app.a.m.k.v", "x"), ("other", "z"),
        ("app.a.m.\"k\".v", "y"), ("app.a.m.j.n", n)]).toSource
      let once := l.load source targets
      (∀ t ∈ targets, Built (fun _ => True) t.definition) ∧ (l.load source once.1).1 = once.1 ∧
        once.2.toOption.isSome = (n == "8") ∧
        ((l.load source once.1).2.toOption.map (·.unmatched)) =
          once.2.toOption.map (·.unmatched) ∧
        once.1.map read = [(("app.a.m.\"k\".v", "y") ::
            (if n = "8" then [("app.a.m.j.n", "8")] else []) ++ [("app.a.m.k.v", "x")],
          some "y")] := by
  intro d l targets read n hn source once
  have hbuilt : ∀ t ∈ targets, Built (fun _ => True) t.definition :=
    List.forall_mem_singleton.mpr (.register .empty trivial (Prod.ext rfl (by decide +kernel)))
  have hrun : ∀ n ∈ ["8", "eight"],
      let source := (Properties.ofPairs [("app.a.m.k.v", "x"), ("other", "z"),
        ("app.a.m.\"k\".v", "y"), ("app.a.m.j.n", n)]).toSource
      let once := l.load source targets
      once.2.toOption.isSome = (n == "8") ∧
        once.1.map read = [(("app.a.m.\"k\".v", "y") ::
            (if n = "8" then [("app.a.m.j.n", "8")] else []) ++ [("app.a.m.k.v", "x")],
          some "y")] := by
    decide +kernel
  obtain ⟨htargets, herror, hok⟩ := load_twice l source hbuilt
  refine ⟨hbuilt, htargets, (hrun n hn).1, ?_, (hrun n hn).2⟩
  cases hend : once.2 with
  | error e => rw [herror e hend]
  | ok report =>
    obtain ⟨report', hreport', hunmatched, -⟩ := hok report hend
    rw [hreport']
    exact congrArg some hunmatched

end Loader

end PropertyBinding

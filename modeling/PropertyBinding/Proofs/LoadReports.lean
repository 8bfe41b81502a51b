import Mathlib.Data.List.Induction
import PropertyBinding.Proofs.LoadRuns
import PropertyBinding.Proofs.Traversal

/-!
# Reports of loads

A step changes no target but the one in the fate of the name (`Loader.Step.getElem?_eq`), and that
is the first whose definition has a leaf for it, wherever the name stands in a load
(`Loader.Step.target?_eq`). The report on a log says how the fates sum up (`LoadReport.Sums`), and
this determines it (`LoadReport.eq_ofLog_iff`).

So the report of a load accounts for every name (`Loader.Accounts`), and a load of two lists of
names is the load of the first followed by the load of the second (`Loader.load_accounts`).
-/

namespace PropertyBinding

/-! ### The target of a name -/

namespace Loader

variable {l : Loader} {source : Source} {value? : String → Option String} {name : String}
  {targets targets' : List LoadTarget} {report : LoadReport} {fate : Fate}
  {log : List (String × Fate)}

private theorem getElem?_replaced {α : Type} (before after : List α) (a b : α) {i : Nat}
    (h : i ≠ before.length) : (before ++ b :: after)[i]? = (before ++ a :: after)[i]? := by
  have hset : before ++ b :: after = (before ++ a :: after).set before.length b := by simp
  rw [hset, List.getElem?_set_ne h.symm]

/-- The target in the fate of a name is the first that has a leaf for it. -/
theorem Step.target?_eq (h : l.Step value? name targets fate targets') :
    fate.target? = if l.Owns name then takerOf? targets name else none := by
  cases h with
  | unmatched outside => rw [if_neg outside]; rfl
  | unrecognized inside unknown _ => rw [if_pos inside, takerOf?_eq_none_iff.mpr unknown]; rfl
  | excepted inside unknown _ => rw [if_pos inside, takerOf?_eq_none_iff.mpr unknown]; rfl
  | unrealized inside unknown leafFor _ =>
    rw [if_pos inside, takerOf?_append unknown (by rw [leafFor]; rfl)]
    rfl
  | unplaced inside unknown places | applied inside unknown places =>
    obtain ⟨id, leaf, -, -, leafFor, -⟩ := places
    rw [if_pos inside, takerOf?_append unknown (by rw [leafFor]; rfl)]
    rfl

/-- A step leaves every target alone but the one in the fate of the name. -/
theorem Step.getElem?_eq (h : l.Step value? name targets fate targets') {i : Nat}
    (hi : fate.target? ≠ some i) : targets'[i]? = targets[i]? := by
  cases h with
  | unplaced _ _ _ | applied _ _ _ =>
    exact getElem?_replaced _ _ _ _ fun heq => hi (congrArg some heq.symm)
  | _ => rfl

/-- What a step does to the target that has a leaf for the name: nothing if the leaf's root is not
realized, and else the value of the raw text is placed in the root. -/
theorem Step.taken (h : l.Step value? name targets fate targets') {i : Nat} {t : LoadTarget}
    (hi : fate.target? = some i) (ht : targets[i]? = some t) :
    ∃ id leaf t', t.leafFor? name = some (id, leaf) ∧ targets'[i]? = some t' ∧
      (t.config.get? leaf.root = none ∧ fate = .skipped i ∧ t' = t ∨
        ∃ g value g' written, t.config.get? leaf.root = some g ∧
          leaf.Gives ((value? name).getD "") value ∧
          leaf.place t.definition (Cursor.ofName name).next.2 value g = .ok (g', written) ∧
          fate = (if written then .applied i else .skipped i) ∧
          t' = { t with config :=
            if written then t.config.placed leaf.root g' name ((value? name).getD "")
            else t.config.withRoot leaf.root g' }) := by
  cases h with
  | unmatched _ | unrecognized _ _ _ | excepted _ _ _ => cases hi
  | @unrealized before after t' _ _ _ _ leafFor unrealized =>
    obtain rfl := Option.some.inj hi
    obtain rfl : t' = t := by simpa using ht
    exact ⟨_, _, _, leafFor, ht, Or.inl ⟨unrealized, rfl, rfl⟩⟩
  | @unplaced before after t' _ _ _ _ places | @applied before after t' _ _ _ _ places =>
    obtain rfl := Option.some.inj hi
    obtain rfl : t' = t := by simpa using ht
    obtain ⟨id, leaf, g, value, hleaf, rfl, hget, hgives, hplace⟩ := places
    exact ⟨_, _, _, hleaf, by simp, Or.inr ⟨g, value, _, _, hget, hgives, hplace, rfl, rfl⟩⟩

/-- What a step has noted in a target: the literal text under the name, if the value has been
written into it. -/
theorem Step.loaded (h : l.Step value? name targets fate targets') {i : Nat} {t : LoadTarget}
    (ht : targets[i]? = some t) : ∃ t', targets'[i]? = some t' ∧
      t'.config.loaded = if fate = .applied i then
        Entries.insert name ((value? name).getD "") t.config.loaded else t.config.loaded := by
  by_cases hi : fate.target? = some i
  · obtain ⟨id, leaf, t', -, ht', ⟨-, rfl, rfl⟩ | ⟨g, value, g', written, -, -, -, rfl, rfl⟩⟩ :=
      h.taken hi ht
    · exact ⟨t', ht', by rw [if_neg nofun]⟩
    · refine ⟨_, ht', ?_⟩
      cases written <;> simp [RealizedConfig.placed, RealizedConfig.record, RealizedConfig.withRoot]
  · have hne : fate ≠ .applied i := fun heq => hi (by rw [heq]; rfl)
    exact ⟨t, (h.getElem?_eq hi).trans ht, by rw [if_neg hne]⟩

/-- What a run has noted in a target: the literal texts of the names whose values have been written
into it. -/
theorem Run.loaded (h : l.Run value? targets log targets') {i : Nat} {t : LoadTarget}
    (ht : targets[i]? = some t) : ∃ t', targets'[i]? = some t' ∧
      t'.config.loaded = (log.filter fun entry => entry.2 = .applied i).foldl
        (fun acc entry => Entries.insert entry.1 ((value? entry.1).getD "") acc)
        t.config.loaded := by
  induction h generalizing t with
  | nil => exact ⟨t, ht, rfl⟩
  | @cons name fate log _ _ _ step _ ih =>
    obtain ⟨t₁, ht₁, hloaded₁⟩ := step.loaded ht
    obtain ⟨t', ht', hloaded'⟩ := ih ht₁
    refine ⟨t', ht', ?_⟩
    rw [hloaded', hloaded₁, List.filter_cons]
    by_cases hfate : fate = .applied i
    · simp [hfate]
    · simp [hfate]

/-- Where a name stands to the loader and the definitions decides whether it is reported. -/
theorem Step.reported (h : l.Step value? name targets fate targets') :
    (fate = .unmatched ↔ ¬l.Owns name) ∧
      (fate = .unrecognized ↔
        l.Owns name ∧ takerOf? targets name = none ∧ name ∉ l.exceptions) := by
  have htarget := h.target?_eq
  cases h with
  | unmatched outside => simp [outside]
  | unrecognized inside unknown reported =>
    simp [inside, takerOf?_eq_none_iff.mpr unknown, reported]
  | excepted inside unknown excepted => simp [inside, excepted]
  | unrealized inside _ _ _ | unplaced inside _ _ | applied inside _ _ =>
    rw [if_pos inside] at htarget
    simp [inside, ← htarget, Fate.target?]

/-- Every name of a run is reported as it stands to the loader and the definitions. -/
theorem Run.reported (h : l.Run value? targets log targets') :
    ∀ entry ∈ log, (entry.2 = .unmatched ↔ ¬l.Owns entry.1) ∧
      (entry.2 = .unrecognized ↔
        l.Owns entry.1 ∧ takerOf? targets entry.1 = none ∧ entry.1 ∉ l.exceptions) := by
  induction h with
  | nil => exact List.forall_mem_nil _
  | cons step _ ih =>
    refine List.forall_mem_cons.mpr ⟨step.reported, fun entry hentry => ?_⟩
    rw [← takerOf?_congr step.definitions]
    exact ih entry hentry

end Loader

/-! ### Reports -/

namespace LoadReport

variable {report report' sum : LoadReport} {log log' : List (String × Loader.Fate)}

theorem mem_insertName {name other : String} {names : List String} :
    other ∈ insertName name names ↔ other = name ∨ other ∈ names := by
  rw [insertName, Entries.mem_keys_insert]
  simp [Entries.keys]

theorem ascending_insertName {names : List String} (h : names.Pairwise (· < ·)) (name : String) :
    (insertName name names).Pairwise (· < ·) := by
  refine Entries.Ascending.insert ?_ name ()
  simpa [Entries.Ascending, Entries.keys, Function.comp_def] using h

/-- Whether a report says what has become of names: which lie outside the namespace, in ascending
order, which have no leaf, in the order of the log, and how many have been written. -/
structure Sums (log : List (String × Loader.Fate)) (report : LoadReport) : Prop where
  ascending : report.unmatched.Pairwise (· < ·)
  unmatched : ∀ name, name ∈ report.unmatched ↔ (name, .unmatched) ∈ log
  unrecognized :
    report.unrecognized = (log.filter fun entry => entry.2 = .unrecognized).map (·.1)
  applied : report.applied = log.countP fun entry => entry.2.isApplied

/-- The fate of one more name. -/
theorem Sums.note (h : report.Sums log) (entry : String × Loader.Fate) :
    (report.note entry).Sums (log ++ [entry]) := by
  obtain ⟨hascending, hunmatched, hunrecognized, happlied⟩ := h
  obtain ⟨name, fate⟩ := entry
  cases fate with
  | unmatched =>
    refine ⟨ascending_insertName hascending name, fun other => ?_, ?_, ?_⟩
    · rw [LoadReport.note, mem_insertName, hunmatched]
      simp [or_comm]
    · simp [LoadReport.note, hunrecognized]
    · simp [LoadReport.note, happlied, Loader.Fate.isApplied]
  | _ =>
    refine ⟨hascending, fun other => ?_, ?_, ?_⟩
    · simp [LoadReport.note, hunmatched]
    · simp [LoadReport.note, hunrecognized]
    · simp [LoadReport.note, happlied, Loader.Fate.isApplied]

theorem sums_ofLog (log : List (String × Loader.Fate)) : (ofLog log).Sums log := by
  induction log using List.reverseRecOn with
  | nil => exact ⟨.nil, by simp [ofLog], rfl, rfl⟩
  | append_singleton log entry ih =>
    rw [ofLog_append_singleton]
    exact ih.note entry

/-- Names in ascending order are determined by which they are. -/
theorem eq_of_ascending {as bs : List String} (ha : as.Pairwise (· < ·)) (hb : bs.Pairwise (· < ·))
    (h : ∀ name, name ∈ as ↔ name ∈ bs) : as = bs := by
  have hne : ∀ {a b : String}, a < b → a ≠ b := fun hlt heq => String.lt_irrefl _ (heq ▸ hlt)
  have hperm : as.Perm bs := (List.perm_ext_iff_of_nodup (ha.imp hne) (hb.imp hne)).mpr h
  exact hperm.eq_of_pairwise (fun _ _ _ _ hab hba => absurd hab (String.lt_asymm hba)) ha hb

/-- The fates of names determine the report on them. -/
theorem eq_ofLog_iff : report = .ofLog log ↔ report.Sums log := by
  refine ⟨fun h => h ▸ sums_ofLog log, fun h => ?_⟩
  have hlog := sums_ofLog log
  have hunmatched := eq_of_ascending h.ascending hlog.ascending fun name =>
    (h.unmatched name).trans (hlog.unmatched name).symm
  obtain ⟨unmatched, unrecognized, applied⟩ := report
  obtain rfl : unmatched = _ := hunmatched
  obtain rfl : unrecognized = _ := h.unrecognized.trans hlog.unrecognized.symm
  obtain rfl : applied = _ := h.applied.trans hlog.applied.symm
  rfl

/-- Whether a report is that of two loads together. -/
structure Joins (report report' sum : LoadReport) : Prop where
  ascending : sum.unmatched.Pairwise (· < ·)
  unmatched : ∀ name, name ∈ sum.unmatched ↔ name ∈ report.unmatched ∨ name ∈ report'.unmatched
  unrecognized : sum.unrecognized = report.unrecognized ++ report'.unrecognized
  applied : sum.applied = report.applied + report'.applied

/-- The reports on two logs join to the one on both. -/
theorem Sums.joins_iff (h : report.Sums log) (h' : report'.Sums log') :
    report.Joins report' sum ↔ sum.Sums (log ++ log') := by
  constructor
  · rintro ⟨hascending, hunmatched, hunrecognized, happlied⟩
    refine ⟨hascending, fun name => ?_, ?_, ?_⟩
    · rw [hunmatched, h.unmatched, h'.unmatched, List.mem_append]
    · rw [hunrecognized, h.unrecognized, h'.unrecognized, List.filter_append, List.map_append]
    · rw [happlied, h.applied, h'.applied, List.countP_append]
  · rintro ⟨hascending, hunmatched, hunrecognized, happlied⟩
    refine ⟨hascending, fun name => ?_, ?_, ?_⟩
    · rw [hunmatched, h.unmatched, h'.unmatched, List.mem_append]
    · rw [hunrecognized, h.unrecognized, h'.unrecognized, List.filter_append, List.map_append]
    · rw [happlied, h.applied, h'.applied, List.countP_append]

end LoadReport

/-! ### Accounts -/

namespace Loader

/-- Whether a log and a report account for a load: what becomes of every name of the source, what
the names do to the targets, and what is reported. -/
structure Accounts (l : Loader) (source : Source) (targets : List LoadTarget)
    (log : List (String × Fate)) (targets' : List LoadTarget) (report : LoadReport) : Prop where
  /-- The log goes through the names of the source. -/
  names : log.map (·.1) = source.names
  run : l.Run source.value? targets log targets'
  /-- The names outside the namespace, each once. -/
  ascending : report.unmatched.Pairwise (· < ·)
  unmatched : ∀ name, name ∈ report.unmatched ↔ name ∈ source.names ∧ ¬l.Owns name
  /-- The names in the namespace that no target has a leaf for and that are not excepted, in source
  order, as often as they are listed. -/
  unrecognized : report.unrecognized = source.names.filter fun name =>
    l.Owns name ∧ takerOf? targets name = none ∧ name ∉ l.exceptions
  /-- A name changes at most one target, the first whose definition has a leaf for it. -/
  confined : ∀ before name after, source.names = before ++ name :: after →
    ∃ between between' r r', l.load ⟨before, source.value?⟩ targets = (between, .ok r) ∧
      l.load ⟨before ++ [name], source.value?⟩ targets = (between', .ok r') ∧
      ∀ i, between'[i]? ≠ between[i]? → l.Owns name ∧ takerOf? targets name = some i
  /-- How many values have been written. -/
  applied : report.applied = log.countP fun entry => entry.2.isApplied
  /-- The literal texts of the names whose values have been written into a target are noted in it,
  and nothing else. -/
  loaded : ∀ (i : Nat) (t : LoadTarget), targets[i]? = some t →
    ∃ t', targets'[i]? = some t' ∧ t'.config.loaded =
      (log.filter fun entry => entry.2 = .applied i).foldl
        (fun acc entry => Entries.insert entry.1 ((source.value? entry.1).getD "") acc)
        t.config.loaded

variable {l : Loader} {source : Source} {value? : String → Option String}
  {targets targets' : List LoadTarget} {report : LoadReport} {log : List (String × Fate)}

/-- What one name does in the course of a load. -/
theorem Run.confined (h : l.Run value? targets log targets') {before after : List String}
    {name : String} (hnames : log.map (·.1) = before ++ name :: after) :
    ∃ between between' r r', l.load ⟨before, value?⟩ targets = (between, .ok r) ∧
      l.load ⟨before ++ [name], value?⟩ targets = (between', .ok r') ∧
      ∀ i, between'[i]? ≠ between[i]? → l.Owns name ∧ takerOf? targets name = some i := by
  obtain ⟨first, rest, rfl, hfirst, hrest⟩ := List.map_eq_append_iff.mp hnames
  obtain ⟨⟨_, fate⟩, second, rfl, rfl, -⟩ := List.map_eq_cons_iff.mp hrest
  obtain ⟨between, hbefore, hafter⟩ := h.exists_between
  cases hafter with
  | @cons _ _ _ _ between' _ step run =>
    have hload : l.load ⟨before, value?⟩ targets = (between, .ok (.ofLog first)) :=
      load_eq_ok_iff.mpr ⟨first, hfirst, hbefore, rfl⟩
    refine ⟨between, between', _, _, hload,
      load_append_singleton_iff.mpr ⟨between, _, fate, hload, step, rfl⟩, fun i hi => ?_⟩
    have htarget : fate.target? = some i := by
      by_contra hne
      exact hi (step.getElem?_eq hne)
    rw [step.target?_eq, takerOf?_congr hbefore.definitions] at htarget
    split_ifs at htarget with hown
    exact ⟨hown, htarget⟩

/-- A run through the names of a source, with the report on the fates, is an account. -/
theorem Run.accounts (h : l.Run source.value? targets log targets')
    (hnames : log.map (·.1) = source.names) (hsums : report.Sums log) :
    l.Accounts source targets log targets' report where
  names := hnames
  run := h
  ascending := hsums.ascending
  unmatched := by
    intro name
    rw [hsums.unmatched, ← hnames]
    constructor
    · intro hmem
      exact ⟨List.mem_map_of_mem hmem, (h.reported _ hmem).1.mp rfl⟩
    · rintro ⟨hmem, hown⟩
      obtain ⟨⟨_, fate⟩, hentry, rfl⟩ := List.mem_map.mp hmem
      obtain rfl : fate = .unmatched := (h.reported _ hentry).1.mpr hown
      exact hentry
  unrecognized := by
    rw [hsums.unrecognized, ← hnames, List.filter_map]
    refine congrArg _ (List.filter_congr fun entry hentry => ?_)
    exact decide_eq_decide.mpr (h.reported entry hentry).2
  confined := fun before name after hsplit => h.confined (hnames.trans hsplit)
  applied := hsums.applied
  loaded := fun i t ht => h.loaded ht

/-- The report of an account is the one on the fates of the names. -/
theorem Accounts.eq_ofLog (h : l.Accounts source targets log targets' report) :
    report = .ofLog log := by
  have hlog := h.run.accounts h.names (LoadReport.sums_ofLog log)
  refine LoadReport.eq_ofLog_iff.mpr ⟨h.ascending, fun name => ?_, ?_, h.applied⟩
  · rw [h.unmatched, ← hlog.unmatched, (LoadReport.sums_ofLog log).unmatched]
  · rw [h.unrecognized, ← hlog.unrecognized, (LoadReport.sums_ofLog log).unrecognized]

/-- **The report of a load is exact**: a load comes to an end with these targets and this report
exactly if a log accounts for it. A load of two lists of names comes to the targets to which a load
of the first and then one of the second come, and their reports join to its report. -/
theorem load_accounts (l : Loader) (value? : String → Option String)
    (targets targets' : List LoadTarget) (report : LoadReport) :
    (∀ names, l.load ⟨names, value?⟩ targets = (targets', .ok report) ↔
        ∃ log, l.Accounts ⟨names, value?⟩ targets log targets' report) ∧
      ∀ xs ys, l.load ⟨xs ++ ys, value?⟩ targets = (targets', .ok report) ↔
        ∃ between r r', l.load ⟨xs, value?⟩ targets = (between, .ok r) ∧
          l.load ⟨ys, value?⟩ between = (targets', .ok r') ∧ r.Joins r' report := by
  constructor
  · intro names
    rw [load_eq_ok_iff]
    constructor
    · rintro ⟨log, hnames, run, rfl⟩
      exact ⟨log, run.accounts hnames (LoadReport.sums_ofLog log)⟩
    · rintro ⟨log, haccounts⟩
      exact ⟨log, haccounts.names, haccounts.run, haccounts.eq_ofLog⟩
  · intro xs ys
    rw [load_eq_ok_iff]
    constructor
    · rintro ⟨log, hnames, run, rfl⟩
      obtain ⟨first, second, rfl, hfirst, hsecond⟩ := List.map_eq_append_iff.mp hnames
      obtain ⟨between, hrun, hrun'⟩ := run.exists_between
      refine ⟨between, _, _, load_eq_ok_iff.mpr ⟨first, hfirst, hrun, rfl⟩,
        load_eq_ok_iff.mpr ⟨second, hsecond, hrun', rfl⟩, ?_⟩
      exact ((LoadReport.sums_ofLog first).joins_iff (LoadReport.sums_ofLog second)).mpr
        (LoadReport.sums_ofLog _)
    · rintro ⟨between, r, r', hload, hload', hjoins⟩
      obtain ⟨first, hfirst, hrun, rfl⟩ := load_eq_ok_iff.mp hload
      obtain ⟨second, hsecond, hrun', rfl⟩ := load_eq_ok_iff.mp hload'
      refine ⟨first ++ second, by rw [List.map_append, hfirst, hsecond], hrun.append hrun', ?_⟩
      exact LoadReport.eq_ofLog_iff.mpr
        (((LoadReport.sums_ofLog first).joins_iff (LoadReport.sums_ofLog second)).mp hjoins)

end Loader

end PropertyBinding

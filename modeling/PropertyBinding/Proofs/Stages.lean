import PropertyBinding.Proofs.Bijection
import PropertyBinding.Proofs.LoadReports

/-!
# Loading at the two stages

At the runtime stage only the roots are realized that are available at run time. A load does there
what it does at the build stage, as far as these roots are concerned: a name changes at most the
root of its leaf, so leaving roots out of a config (`RealizedConfig.only`) and taking a step can be
done in either order (`Loader.Step.only`), and so for a run (`Loader.Run.only`). What is reported
does not depend on the realized roots.

The config of the runtime stage is that of the build stage with the other roots left out
(`Built.realize_runtime`). So a load that comes to its end at the build stage does so at the runtime
stage, with the same config but for the roots left out (`Built.load_runtime`).
-/

namespace PropertyBinding

open Definition

/-! ### Entries of which some are kept -/

namespace Entries

variable {α : Type} {keep : String → Bool} {key : String} {value : α} {entries : Entries α}

/-- The entries whose keys are kept. -/
def only (keep : String → Bool) (entries : Entries α) : Entries α :=
  entries.filter fun entry => keep entry.1

theorem only_cons_of_keep (h : keep key = true) :
    only keep ((key, value) :: entries) = (key, value) :: only keep entries :=
  List.filter_cons_of_pos h

theorem only_cons_of_not_keep (h : keep key = false) :
    only keep ((key, value) :: entries) = only keep entries :=
  List.filter_cons_of_neg (by simp [h])

/-- A kept key finds what it found. -/
theorem lookup_only_of_keep (h : keep key = true) (entries : Entries α) :
    (only keep entries).lookup key = entries.lookup key := by
  induction entries with
  | nil => rfl
  | cons entry rest ih =>
    obtain ⟨k, v⟩ := entry
    by_cases hk : key = k
    · subst hk
      rw [only_cons_of_keep h, List.lookup_cons_self, List.lookup_cons_self]
    · have hne : (key == k) = false := by simpa using hk
      rw [List.lookup_cons, hne]
      cases hkeep : keep k with
      | true => rw [only_cons_of_keep hkeep, List.lookup_cons, hne, ih]
      | false => rw [only_cons_of_not_keep hkeep, ih]

/-- A key that is not kept finds nothing. -/
theorem lookup_only_of_not_keep (h : keep key = false) (entries : Entries α) :
    (only keep entries).lookup key = none := by
  rw [List.lookup_eq_none_iff]
  intro entry hentry
  refine bne_iff_ne.mpr ?_
  rintro rfl
  exact Bool.false_ne_true (h.symm.trans (List.mem_filter.mp hentry).2)

/-- Putting under a kept key. -/
theorem only_put_of_keep (h : keep key = true) (value : α) (entries : Entries α) :
    only keep (put key value entries) = put key value (only keep entries) := by
  induction entries with
  | nil => exact only_cons_of_keep h
  | cons entry rest ih =>
    obtain ⟨k, v⟩ := entry
    by_cases hk : k = key
    · subst hk
      rw [put, if_pos rfl, only_cons_of_keep h, only_cons_of_keep h, put, if_pos rfl]
    · rw [put, if_neg hk]
      cases hkeep : keep k with
      | true => rw [only_cons_of_keep hkeep, only_cons_of_keep hkeep, put, if_neg hk, ih]
      | false => rw [only_cons_of_not_keep hkeep, only_cons_of_not_keep hkeep, ih]

/-- Putting under a key that is not kept. -/
theorem only_put_of_not_keep (h : keep key = false) (value : α) (entries : Entries α) :
    only keep (put key value entries) = only keep entries := by
  induction entries with
  | nil => exact only_cons_of_not_keep h
  | cons entry rest ih =>
    obtain ⟨k, v⟩ := entry
    by_cases hk : k = key
    · subst hk
      rw [put, if_pos rfl, only_cons_of_not_keep h, only_cons_of_not_keep h]
    · rw [put, if_neg hk]
      cases hkeep : keep k with
      | true => rw [only_cons_of_keep hkeep, only_cons_of_keep hkeep, ih]
      | false => rw [only_cons_of_not_keep hkeep, only_cons_of_not_keep hkeep, ih]

/-- A key below all keys is inserted in front. -/
theorem insert_eq_cons (h : ∀ other ∈ keys entries, key < other) (value : α) :
    insert key value entries = (key, value) :: entries := by
  cases entries with
  | nil => rfl
  | cons entry rest => rw [insert, if_pos (h _ List.mem_cons_self)]

/-- Inserting under a kept key. -/
theorem Ascending.only_insert_of_keep (hentries : Ascending entries) (h : keep key = true)
    (value : α) :
    only keep (Entries.insert key value entries) =
      Entries.insert key value (only keep entries) := by
  induction entries with
  | nil => exact only_cons_of_keep h
  | cons entry rest ih =>
    obtain ⟨k, v⟩ := entry
    obtain ⟨hfirst, hrest⟩ := List.pairwise_cons.mp hentries
    by_cases hlt : key < k
    · rw [Entries.insert, if_pos hlt, only_cons_of_keep h]
      -- All keys that are left lie above the new one.
      refine (insert_eq_cons (fun other hother => ?_) value).symm
      rcases List.mem_cons.mp ((List.filter_sublist.map _).subset hother) with rfl | hother
      · exact hlt
      · exact String.lt_trans hlt (hfirst other hother)
    by_cases hk : k = key
    · subst hk
      rw [Entries.insert, if_neg hlt, if_pos rfl, only_cons_of_keep h, only_cons_of_keep h,
        Entries.insert, if_neg hlt, if_pos rfl]
    · rw [Entries.insert, if_neg hlt, if_neg hk]
      cases hkeep : keep k with
      | true =>
        rw [only_cons_of_keep hkeep, only_cons_of_keep hkeep, Entries.insert, if_neg hlt, if_neg hk,
          ih hrest]
      | false => rw [only_cons_of_not_keep hkeep, only_cons_of_not_keep hkeep, ih hrest]

/-- Inserting under a key that is not kept. -/
theorem only_insert_of_not_keep (h : keep key = false) (value : α) (entries : Entries α) :
    only keep (insert key value entries) = only keep entries := by
  induction entries with
  | nil => exact only_cons_of_not_keep h
  | cons entry rest ih =>
    obtain ⟨k, v⟩ := entry
    by_cases hlt : key < k
    · rw [insert, if_pos hlt, only_cons_of_not_keep h]
    by_cases hk : k = key
    · subst hk
      rw [insert, if_neg hlt, if_pos rfl, only_cons_of_not_keep h, only_cons_of_not_keep h]
    · rw [insert, if_neg hlt, if_neg hk]
      cases hkeep : keep k with
      | true => rw [only_cons_of_keep hkeep, only_cons_of_keep hkeep, ih]
      | false => rw [only_cons_of_not_keep hkeep, only_cons_of_not_keep hkeep, ih]

end Entries

/-! ### Configs with some of their roots -/

/-- Whether a definition has a leaf for what follows the namespace of a full name, and the leaf's
root is kept. -/
def Definition.sendsTo (d : Definition) (keep : String → Bool) (name : String) : Bool :=
  (d.matchLeaf (Cursor.ofName name).next.2).any fun found => keep found.2.root

/-- A config of a definition with the kept roots only, and the properties that have been applied to
them. -/
def RealizedConfig.only (d : Definition) (keep : String → Bool) (c : RealizedConfig) :
    RealizedConfig where
  roots := Entries.only keep c.roots
  byType := c.byType.filter fun entry => keep entry.2
  loaded := Entries.only (d.sendsTo keep) c.loaded

namespace RealizedConfig

variable {d : Definition} {keep : String → Bool} {c : RealizedConfig} {root name : String}

theorem only_get?_of_keep (h : keep root = true) (c : RealizedConfig) :
    (c.only d keep).get? root = c.get? root :=
  Entries.lookup_only_of_keep h c.roots

theorem only_get?_of_not_keep (h : keep root = false) (c : RealizedConfig) :
    (c.only d keep).get? root = none :=
  Entries.lookup_only_of_not_keep h c.roots

/-- Replacing a kept root. -/
theorem only_withRoot_of_keep (h : keep root = true) (c : RealizedConfig) (g : Group) :
    (c.withRoot root g).only d keep = (c.only d keep).withRoot root g := by
  simp only [only, withRoot, Entries.only_put_of_keep h]

/-- Replacing a root that is not kept. -/
theorem only_withRoot_of_not_keep (h : keep root = false) (c : RealizedConfig) (g : Group) :
    (c.withRoot root g).only d keep = c.only d keep := by
  simp only [only, withRoot, Entries.only_put_of_not_keep h]

/-- Placing a value in a kept root. -/
theorem only_placed_of_keep (hloaded : Entries.Ascending c.loaded) (h : keep root = true)
    (hname : d.sendsTo keep name = true) (g : Group) (raw : String) :
    (c.placed root g name raw).only d keep = (c.only d keep).placed root g name raw := by
  simp only [only, placed, record, Entries.only_put_of_keep h,
    hloaded.only_insert_of_keep hname]

/-- Placing a value in a root that is not kept. -/
theorem only_placed_of_not_keep (h : keep root = false) (hname : d.sendsTo keep name = false)
    (c : RealizedConfig) (g : Group) (raw : String) :
    (c.placed root g name raw).only d keep = c.only d keep := by
  simp only [only, placed, record, Entries.only_put_of_not_keep h,
    Entries.only_insert_of_not_keep hname]

end RealizedConfig

/-! ### Steps and runs -/

namespace Loader

variable {d : Definition} {keep : String → Bool} {c c' : RealizedConfig} {l : Loader}
  {value? : String → Option String} {name : String} {fate : Fate} {log : List (String × Fate)}

/-- Giving a raw text to a target of which roots have been left out. -/
theorem applyTo_only (hloaded : Entries.Ascending c.loaded) {leaf : Leaf} {cursor : Cursor}
    {raw : String} {outcome : Outcome} (hname : d.sendsTo keep cursor.name = keep leaf.root)
    (h : applyTo ⟨d, c⟩ leaf cursor raw = .ok (⟨d, c'⟩, outcome)) :
    ∃ outcome', applyTo ⟨d, c.only d keep⟩ leaf cursor raw =
      .ok (⟨d, c'.only d keep⟩, outcome') := by
  have hunrealized (hnone : (c.only d keep).get? leaf.root = none)
      (hc' : c'.only d keep = c.only d keep) : ∃ outcome',
        applyTo ⟨d, c.only d keep⟩ leaf cursor raw = .ok (⟨d, c'.only d keep⟩, outcome') :=
    ⟨.skipped, by rw [applyTo_of_unrealized cursor raw hnone, hc']⟩
  rcases applyTo_cases d c leaf cursor raw with
    ⟨hnone, heq⟩ | ⟨reason, heq⟩ |
      ⟨g, value, hget, hvalue, ⟨e, -, heq⟩ | ⟨g', written, hplace, heq⟩⟩
  · obtain ⟨hc', -⟩ := Prod.mk.inj (Except.ok.inj (h.symm.trans heq))
    obtain rfl := congrArg LoadTarget.config hc'
    refine hunrealized ?_ rfl
    cases hkeep : keep leaf.root with
    | true => rw [RealizedConfig.only_get?_of_keep hkeep, hnone]
    | false => exact RealizedConfig.only_get?_of_not_keep hkeep c'
  · cases h.symm.trans heq
  · cases h.symm.trans heq
  · obtain ⟨hc', -⟩ := Prod.mk.inj (Except.ok.inj (h.symm.trans heq))
    obtain rfl : c' = if written then c.placed leaf.root g' cursor.name raw
      else c.withRoot leaf.root g' := congrArg LoadTarget.config hc'
    cases hkeep : keep leaf.root with
    | true =>
      have hget' : (c.only d keep).get? leaf.root = some g :=
        (RealizedConfig.only_get?_of_keep hkeep c).trans hget
      have happly := applyTo_of_place (t := ⟨d, c.only d keep⟩) hget'
        (Leaf.valueOf_eq_ok_iff.mp hvalue) hplace
      refine ⟨if written then .applied else .skipped, happly.trans ?_⟩
      cases written with
      | true => simp [RealizedConfig.only_placed_of_keep hloaded hkeep (hname.trans hkeep)]
      | false => simp [RealizedConfig.only_withRoot_of_keep hkeep]
    | false =>
      refine hunrealized (RealizedConfig.only_get?_of_not_keep hkeep c) ?_
      cases written with
      | true => exact RealizedConfig.only_placed_of_not_keep hkeep (hname.trans hkeep) c g' raw
      | false => exact RealizedConfig.only_withRoot_of_not_keep hkeep c g'

/-- **Leaving roots out** does not change what a step does to the others. -/
theorem Step.only (hloaded : Entries.Ascending c.loaded)
    (h : l.Step value? name [⟨d, c⟩] fate [⟨d, c'⟩]) (keep : String → Bool) :
    ∃ fate', l.Step value? name [⟨d, c.only d keep⟩] fate' [⟨d, c'.only d keep⟩] := by
  suffices hload : ∃ report, l.loadName ⟨[name], value?⟩ [⟨d, c.only d keep⟩] {} name =
      .ok ([⟨d, c'.only d keep⟩], report) by
    obtain ⟨report, hload⟩ := hload
    obtain ⟨fate', step, -⟩ := exists_step hload
    exact ⟨fate', step⟩
  obtain ⟨report, hload⟩ := h.exists_loadName {}
  -- Whether the name is passed over depends on the loader and the definition only.
  by_cases hown : l.Owns name
  swap
  · rw [loadName_of_not_owns hown] at hload ⊢
    obtain ⟨htargets, -⟩ := Prod.mk.inj (Except.ok.inj hload)
    obtain rfl : c = c' := by simpa using htargets
    exact ⟨_, rfl⟩
  cases hleaf : d.matchLeaf (Cursor.ofName name).next.2 with
  | none =>
    have hunknown (c : RealizedConfig) : ∀ t ∈ [LoadTarget.mk d c], t.leafFor? name = none :=
      List.forall_mem_singleton.mpr hleaf
    rw [loadName_of_unknown hown (hunknown _)] at hload ⊢
    obtain ⟨htargets, -⟩ := Prod.mk.inj (Except.ok.inj hload)
    obtain rfl : c = c' := by simpa using htargets
    exact ⟨_, rfl⟩
  | some found =>
    obtain ⟨id, leaf⟩ := found
    have hsends : d.sendsTo keep name = keep leaf.root := by rw [sendsTo, hleaf]; rfl
    have hone (c : RealizedConfig) :=
      @loadName_of_leaf l ⟨[name], value?⟩ name {} [] [] ⟨d, c⟩ id leaf hown (List.forall_mem_nil _)
        hleaf
    simp only [List.nil_append] at hone
    rw [hone] at hload ⊢
    obtain ⟨⟨t, outcome⟩, happly, heq⟩ := ok_of_map_eq_ok hload
    obtain rfl : t = ⟨d, c'⟩ := by simpa using congrArg Prod.fst heq
    obtain ⟨outcome', happly'⟩ := applyTo_only hloaded (show d.sendsTo keep
      (Cursor.mk name 1).name = keep leaf.root from hsends) happly
    rw [happly']
    exact ⟨_, rfl⟩

/-- **A run with roots left out** goes through the same names, and does the same to the roots that
are kept. -/
theorem Run.only (hloaded : Entries.Ascending c.loaded)
    (h : l.Run value? [⟨d, c⟩] log [⟨d, c'⟩]) (keep : String → Bool) :
    ∃ log', log'.map (·.1) = log.map (·.1) ∧
      l.Run value? [⟨d, c.only d keep⟩] log' [⟨d, c'.only d keep⟩] := by
  induction log generalizing c with
  | nil =>
    cases h
    exact ⟨[], rfl, .nil _⟩
  | cons entry log ih =>
    cases h with
    | cons step run =>
      obtain ⟨c₁, rfl⟩ := step.exists_single
      have hloaded₁ : Entries.Ascending c₁.loaded := by
        obtain ⟨t, ht, hnoted⟩ := step.loaded (i := 0) rfl
        obtain rfl := Option.some.inj ht
        rw [hnoted]
        split_ifs
        · exact hloaded.insert _ _
        · exact hloaded
      obtain ⟨fate', step'⟩ := step.only hloaded keep
      obtain ⟨log', hnames, run'⟩ := ih hloaded₁ run
      exact ⟨(_, fate') :: log', by rw [List.map_cons, List.map_cons, hnames], .cons step' run'⟩

end Loader

/-! ### The two stages -/

/-- Whether the root with a containing name is available at run time. -/
def Definition.isAvailableAtRun (d : Definition) (containingName : String) : Bool :=
  d.roots.any fun root => root.containingName = containingName && root.phase.isAvailableAtRun

section Stages

variable {good : RootDecl → Prop} {d : Definition}

/-- A definition built by accepted declarations names its roots by their types. -/
theorem Built.named (h : Built good d) : d.Named := by
  induction h with
  | empty => exact named_empty
  | @register _ _ decl _ _ accepted ih =>
    have hnamed := ih.registerRoot decl
    rwa [accepted] at hnamed

/-- A root is available at run time if its phase is, since its name tells the root. -/
theorem Definition.isAvailableAtRun_eq (hnames : (d.roots.map (·.containingName)).Nodup)
    {root : Root} (hroot : root ∈ d.roots) :
    d.isAvailableAtRun root.containingName = root.phase.isAvailableAtRun := by
  rw [Bool.eq_iff_iff, isAvailableAtRun, List.any_eq_true]
  constructor
  · rintro ⟨other, hother, heq⟩
    rw [Bool.and_eq_true, decide_eq_true_iff] at heq
    rw [← List.inj_on_of_nodup_map hnames hother hroot heq.1]
    exact heq.2
  · exact fun h => ⟨root, hroot, by rw [decide_eq_true rfl, h]; rfl⟩

/-- Storing a root of a new type in a config, and then leaving roots out. -/
theorem RealizedConfig.only_store (keep : String → Bool) {c : RealizedConfig} {root : Root}
    (hnew : c.byType.lookup root.typeName = none) (g : Group) :
    (c.store root g).only d keep =
      if keep root.containingName then (c.only d keep).store root g else c.only d keep := by
  have hnew' : (c.byType.filter fun entry => keep entry.2).lookup root.typeName = none := by
    rw [List.lookup_eq_none_iff] at hnew ⊢
    exact fun entry hentry => hnew entry (List.mem_of_mem_filter hentry)
  have htypes := Entries.put_eq_append hnew root.containingName
  have htypes' := Entries.put_eq_append hnew' root.containingName
  split_ifs with hkeep
  · simp [only, store, Entries.only_put_of_keep hkeep, htypes, htypes', hkeep]
  · rw [Bool.not_eq_true] at hkeep
    simp [only, store, Entries.only_put_of_not_keep hkeep, htypes, hkeep]

/-- Storing roots of new and distinct types, and then leaving roots out. -/
theorem Definition.only_storeAll (keep : String → Bool) {roots : List Root}
    (htypes : (roots.map (·.typeName)).Nodup) {c : RealizedConfig}
    (hnew : ∀ root ∈ roots, c.byType.lookup root.typeName = none) :
    (roots.foldl (fun c root => c.store root (d.defaultGroup root.tree)) c).only d keep =
      (roots.filter fun root => keep root.containingName).foldl
        (fun c root => c.store root (d.defaultGroup root.tree)) (c.only d keep) := by
  induction roots generalizing c with
  | nil => rfl
  | cons root rest ih =>
    obtain ⟨hroot, hrest⟩ := List.nodup_cons.mp htypes
    obtain ⟨hnewRoot, hnewRest⟩ := List.forall_mem_cons.mp hnew
    have hstill : ∀ other ∈ rest, (c.store root (d.defaultGroup root.tree)).byType.lookup
        other.typeName = none := by
      intro other hother
      have hne : other.typeName ≠ root.typeName :=
        fun heq => hroot (List.mem_map.mpr ⟨other, hother, heq⟩)
      exact (Entries.lookup_put_of_ne hne _ _).trans (hnewRest other hother)
    rw [List.foldl_cons, ih hrest hstill, RealizedConfig.only_store keep hnewRoot, List.filter_cons]
    split_ifs <;> rfl

/-- **The runtime stage** realizes what the build stage realizes, without the roots that are not
available at run time. -/
theorem Built.realize_runtime (h : Built good d) :
    d.realize .runtime = (d.realize .build).only d d.isAvailableAtRun := by
  have hroots : (d.roots.filter fun root => d.isAvailableAtRun root.containingName) =
      d.roots.filter fun root => Stage.runtime.includes root.phase :=
    List.filter_congr fun root hroot => isAvailableAtRun_eq h.sound_any.names hroot
  have hall : (d.roots.filter fun root => Stage.build.includes root.phase) = d.roots :=
    List.filter_eq_self.mpr fun _ _ => rfl
  have hstored := only_storeAll (d := d) d.isAvailableAtRun (h.sound_any.typeNames h.named)
    (c := .empty) fun _ _ => rfl
  rw [realize, realize, hall, hstored, hroots]
  rfl

/-- No property has been applied to what has just been realized. -/
theorem Definition.realize_loaded (d : Definition) (stage : Stage) :
    (d.realize stage).loaded = [] :=
  List.foldlRecOn (motive := fun c : RealizedConfig => c.loaded = []) _ _ rfl fun _ hc _ _ => hc

/-- **A load at the runtime stage** does what it does at the build stage. If the load comes to its
end at the build stage, it does so at the runtime stage with the same names reported. The config is
then the one of the build stage with only the roots that are available at run time, and only the
applied properties whose leaves belong to them. -/
theorem Built.load_runtime (h : Built good d) (l : Loader) (source : Source)
    {targets : List LoadTarget} {report : LoadReport}
    (hload : l.load source [⟨d, d.realize .build⟩] = (targets, .ok report)) :
    ∃ c report', targets = [⟨d, c⟩] ∧
      l.load source [⟨d, d.realize .runtime⟩] =
        ([⟨d, c.only d d.isAvailableAtRun⟩], .ok report') ∧
      report'.unmatched = report.unmatched ∧ report'.unrecognized = report.unrecognized := by
  obtain ⟨log, hnames, run, rfl⟩ := Loader.load_eq_ok_iff.mp hload
  obtain ⟨c, rfl, -⟩ := run.exists_loaded (.walked .build)
  have hloaded : Entries.Ascending (d.realize .build).loaded := by
    rw [realize_loaded]
    exact .nil
  obtain ⟨log', hnames', run'⟩ := run.only hloaded d.isAvailableAtRun
  rw [← h.realize_runtime] at run'
  have haccounts := run.accounts hnames (LoadReport.sums_ofLog log)
  have haccounts' := run'.accounts (hnames'.trans hnames) (LoadReport.sums_ofLog log')
  refine ⟨c, _, rfl, Loader.load_eq_ok_iff.mpr ⟨log', hnames'.trans hnames, run', rfl⟩, ?_, ?_⟩
  · exact LoadReport.eq_of_ascending haccounts'.ascending haccounts.ascending fun name =>
      (haccounts'.unmatched name).trans (haccounts.unmatched name).symm
  · rw [haccounts'.unrecognized, haccounts.unrecognized]
    rfl

end Stages

/-- A root `b` that is realized at the build stage only. -/
def buildDecl : RootDecl where
  name := .explicit "b"
  phase := .buildTime
  group := ⟨"BConfig", false, [⟨"x", .element, none, .object .string, false, none⟩]⟩

/-- A value for each of two roots: only one of the roots is realized at the runtime stage. -/
theorem load_runtime_buildDecl :
    let d := registerAll [plainDecl, buildDecl]
    let l := Loader.ofNamespace "app"
    let source := (Properties.ofPairs [("app.a.m.k.v", "1"), ("app.q", "2"), ("app.b.x", "3"),
      ("other", "4")]).toSource
    ∃ targets report c report', l.load source [⟨d, d.realize .build⟩] = (targets, .ok report) ∧
      targets = [⟨d, c⟩] ∧
      l.load source [⟨d, d.realize .runtime⟩] =
        ([⟨d, c.only d d.isAvailableAtRun⟩], .ok report') ∧
      report'.unmatched = report.unmatched ∧ report'.unrecognized = report.unrecognized ∧
      report = { unmatched := ["other"], unrecognized := ["app.q"], applied := 2 } ∧
      Entries.keys c.roots = ["a", "b"] ∧ Entries.keys c.loaded = ["app.a.m.k.v", "app.b.x"] ∧
      Entries.keys (c.only d d.isAvailableAtRun).roots = ["a"] ∧
      Entries.keys (c.only d d.isAvailableAtRun).loaded = ["app.a.m.k.v"] := by
  intro d l source
  have hbuilt : Built (fun _ => True) d :=
    .register (.register .empty trivial (Prod.ext rfl (by decide +kernel))) trivial
      (Prod.ext rfl (by decide +kernel))
  have hrun : (l.load source [⟨d, d.realize .build⟩]).2.toOption =
        some { unmatched := ["other"], unrecognized := ["app.q"], applied := 2 } ∧
      (l.load source [⟨d, d.realize .build⟩]).1.map (fun t =>
        (Entries.keys t.config.roots, Entries.keys t.config.loaded,
          Entries.keys (t.config.only d d.isAvailableAtRun).roots,
          Entries.keys (t.config.only d d.isAvailableAtRun).loaded)) =
        [(["a", "b"], ["app.a.m.k.v", "app.b.x"], ["a"], ["app.a.m.k.v"])] := by
    decide +kernel
  cases hload : l.load source [⟨d, d.realize .build⟩] with
  | mk targets result =>
    cases result with
    | error e => simp [hload, Except.toOption] at hrun
    | ok report =>
      obtain ⟨c, report', rfl, hload', hunmatched, hunrecognized⟩ :=
        Built.load_runtime hbuilt l source hload
      simp only [hload, Except.toOption, Option.some.injEq, List.map_cons, List.map_nil,
        List.cons.injEq, Prod.mk.injEq, and_true] at hrun
      exact ⟨_, report, c, report', rfl, rfl, hload', hunmatched, hunrecognized, hrun⟩

end PropertyBinding

import Mathlib.Data.List.Perm.Basic
import PropertyBinding.Proofs.LoadReports

/-!
# The order of a load

In a plain definition a name that is applied fills one leaf slot of one root
(`Definition.Fills`), and whatever else becomes of a name does not depend on what the realized roots
hold (`Loader.Step.plain_cases`). Names with different segments fill different slots
(`Definition.Fills.ne`), so two steps can be taken in either order (`Loader.Step.comm`).

So a run through names no two of which split into the same segments can be taken in any order
(`Loader.Run.perm`), and loads of the same properties in different orders have the same outcome
(`Loaded.load_perm`).
-/

namespace PropertyBinding

open Definition

/-! ### Segments and map keys -/

/-- A pattern and the segments at its wildcards tell all segments that it stands for. -/
theorem PatternMap.Covers.eq_of_wildcardSegments {pattern segments segments' : List String}
    (h : PatternMap.Covers pattern segments) (h' : PatternMap.Covers pattern segments')
    (heq : wildcardSegments pattern segments = wildcardSegments pattern segments') :
    segments = segments' := by
  induction h generalizing segments' with
  | nil =>
    cases h'
    rfl
  | cons hpiece _ ih =>
    cases h' with
    | cons hpiece' hrest' =>
      rw [wildcardSegments, wildcardSegments] at heq
      split_ifs at heq with hwildcard
      · obtain ⟨rfl, hrest⟩ := List.cons.inj heq
        rw [ih hrest' hrest]
      · rw [← hpiece.resolve_left hwildcard, ← hpiece'.resolve_left hwildcard, ih hrest' heq]

/-- A name in a namespace has the namespace as its first segment, and the others behind it. -/
theorem Cursor.segments_eq_cons {name namespaceName : String}
    (h : (Cursor.ofName name).peek? = some namespaceName) :
    Name.segments name = namespaceName :: (Cursor.ofName name).next.2.remaining := by
  rw [next_ofName h, remaining]
  cases hsegments : Name.segments name with
  | nil => simp [peek?, segment?, ofName, hsegments] at h
  | cons first rest =>
    obtain rfl : first = namespaceName := by simpa [peek?, segment?, ofName, hsegments] using h
    rfl

/-! ### The slot that a name fills -/

/-- Whether a name and its raw text fill the slot at an address of a root with a value. -/
def Definition.Fills (d : Definition) (name : Cursor) (raw : String) (root : Root)
    (address : List SlotStep) (value : Value) : Prop :=
  root ∈ d.roots ∧ ∃ id leaf, d.matchLeaf name = some (id, leaf) ∧
    leaf.root = root.containingName ∧ fillPath leaf.path (leaf.keysIn name) = some address ∧
    leaf.Gives raw value

/-- Whether a config comes out of another by filling the slot at an address of a root, and noting a
raw text under a name. -/
def RealizedConfig.FilledBy (leaves : List Leaf) (root : Root) (address : List SlotStep)
    (value : Value) (name raw : String) (c c' : RealizedConfig) : Prop :=
  ∃ g g', c.get? root.containingName = some g ∧
    .group g' = value.fill leaves (.group root.tree) address (.group g) ∧
    c' = c.placed root.containingName g' name raw

section Fills

variable {d : Definition} {c c' c'' : RealizedConfig} {cursor cursor' : Cursor}
  {name name' raw raw' : String} {root root' : Root} {address address' : List SlotStep}
  {value value' : Value}

/-- The slot is one of a leaf. -/
theorem Definition.Fills.at?_eq (h : Built RootDecl.Plain d)
    (hfills : d.Fills cursor raw root address value) :
    ∃ id, (Node.group root.tree).at? address = some (.leaf id) := by
  obtain ⟨hroot, id, leaf, hmatch, hname, hfill, -⟩ := hfills
  exact ⟨id, Built.at?_eq h hroot (matchLeaf_eq_some hmatch).2 hname hfill⟩

/-- **Different segments, different slots.** -/
theorem Definition.Fills.ne (h : Built RootDecl.Plain d)
    (hfills : d.Fills cursor raw root address value)
    (hfills' : d.Fills cursor' raw' root address' value')
    (hne : cursor.remaining ≠ cursor'.remaining) : address ≠ address' := by
  rintro rfl
  obtain ⟨hroot, id, leaf, hmatch, hname, hfill, -⟩ := hfills
  obtain ⟨-, id', leaf', hmatch', hname', hfill', -⟩ := hfills'
  have hleaf := (matchLeaf_eq_some hmatch).2
  have hleaf' := (matchLeaf_eq_some hmatch').2
  -- The address tells the leaf, and with it the keys and the segments.
  have hat := Built.at?_eq h hroot hleaf hname hfill
  have hat' := Built.at?_eq h hroot hleaf' hname' hfill'
  obtain rfl : id = id' := by simpa using hat.symm.trans hat'
  obtain rfl := Option.some.inj (hleaf.symm.trans hleaf')
  have hkeys := fillPath_inj hfill hfill'
  exact hne ((h.sound.covers hmatch).eq_of_wildcardSegments (h.sound.covers hmatch') hkeys)

/-- Filling a slot keeps which roots are realized. -/
theorem RealizedConfig.FilledBy.isSome_get? {leaves : List Leaf}
    (h : FilledBy leaves root address value name raw c c') (other : String) :
    (c'.get? other).isSome = (c.get? other).isSome := by
  obtain ⟨g, g', hget, -, rfl⟩ := h
  by_cases hother : other = root.containingName
  · rw [hother, placed_get?_self, hget]
    rfl
  · rw [placed_get?_of_ne _ hother]

/-- A group stays one if a slot below it is filled. -/
theorem Value.exists_group_fill (leaves : List Leaf) (value : Value) (node : Node) (s : SlotStep)
    (rest : List SlotStep) (g : Group) :
    ∃ g', .group g' = value.fill leaves node (s :: rest) (.group g) := by
  rw [Value.fill]
  split
  · exact ⟨g, rfl⟩
  · cases s with
    | field ident => exact ⟨_, rfl⟩
    | entry key => exact ⟨g, rfl⟩

/-- **Two slots can be filled in either order.** -/
theorem RealizedConfig.FilledBy.comm (hd : Built RootDecl.Plain d) (hc : Loaded d c)
    (hfills : d.Fills cursor raw root address value)
    (hfills' : d.Fills cursor' raw' root' address' value')
    (hsegments : cursor.remaining ≠ cursor'.remaining) (hnames : name ≠ name')
    (h : FilledBy d.leaves root address value name raw c c')
    (h' : FilledBy d.leaves root' address' value' name' raw' c' c'') :
    ∃ between, FilledBy d.leaves root' address' value' name' raw' c between ∧
      FilledBy d.leaves root address value name raw between c'' := by
  obtain ⟨g, g₁, hget, hg₁, rfl⟩ := h
  obtain ⟨g₂, g₃, hget', hg₃, rfl⟩ := h'
  by_cases hroots : root.containingName = root'.containingName
  · obtain rfl : root = root' := List.inj_on_of_nodup_map hd.sound.names hfills.1 hfills'.1 hroots
    rw [placed_get?_self] at hget'
    obtain rfl := Option.some.inj hget'
    obtain ⟨id, hat⟩ := hfills.at?_eq hd
    obtain ⟨id', hat'⟩ := hfills'.at?_eq hd
    obtain ⟨g₄, hg₄⟩ : ∃ g₄, .group g₄ =
        value'.fill d.leaves (.group root.tree) address' (.group g) := by
      cases address' with
      | nil => cases hat'
      | cons s rest => exact Value.exists_group_fill _ _ _ _ _ _
    refine ⟨_, ⟨g, g₄, hget, hg₄, rfl⟩, g₄, g₃, placed_get?_self _ _ _ _ _, ?_, ?_⟩
    · rw [hg₃, hg₄, hg₁]
      exact (Value.fill_comm hd.sound.scalar hat hat' (hfills.ne hd hfills' hsegments) value value'
        (hc.fits_root hd hfills.1 hget)).symm
    · simp only [placed, record, Entries.put_put, Entries.insert_comm hnames]
  · have hkey : root.containingName ∈ Entries.keys c.roots :=
      Entries.isSome_lookup_iff.mp (by rw [show c.roots.lookup _ = some g from hget]; rfl)
    rw [placed_get?_of_ne _ (Ne.symm hroots)] at hget'
    refine ⟨_, ⟨g₂, g₃, hget', hg₃, rfl⟩, g, g₁, ?_, hg₁, ?_⟩
    · rw [placed_get?_of_ne _ hroots, hget]
    · simp only [placed, record, Entries.put_comm hroots hkey, Entries.insert_comm hnames]

end Fills

/-! ### Steps -/

namespace Loader

variable {d : Definition} {c c' : RealizedConfig} {l : Loader} {value? : String → Option String}
  {name name' : String} {fate fate' : Fate} {targets targets' : List LoadTarget}
  {log log' : List (String × Fate)}

/-- What a name that is applied does to the config of a plain definition. -/
def Applies (l : Loader) (value? : String → Option String) (d : Definition) (name : String)
    (c c' : RealizedConfig) : Prop :=
  l.Owns name ∧ ∃ root address value,
    d.Fills (Cursor.ofName name).next.2 ((value? name).getD "") root address value ∧
      c.FilledBy d.leaves root address value name ((value? name).getD "") c'

/-- In a plain definition, placing a value writes it: the slot of the name is filled. -/
theorem places_plain (hd : Built RootDecl.Plain d) (hc : Loaded d c) {root : String} {g : Group}
    {written : Bool}
    (h : LoadTarget.Places ⟨d, c⟩ name ((value? name).getD "") root g written) :
    written = true ∧ ∃ owner address value, owner.containingName = root ∧
      d.Fills (Cursor.ofName name).next.2 ((value? name).getD "") owner address value ∧
      ∃ before, c.get? root = some before ∧
        .group g = value.fill d.leaves (.group owner.tree) address (.group before) := by
  obtain ⟨id, leaf, before, value, hleaf, rfl, hget, hgives, hplace⟩ := h
  obtain ⟨owner, howner, hname, hfits⟩ := hc.fits hd _ before hget
  obtain ⟨g', address, hplace', hfill, heq⟩ := Built.place_eq_fill hd howner hleaf hname.symm
    (hd.counted (matchLeaf_eq_some hleaf).2) value hfits
  obtain ⟨rfl, rfl⟩ := Prod.mk.inj (Except.ok.inj (hplace'.symm.trans hplace))
  exact ⟨rfl, owner, address, value, hname, ⟨howner, id, leaf, hleaf, hname.symm, hfill, hgives⟩,
    before, hget, heq⟩

/-- **A step in a plain definition** fills the slot of a name that is applied, and else it does
nothing, whatever the realized roots hold. -/
theorem Step.plain_cases (hd : Built RootDecl.Plain d) (hc : Loaded d c)
    (h : l.Step value? name [⟨d, c⟩] fate targets') :
    targets' = [⟨d, c⟩] ∧ fate.Rests l value? name d c ∨
      fate = .applied 0 ∧ ∃ c', targets' = [⟨d, c'⟩] ∧ l.Applies value? d name c c' := by
  rcases h.single_cases with ⟨rfl, -, -, hrests⟩ | ⟨hown, root, g, written, places, rfl, rfl⟩
  · exact Or.inl ⟨rfl, hrests⟩
  · obtain ⟨rfl, owner, address, value, rfl, hfills, before, hget, heq⟩ :=
      places_plain hd hc places
    exact Or.inr ⟨rfl, _, rfl, hown, owner, address, value, hfills, before, g, hget, heq, rfl⟩

/-- In a plain definition, a name that fills a slot is applied. -/
theorem Applies.step (hd : Built RootDecl.Plain d) (hc : Loaded d c)
    (h : l.Applies value? d name c c') :
    l.Step value? name [⟨d, c⟩] (.applied 0) [⟨d, c'⟩] := by
  obtain ⟨hown, root, address, value, ⟨hroot, id, leaf, hmatch, hname, hfill, hgives⟩, g, g', hget,
    heq, rfl⟩ := h
  obtain ⟨g'', address', hplace, hfill', heq'⟩ := Built.place_eq_fill hd hroot hmatch hname
    (hd.counted (matchLeaf_eq_some hmatch).2) value (hc.fits_root hd hroot hget)
  rw [← hname] at hget ⊢
  obtain rfl := Option.some.inj (hfill.symm.trans hfill')
  obtain rfl := Value.group.inj (heq.trans heq'.symm)
  exact @Step.applied l value? name [] [] ⟨d, c⟩ leaf.root g' hown (List.forall_mem_nil _)
    ⟨id, leaf, g, value, hmatch, rfl, hget, hgives, hplace⟩

/-- **Two steps can be taken in either order**, if the names split into different segments. -/
theorem Step.comm (hd : Built RootDecl.Plain d) (hc : Loaded d c)
    (hsegments : Name.segments name ≠ Name.segments name')
    (h : l.Step value? name [⟨d, c⟩] fate targets)
    (h' : l.Step value? name' targets fate' targets') :
    ∃ between, l.Step value? name' [⟨d, c⟩] fate' between ∧
      l.Step value? name between fate targets' := by
  have hnames : name ≠ name' := fun heq => hsegments (by rw [heq])
  rcases h.plain_cases hd hc with ⟨rfl, hrests⟩ | ⟨rfl, c₁, rfl, happlies⟩
  · -- The first name does nothing, before the second or behind it.
    refine ⟨targets', h', ?_⟩
    rcases h'.plain_cases hd hc with ⟨rfl, -⟩ | ⟨-, c₂, rfl, -, _, _, _, -, hfilled⟩
    · exact h
    · exact hrests c₂ hfilled.isSome_get?
  have hc₁ := h.isLoaded hc
  obtain ⟨hown, root, address, value, hfills, hfilled⟩ := happlies
  rcases h'.plain_cases hd hc₁ with ⟨rfl, hrests⟩ | ⟨rfl, c₂, rfl, hown', happlies'⟩
  · exact ⟨_, hrests c fun other => (hfilled.isSome_get? other).symm, h⟩
  obtain ⟨root', address', value', hfills', hfilled'⟩ := happlies'
  have hremaining :
      (Cursor.ofName name).next.2.remaining ≠ (Cursor.ofName name').next.2.remaining := by
    intro heq
    exact hsegments (by rw [Cursor.segments_eq_cons hown, Cursor.segments_eq_cons hown', heq])
  obtain ⟨between, hfirst, hsecond⟩ :=
    hfilled.comm hd hc hfills hfills' hremaining hnames hfilled'
  have hstep := Applies.step hd hc ⟨hown', root', address', value', hfills', hfirst⟩
  exact ⟨_, hstep,
    Applies.step hd (hstep.isLoaded hc) ⟨hown, root, address, value, hfills, hsecond⟩⟩

/-- **A run can be taken in any order**, if no two of its names split into the same segments. -/
theorem Run.perm (hd : Built RootDecl.Plain d) (hperm : log.Perm log')
    (hdistinct : (log.map fun entry => Name.segments entry.1).Nodup) (hc : Loaded d c)
    (h : l.Run value? [⟨d, c⟩] log targets') : l.Run value? [⟨d, c⟩] log' targets' := by
  induction hperm generalizing c with
  | nil => exact h
  | @cons entry log log' _ ih =>
    cases h with
    | cons step run =>
      have hrest := (List.nodup_cons.mp hdistinct).2
      obtain ⟨c₁, rfl⟩ := step.exists_single
      exact .cons step (ih hrest (step.isLoaded hc) run)
  | swap entry entry' rest =>
    cases h with
    | cons step run =>
      cases run with
      | cons step' run =>
        have hnotMem := (List.nodup_cons.mp hdistinct).1
        rw [List.map_cons, List.mem_cons, not_or] at hnotMem
        obtain ⟨between, hfirst, hsecond⟩ := step.comm hd hc hnotMem.1 step'
        exact .cons hfirst (.cons hsecond run)
  | trans hfirst _ ih ih' =>
    have hsegments := hfirst.map fun entry => Name.segments entry.1
    exact ih' (hsegments.nodup hdistinct) hc (ih hdistinct hc h)

end Loader

/-! ### Reports -/

/-- The reports on the fates of names in two orders: the names without a leaf are listed in these
orders, and all else is the same. -/
theorem LoadReport.ofLog_perm {log log' : List (String × Loader.Fate)} (h : log.Perm log') :
    (ofLog log).applied = (ofLog log').applied ∧ (ofLog log).unmatched = (ofLog log').unmatched ∧
      (ofLog log).unrecognized.Perm (ofLog log').unrecognized := by
  have hsums := sums_ofLog log
  have hsums' := sums_ofLog log'
  refine ⟨?_, eq_of_ascending hsums.ascending hsums'.ascending fun name => ?_, ?_⟩
  · rw [hsums.applied, hsums'.applied, h.countP_eq]
  · rw [hsums.unmatched, hsums'.unmatched, h.mem_iff]
  · rw [hsums.unrecognized, hsums'.unrecognized]
    exact (h.filter _).map _

/-! ### Loads -/

/-- Entries with distinct keys hold the same values in every order. -/
theorem Entries.lookup_eq_of_perm {α : Type} {entries entries' : Entries α}
    (hperm : entries.Perm entries') (hdistinct : (Entries.keys entries).Nodup) (key : String) :
    entries.lookup key = entries'.lookup key := by
  have hdistinct' : (Entries.keys entries').Nodup := (hperm.map _).nodup hdistinct
  refine Option.ext fun value => ⟨fun h => ?_, fun h => ?_⟩
  · exact lookup_eq_of_mem hdistinct' (hperm.mem_iff.mp (mem_of_lookup h))
  · exact lookup_eq_of_mem hdistinct (hperm.mem_iff.mpr (mem_of_lookup h))

/-- A load that comes to its end does so in every order of the properties, with the same config. -/
theorem Loaded.exists_load_perm {d : Definition} (hd : Built RootDecl.Plain d) {c : RealizedConfig}
    (hc : Loaded d c) {l : Loader} {p p' : Properties} (hperm : p.Perm p')
    (hdistinct : ((Entries.keys p).map Name.segments).Nodup) {targets : List LoadTarget}
    {report : LoadReport} (h : l.load p.toSource [⟨d, c⟩] = (targets, .ok report)) :
    ∃ report', l.load p'.toSource [⟨d, c⟩] = (targets, .ok report') ∧
      report.applied = report'.applied ∧ report.unmatched = report'.unmatched ∧
      report.unrecognized.Perm report'.unrecognized := by
  have hvalue : p.toSource.value? = p'.toSource.value? :=
    funext fun name => Entries.lookup_eq_of_perm hperm hdistinct.of_map name
  obtain ⟨log, hnames, run, rfl⟩ := Loader.load_eq_ok_iff.mp h
  have hkeys : p'.toSource.names.Perm (log.map (·.1)) := by
    rw [hnames]
    exact (hperm.map _).symm
  -- The fates go with the names, so the log is put into the other order.
  obtain ⟨log', hnames', hlog⟩ : ∃ log' : List (String × Loader.Fate),
      p'.toSource.names = log'.map (·.1) ∧ log'.Perm log :=
    (congrFun₂ (List.eq_map_comp_perm Prod.fst) _ log).mpr hkeys
  have hdistinct' : (log.map fun entry => Name.segments entry.1).Nodup := by
    rw [show Entries.keys p = log.map (·.1) from hnames.symm, List.map_map] at hdistinct
    exact hdistinct
  have hrun := run.perm hd hlog.symm hdistinct' hc
  rw [hvalue] at hrun
  exact ⟨_, Loader.load_eq_ok_iff.mpr ⟨log', hnames'.symm, hrun, rfl⟩,
    LoadReport.ofLog_perm hlog.symm⟩

/-- **The order of a load does not matter** in a plain definition: if no two names of a source split
into the same segments, a load of the properties in another order comes to its end exactly if the
first one does, with the same config, and the report only lists the names without a leaf in another
order. -/
theorem Loaded.load_perm {d : Definition} (hd : Built RootDecl.Plain d) {c : RealizedConfig}
    (hc : Loaded d c) (l : Loader) {p p' : Properties} (hperm : p.Perm p')
    (hdistinct : ((Entries.keys p).map Name.segments).Nodup) :
    ((∃ targets report, l.load p.toSource [⟨d, c⟩] = (targets, .ok report)) ↔
        ∃ targets report, l.load p'.toSource [⟨d, c⟩] = (targets, .ok report)) ∧
      ∀ targets targets' report report', l.load p.toSource [⟨d, c⟩] = (targets, .ok report) →
        l.load p'.toSource [⟨d, c⟩] = (targets', .ok report') →
        targets = targets' ∧ report.applied = report'.applied ∧
          report.unmatched = report'.unmatched ∧ report.unrecognized.Perm report'.unrecognized := by
  have hdistinct' : ((Entries.keys p').map Name.segments).Nodup :=
    ((hperm.map _).map _).nodup hdistinct
  refine ⟨⟨?_, ?_⟩, fun targets targets' report report' h h' => ?_⟩
  · rintro ⟨targets, report, h⟩
    obtain ⟨report', h', -⟩ := hc.exists_load_perm hd hperm hdistinct h
    exact ⟨targets, report', h'⟩
  · rintro ⟨targets, report', h'⟩
    obtain ⟨report, h, -⟩ := hc.exists_load_perm hd hperm.symm hdistinct' h'
    exact ⟨targets, report, h⟩
  · obtain ⟨other, hother, hreports⟩ := hc.exists_load_perm hd hperm hdistinct h
    obtain ⟨rfl, hreport⟩ := Prod.mk.inj (hother.symm.trans h')
    obtain rfl := Except.ok.inj hreport
    exact ⟨rfl, hreports⟩

/-- Two values for new entries of a map, in either order: the config is the same, and the names
without a leaf are listed as they come. -/
theorem load_perm_plainDecl :
    let d := (empty.registerRoot plainDecl).1
    let l := Loader.ofNamespace "app"
    let p : Properties :=
      [("app.a.m.k.v", "x"), ("app.q", "1"), ("app.a.m.j.n", "8"), ("app.r", "2")]
    let p' : Properties :=
      [("app.r", "2"), ("app.a.m.j.n", "8"), ("app.q", "1"), ("app.a.m.k.v", "x")]
    p.Perm p' ∧ ((Entries.keys p).map Name.segments).Nodup ∧ ∃ targets report report',
      l.load p.toSource [⟨d, d.realize .runtime⟩] = (targets, .ok report) ∧
        l.load p'.toSource [⟨d, d.realize .runtime⟩] = (targets, .ok report') ∧
        report = { unrecognized := ["app.q", "app.r"], applied := 2 } ∧
        report' = { unrecognized := ["app.r", "app.q"], applied := 2 } := by
  intro d l p p'
  have hbuilt : Built RootDecl.Plain d :=
    .register .empty plain_plainDecl (Prod.ext rfl (by decide +kernel))
  have hperm : p.Perm p' := (List.reverse_perm p).symm
  have hdistinct : ((Entries.keys p).map Name.segments).Nodup := by decide +kernel
  have hreports :
      (l.load p.toSource [⟨d, d.realize .runtime⟩]).2.toOption =
          some { unrecognized := ["app.q", "app.r"], applied := 2 } ∧
        (l.load p'.toSource [⟨d, d.realize .runtime⟩]).2.toOption =
          some { unrecognized := ["app.r", "app.q"], applied := 2 } := by
    decide +kernel
  obtain ⟨hsame, hall⟩ := Loaded.load_perm hbuilt (.walked .runtime) l hperm hdistinct
  cases hload : l.load p.toSource [⟨d, d.realize .runtime⟩] with
  | mk targets result =>
    cases result with
    | error e => simp [hload, Except.toOption] at hreports
    | ok report =>
      obtain ⟨targets', report', hload'⟩ := hsame.mp ⟨targets, report, hload⟩
      obtain ⟨rfl, -⟩ := hall _ _ _ _ hload hload'
      simp only [hload, hload', Except.toOption, Option.some.injEq] at hreports
      exact ⟨hperm, hdistinct, targets, report, report', rfl, hload', hreports⟩

end PropertyBinding

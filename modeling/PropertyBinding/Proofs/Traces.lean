import PropertyBinding.Proofs.Aborting
import PropertyBinding.Proofs.Unwritten
import PropertyBinding.Proofs.WildcardKeys

/-!
# Traces of values that are not written

A name that is not applied may leave a trace in the realized graph (`Definition.Traced`): map
entries that have been made on the path of its leaf. Whether it can, is seen from the leaf alone
(`Leaf.Clean`): the first entry that a write into the defaults makes must lead to the end of the
path.

Exactly the names of leaves that are not clean leave traces (`Built.traced_iff`): loaded configs
keep what writes along clean paths need (`Loaded.ascends_outlined`), and a name of another leaf
leaves a trace in the defaults (`Built.exists_place_ne`). The leaves of plain definitions are clean
(`Built.clean_of_counted`).
-/

namespace PropertyBinding

open Definition

/-! ### Names that leave a trace -/

/-- Whether the path of a leaf leads to its end from the first map entry that a write into the
defaults of the leaf's root makes. -/
def Leaf.Clean (d : Definition) (leaf : Leaf) : Prop :=
  ∀ root ∈ d.roots, root.containingName = leaf.root →
    (Value.group (d.defaultGroup root.tree)).Clean d.templates (Name.segments leaf.pattern).length
      leaf.path

instance (d : Definition) (leaf : Leaf) : Decidable (leaf.Clean d) :=
  inferInstanceAs (Decidable (∀ root ∈ d.roots, root.containingName = leaf.root → _))

/-- Whether a name can leave a trace: in a load of a config of the definition, it is the last of
some names and not applied, but the config is not the one to which a load of the names before
comes. -/
def Definition.Traced (d : Definition) (l : Loader) (name : String) : Prop :=
  ∃ (c : RealizedConfig) (value? : String → Option String) (before : List String)
    (targets targets' : List LoadTarget) (report report' : LoadReport), Loaded d c ∧
    l.load ⟨before, value?⟩ [⟨d, c⟩] = (targets, .ok report) ∧
    l.load ⟨before ++ [name], value?⟩ [⟨d, c⟩] = (targets', .ok report') ∧
    report'.applied = report.applied ∧ targets' ≠ targets

section Traced

variable {good : RootDecl → Prop} {d : Definition} {c : RealizedConfig} {id : Nat} {leaf : Leaf}

/-- The templates that the path of a leaf names are defaults of nodes. -/
theorem Built.defaultTemplates (h : Built good d) (hleaf : d.leaf? id = some leaf) :
    DefaultTemplates d.leaves d.templates leaf.path :=
  fun _ _ hmem => h.exists_template hleaf hmem

/-- The maps of loaded configs ascend, and the groups and maps that attributes alone lead to are of
the kinds of their nodes. -/
theorem Loaded.ascends_outlined (h : Built good d) (hc : Loaded d c) :
    c.Holds d fun root g => (Value.group g).Ascends ∧ Outlined (.group root.tree) (.group g) := by
  have hscalar := h.sound_any.scalar
  refine hc.holds h.sound_any (fun root _ => ?_) ?_
  · have hascends := ascends_defaultOver hscalar (.group root.tree)
    have hfollows := follows_defaultOver hscalar (.group root.tree)
    rw [defaultOver] at hascends hfollows
    exact ⟨hascends, hfollows.outlined⟩
  · rintro root - name id leaf raw value g g' written hmatch - hvalue ⟨hascends, houtlined⟩ hplace
    have hleaf := (matchLeaf_eq_some hmatch).2
    have hvalue' := Leaf.valueOf_isScalar (hscalar leaf (List.mem_of_getElem? hleaf)) hvalue
    rcases Leaf.place_ok hplace with rfl | hwrite
    · exact ⟨hascends, houtlined⟩
    · exact ⟨hascends.write hscalar (h.defaultTemplates hleaf) hvalue' hwrite,
        houtlined.write hvalue' hwrite⟩

/-- A value of a clean leaf that is not written leaves no trace in the root. -/
theorem Loaded.place_eq_self (h : Built good d) (hc : Loaded d c) {cursor : Cursor}
    (hmatch : d.matchLeaf cursor = some (id, leaf)) (hclean : leaf.Clean d) {g g' : Group}
    (hget : c.get? leaf.root = some g) {value : Value}
    (hplace : leaf.place d cursor value g = .ok (g', false)) : g' = g := by
  have hleaf := (matchLeaf_eq_some hmatch).2
  obtain ⟨root, hroot, hname, hascends, houtlined⟩ := hc.ascends_outlined h _ g hget
  have hdefault := hclean root hroot hname
  rw [defaultGroup, ← defaultOver] at hdefault
  rcases Leaf.place_ok hplace with rfl | hwrite
  · rfl
  · exact Value.group.inj (Value.write_eq_self_of_clean h.sound_any.scalar
      (h.defaultTemplates hleaf) (h.sound_any.segment?_isSome_iff hmatch) hascends houtlined
      hdefault hwrite)

/-- A value of a leaf that is not clean leaves a trace in the defaults of the leaf's root. -/
theorem Built.exists_place_ne (h : Built good d) {cursor : Cursor}
    (hmatch : d.matchLeaf cursor = some (id, leaf)) (hclean : ¬leaf.Clean d) (value : Value) :
    ∃ g g', (d.realize .build).get? leaf.root = some g ∧
      leaf.place d cursor value g = .ok (g', false) ∧ g' ≠ g := by
  have hleaf := (matchLeaf_eq_some hmatch).2
  obtain ⟨root, hroot, hname, hdefault⟩ : ∃ root ∈ d.roots, root.containingName = leaf.root ∧
      ¬(Value.group (d.defaultGroup root.tree)).Clean d.templates
        (Name.segments leaf.pattern).length leaf.path := by
    simpa [Leaf.Clean] using hclean
  have hget : (d.realize .build).get? root.containingName = some (d.defaultGroup root.tree) :=
    realize_get?_eq h.sound_any.names hroot rfl
  rw [hname] at hget
  obtain ⟨ident, rest, hpath⟩ := Value.exists_field_of_not_clean hdefault
  rw [defaultGroup, ← defaultOver] at hdefault
  obtain ⟨v', hwrite, hne⟩ := exists_write_ne_of_not_clean h.sound_any.scalar
    (h.defaultTemplates hleaf) (h.sound_any.segment?_isSome_iff hmatch) value hdefault
  have hplace : (leaf.place d cursor value (d.defaultGroup root.tree)).map
      (fun r => (Value.group r.1, r.2)) = .ok (v', false) := by
    rw [Leaf.place_eq hpath, defaultGroup, ← defaultOver]
    exact hwrite
  obtain ⟨⟨g', written⟩, hok, heq⟩ := ok_of_map_eq_ok hplace
  obtain ⟨rfl, rfl⟩ := Prod.mk.inj heq
  refine ⟨_, g', hget, hok, ?_⟩
  rintro rfl
  exact hne (by rw [defaultOver]; rfl)

namespace Loader

variable {l : Loader} {value? : String → Option String} {name : String} {fate : Fate}
  {targets : List LoadTarget}

/-- A name that is not applied changes nothing, or it is one of a leaf that is not clean. -/
theorem Step.eq_or_not_clean (h : Built good d) (hc : Loaded d c)
    (hstep : l.Step value? name [⟨d, c⟩] fate targets) (hfate : fate.isApplied = false) :
    targets = [⟨d, c⟩] ∨ l.Owns name ∧ ∃ id leaf,
      d.matchLeaf (Cursor.ofName name).next.2 = some (id, leaf) ∧ ¬leaf.Clean d := by
  rcases hstep.single_cases with ⟨rfl, -, -⟩ | ⟨hown, root, g, written, hplaces, rfl, rfl⟩
  · exact Or.inl rfl
  obtain rfl : written = false := by
    cases written with
    | false => rfl
    | true => cases hfate
  obtain ⟨id, leaf, before, value, hmatch, rfl, hget, hgives, hplace⟩ := hplaces
  by_cases hclean : leaf.Clean d
  · -- The root has been put back as it was.
    obtain rfl := hc.place_eq_self h hmatch hclean hget hplace
    refine Or.inl ?_
    rw [if_neg Bool.false_ne_true, RealizedConfig.withRoot, Entries.put_eq_self hget]
  · exact Or.inr ⟨hown, id, leaf, hmatch, hclean⟩

end Loader

/-- **Which names leave traces**: those in the namespace whose leaf is not clean, and no others. -/
theorem Built.traced_iff (h : Built (fun _ => True) d) (l : Loader) (name : String) :
    d.Traced l name ↔ l.Owns name ∧ ∃ id leaf,
      d.matchLeaf (Cursor.ofName name).next.2 = some (id, leaf) ∧ ¬leaf.Clean d := by
  constructor
  · rintro ⟨c, value?, before, targets, targets', report, report', hc, hload, hload', happlied, hne⟩
    obtain ⟨between, noted, fate, hbefore, step, rfl⟩ :=
      Loader.load_append_singleton_iff.mp hload'
    obtain ⟨rfl, hreport⟩ := Prod.mk.inj (hload.symm.trans hbefore)
    obtain rfl := Except.ok.inj hreport
    obtain ⟨c', rfl, hc'⟩ := Loader.exists_loaded_of_load hc hload
    have hfate : fate.isApplied = false := by
      cases fate with
      | applied i => simp [LoadReport.note] at happlied
      | _ => rfl
    exact (step.eq_or_not_clean h hc' hfate).resolve_left hne
  · rintro ⟨hown, id, leaf, hmatch, hclean⟩
    obtain ⟨g, g', hget, hplace, hne⟩ := h.exists_place_ne hmatch hclean leaf.defaultValue
    have hstep : l.Step (fun _ => none) name [⟨d, d.realize .build⟩] (.skipped 0)
        [⟨d, (d.realize .build).withRoot leaf.root g'⟩] :=
      @Loader.Step.unplaced l _ name [] [] ⟨d, d.realize .build⟩ leaf.root g' hown
        (List.forall_mem_nil _)
        ⟨id, leaf, g, leaf.defaultValue, hmatch, rfl, hget, Or.inl ⟨rfl, rfl⟩, hplace⟩
    refine ⟨d.realize .build, fun _ => none, [], _, _, {}, _, .walked .build, rfl,
      Loader.load_append_singleton_iff.mpr ⟨_, {}, .skipped 0, rfl, hstep, rfl⟩, rfl, ?_⟩
    intro heq
    have hget' : ((d.realize .build).withRoot leaf.root g').get? leaf.root = some g' :=
      Entries.lookup_put_self _ _ _
    have hconfig : (d.realize .build).withRoot leaf.root g' = d.realize .build :=
      (LoadTarget.mk.inj (List.cons.inj heq).1).2
    rw [hconfig, hget] at hget'
    exact hne (Option.some.inj hget').symm

end Traced

/-! ### Clean leaves -/

/-- A way through a tree without repeated attributes leads from the default of its node to its end,
if names have the segments that its maps are keyed by. -/
theorem Way.leads {leaves : List Leaf} {templates : List Value} {piece : String → Prop}
    {node : Node} {key full : List String} {steps : List PathStep} {id count : Nat}
    (h : Way leaves templates piece node key steps full id) (hnodup : node.Each List.Nodup)
    (hcount : ∀ segment ∈ keySegments steps, segment < count) :
    (defaultOver leaves node).Leads templates count steps := by
  induction h with
  | leaf key id => exact trivial
  | @field g ident child _ _ _ _ _ mem _ _ ih =>
    obtain ⟨hattribute, heach⟩ := hnodup.attribute?_eq mem
    refine ⟨defaultOver leaves child, ?_, ih heach hcount⟩
    rw [Option.mem_def, defaultOver_group_slot?, hattribute, Option.map_some]
  | entry template_eq _ ih =>
    rw [Node.Each] at hnodup
    obtain ⟨hsegment, hrest⟩ := List.forall_mem_cons.mp hcount
    exact ⟨by rw [defaultOver]; rfl, hsegment, _, template_eq, ih hnodup hrest⟩

/-- If no attribute is repeated, a leaf is clean whose segments are counted right, as those of all
leaves of plain definitions are. -/
theorem Built.clean_of_counted {piece : String → Prop} {d : Definition}
    (h : Built (RootDecl.Each piece List.Nodup) d) {id : Nat} {leaf : Leaf}
    (hleaf : d.leaf? id = some leaf) (hcounted : leaf.Counted) : leaf.Clean d := by
  intro root hroot hname
  obtain ⟨hnodup, full, way⟩ := h.way hroot hleaf hname.symm
  have hcount : ∀ segment ∈ keySegments leaf.path,
      segment < (Name.segments leaf.pattern).length := by
    intro segment hsegment
    rw [hcounted] at hsegment
    obtain ⟨i, rfl, hi⟩ := mem_wildcardPositions.mp hsegment
    rw [Nat.zero_add]
    exact (List.getElem?_eq_some_iff.mp hi).1
  have hleads := way.leads hnodup hcount
  rw [defaultOver] at hleads
  exact hleads.clean

/-! ### Maps behind a quoted name, and repeated attributes -/

/-- A root `a` with a map of maps whose name is one quoted segment with a dot, a map of groups that
repeat an attribute, and a map of maps with a plain name. -/
def tracedDecl : RootDecl where
  group := ⟨"AConfig", false,
    [⟨"m", .explicit "\"x.y\"", none,
        .map (some .string) (some (.map (some .string) (some (.object .string)))), false, none⟩,
      ⟨"n", .hyphenated, none, .map (some .string) (some (.group ⟨"G", true,
        [⟨"v", .explicit "p", none, .map (some .string) (some (.object .string)), false, none⟩,
          ⟨"v", .explicit "q", none, .object .string, false, none⟩]⟩)), false, none⟩,
      ⟨"o", .hyphenated, none,
        .map (some .string) (some (.map (some .string) (some (.object .string)))), false, none⟩]⟩
  name := .hyphenated
  phase := .runTime

/-- Only the map of maps with a plain name and the last declared attribute have clean leaves. -/
theorem traced_tracedDecl :
    let d := (empty.registerRoot tracedDecl).1
    let l := Loader.ofNamespace "app"
    Built (fun _ => True) d ∧ d.Traced l "app.a.\"x.y\".k.j" ∧ d.Traced l "app.a.n.k.p.j" ∧
      ¬d.Traced l "app.a.n.k.q" ∧ ¬d.Traced l "app.a.o.k.j" ∧ ¬d.Traced l "app.b" := by
  intro d l
  have hbuilt : Built (fun _ => True) d :=
    .register .empty trivial (Prod.ext rfl (by decide +kernel))
  let cleanOf? (name : String) : Option Bool :=
    (d.matchLeaf (Cursor.ofName name).next.2).map fun found => decide (found.2.Clean d)
  have htraced : ∀ name, l.Owns name → (d.Traced l name ↔ cleanOf? name = some false) := by
    intro name hown
    rw [Built.traced_iff hbuilt l name, and_iff_right hown]
    simp [cleanOf?]
  rw [htraced _ (by decide +kernel), htraced _ (by decide +kernel), htraced _ (by decide +kernel),
    htraced _ (by decide +kernel), htraced _ (by decide +kernel)]
  exact ⟨hbuilt, by decide +kernel⟩

/-- **Entries can be left behind.** Two names of one root are not applied, and each leaves a new
entry in its map. -/
theorem tracedDecl_leaves_entries :
    let d := (empty.registerRoot tracedDecl).1
    let source := (Properties.ofPairs
      [("app.a.\"x.y\".k.j", "1"), ("app.a.n.k.p.j", "2")]).toSource
    let run := (Loader.ofNamespace "app").load source [⟨d, d.realize .runtime⟩]
    let keys := fun (c : RealizedConfig) => ["m", "n"].map fun ident =>
      ((c.get? "a").bind fun g => (g.get? ident).bind Value.asMap?).map Entries.keys
    run.2.toOption = some {} ∧ keys (d.realize .runtime) = [some [], some []] ∧
      run.1.map (fun target => (keys target.config, target.config.loaded)) =
        [([some ["j"], some ["k"]], [])] := by
  decide +kernel

end PropertyBinding

import PropertyBinding.Proofs.Indices
import PropertyBinding.Proofs.Registered

/-!
# The effect of resolving again

What a cell is to hold is the default of its leaf or what its raw text reads as (`Loader.target?`).
A pass over the cells is determined by these targets: it goes through the cells that have one, gives
those whose value differs from the target the target, and ends at the first cell that has none
(`Loader.resolveCells_append`).

Values are compared as the program compares them, and a value with a floating-point number that is
none differs from every value (`Value.equals_eq_false`). Every other target equals itself
(`Convert.value_equals_self`), so that a second pass over the same source reports exactly the cells
whose target has such a number (`Built.reResolve_effect`).
-/

namespace PropertyBinding

open Definition

/-! ### Values that differ from themselves -/

mutual

/-- Whether a floating-point number in the value of a leaf is none. -/
def Value.hasNaN : Value → Bool
  | .float x => x.isNaN
  | .double x => x.isNaN
  | .list items => hasNaNItem items
  | .optional (some inner) => inner.hasNaN
  | _ => false

/-- Whether a floating-point number in one of some values is none. -/
def hasNaNItem : List Value → Bool
  | [] => false
  | v :: rest => v.hasNaN || hasNaNItem rest

end

/-- What is no number equals nothing. -/
theorem Floating.numericEq_eq_false {f : FloatFormat} {x y : Floating f} (h : y.isNaN = true) :
    x.numericEq y = false := by
  simp [numericEq, h]

/-- A number equals itself. -/
theorem Floating.numericEq_self {f : FloatFormat} {x : Floating f} (h : x.isNaN = false) :
    x.numericEq x = true := by
  simp [numericEq, h]

mutual

/-- A value with a number that is none equals nothing. -/
theorem Value.equals_eq_false : ∀ {a v : Value}, v.hasNaN = true → a.equals v = false
  | a, .float x, h => by
    rw [Value.hasNaN] at h
    cases a <;> simp [Value.equals, Floating.numericEq_eq_false h]
  | a, .double x, h => by
    rw [Value.hasNaN] at h
    cases a <;> simp [Value.equals, Floating.numericEq_eq_false h]
  | a, .list items, h => by
    rw [Value.hasNaN] at h
    cases a with
    | list others =>
      rw [Value.equals]
      exact equalItems_eq_false h
    | _ => simp [Value.equals]
  | a, .optional (some inner), h => by
    rw [Value.hasNaN] at h
    cases a with
    | optional other =>
      cases other with
      | none => simp [Value.equals]
      | some other =>
        rw [Value.equals]
        exact Value.equals_eq_false h
    | _ => simp [Value.equals]

/-- Items with a number that is none equal no others. -/
theorem equalItems_eq_false : ∀ {as vs : List Value}, hasNaNItem vs = true →
    equalItems as vs = false
  | as, [], h => by simp [hasNaNItem] at h
  | [], v :: vs, _ => by simp [equalItems]
  | a :: as, v :: vs, h => by
    rw [hasNaNItem, Bool.or_eq_true] at h
    rw [equalItems, Bool.and_eq_false_iff]
    exact h.imp Value.equals_eq_false equalItems_eq_false

end

/-- Items equal themselves if each of them does. -/
theorem equalItems_self {vs : List Value} (h : ∀ v ∈ vs, v.equals v = true) :
    equalItems vs vs = true := by
  induction vs with
  | nil => simp [equalItems]
  | cons v vs ih =>
    obtain ⟨hv, hvs⟩ := List.forall_mem_cons.mp h
    rw [equalItems, hv, ih hvs, Bool.and_self]

/-- An item of a list without a number that is none has none either. -/
theorem hasNaN_of_mem {vs : List Value} (h : hasNaNItem vs = false) :
    ∀ v ∈ vs, v.hasNaN = false := by
  induction vs with
  | nil => exact List.forall_mem_nil _
  | cons v vs ih =>
    rw [hasNaNItem, Bool.or_eq_false_iff] at h
    exact List.forall_mem_cons.mpr ⟨h.1, ih h.2⟩

namespace Convert

variable {raw : String} {v : Value}

/-- What a text of a scalar type reads as equals itself, unless it is no number. -/
theorem scalar_equals_self {type : ValueType} (h : Convert.scalar type raw = .ok v)
    (hnumber : v.hasNaN = false) : v.equals v = true := by
  cases type with
  | string =>
    obtain rfl := Except.ok.inj h
    simp [Value.equals]
  | path =>
    obtain rfl := Except.ok.inj h
    simp [Value.equals, Text.samePath_self]
  | float | double =>
    obtain ⟨x, -, rfl⟩ := ok_of_map_eq_ok h
    rw [Value.hasNaN] at hnumber
    rw [Value.equals, Floating.numericEq_self hnumber]
  | boolean | integer | long | memorySize | enum names =>
    obtain ⟨_, -, rfl⟩ := ok_of_map_eq_ok h
    simp [Value.equals]

/-- **What a text reads as for a leaf** equals itself, unless it has a number that is none. -/
theorem value_equals_self {kind : LeafKind} (h : Convert.value kind raw = .ok v)
    (hnumber : v.hasNaN = false) : v.equals v = true := by
  rcases Convert.value_cases h with
    ⟨type, hread⟩ | rfl | rfl | ⟨type, inner, hread, rfl⟩ | ⟨type, items, hread, rfl⟩
  · exact scalar_equals_self hread hnumber
  · simp [Value.equals]
  · simp [Value.equals]
  · rw [Value.hasNaN] at hnumber
    rw [Value.equals]
    exact scalar_equals_self hread hnumber
  · rw [Value.hasNaN] at hnumber
    rw [Value.equals]
    refine equalItems_self fun item hitem => ?_
    obtain ⟨text, htext⟩ := hread item hitem
    exact scalar_equals_self htext (hasNaN_of_mem hnumber item hitem)

end Convert

/-! ### Targets -/

/-- What a leaf is to hold for what a source has under its name: the default if this is nothing or
empty, else what it reads as, if it can be read. -/
def Leaf.target? (leaf : Leaf) (found : Option String) : Option Value :=
  match found with
  | none | some "" => some leaf.defaultValue
  | some raw => (Convert.value leaf.kind raw).toOption

/-- A target is the value of the raw text. -/
theorem Leaf.target?_eq_some_iff {leaf : Leaf} {found : Option String} {value : Value} :
    leaf.target? found = some value ↔ leaf.Gives (found.getD "") value := by
  cases found with
  | none => simp [target?, Gives, eq_comm]
  | some raw =>
    by_cases hraw : raw = ""
    · simp [target?, Gives, hraw, eq_comm]
    · rw [target?]
      · cases hread : Convert.value leaf.kind raw <;> simp [Gives, hraw, hread, Except.toOption]
      · exact hraw

/-- There is no target exactly if there is a raw text that the leaf rejects. -/
theorem Leaf.target?_eq_none_iff {leaf : Leaf} {found : Option String} :
    leaf.target? found = none ↔ ∃ raw reason, found = some raw ∧ leaf.Rejects raw reason := by
  cases found with
  | none => simp [target?]
  | some raw =>
    by_cases hraw : raw = ""
    · simp [target?, Rejects, hraw]
    · rw [target?]
      · cases hread : Convert.value leaf.kind raw <;> simp [Rejects, hraw, hread, Except.toOption]
      · exact hraw

namespace Loader

/-- The full name of a cell. -/
def fullName (l : Loader) (entry : String × RuntimeCell) : String :=
  l.namespaceName ++ "." ++ entry.1

/-- What a cell is to hold. -/
def target? (l : Loader) (source : Source) (d : Definition) (entry : String × RuntimeCell) :
    Option Value :=
  (d.leaf? entry.2.leaf).bind fun leaf => leaf.target? (source.value? (l.fullName entry))

/-- Whether the value of a cell differs from what it is to hold. -/
def changes (l : Loader) (source : Source) (d : Definition) (entry : String × RuntimeCell) : Bool :=
  (l.target? source d entry).any fun value => !entry.2.value.equals value

/-- A cell with what it is to hold, if its value differs from that. -/
def refreshed (l : Loader) (source : Source) (d : Definition) (entry : String × RuntimeCell) :
    String × RuntimeCell :=
  if l.changes source d entry then
    (entry.1, { entry.2 with value := (l.target? source d entry).getD entry.2.value })
  else entry

section Cells

variable {l : Loader} {source : Source} {d : Definition} {before : Entries RuntimeCell}
  {entry : String × RuntimeCell}

/-- Refreshing a cell keeps what it is to hold. -/
theorem target?_refreshed : l.target? source d (l.refreshed source d entry) =
    l.target? source d entry := by
  rw [refreshed]
  split_ifs <;> rfl

/-- **A pass goes through the cells that are to hold something**, and refreshes those. -/
theorem resolveCells_append (htargets : ∀ entry ∈ before, (l.target? source d entry).isSome)
    (rest : Entries RuntimeCell) :
    l.resolveCells source d (before ++ rest) =
      (before.map (l.refreshed source d) ++ (l.resolveCells source d rest).1,
        (l.resolveCells source d rest).2.map
          (((before.filter (l.changes source d)).map l.fullName) ++ ·)) := by
  induction before with
  | nil =>
    cases hrest : l.resolveCells source d rest with
    | mk after changed => cases changed <;> simp [hrest, Except.map]
  | cons first before ih =>
    obtain ⟨name, cell⟩ := first
    obtain ⟨hfirst, hbefore⟩ := List.forall_mem_cons.mp htargets
    obtain ⟨value, hvalue⟩ := Option.isSome_iff_exists.mp hfirst
    obtain ⟨leaf, hleaf, htarget⟩ := Option.bind_eq_some_iff.mp hvalue
    have hok : leaf.valueOf (l.namespaceName ++ "." ++ name)
        ((source.value? (l.namespaceName ++ "." ++ name)).getD "") = .ok value :=
      Leaf.valueOf_eq_ok_iff.mpr (Leaf.target?_eq_some_iff.mp htarget)
    rw [List.cons_append, resolveCells]
    simp only [show d.leaf? cell.leaf = some leaf from hleaf, hok, ih hbefore]
    have hchanges : l.changes source d (name, cell) = !cell.value.equals value := by
      rw [changes, hvalue]
      rfl
    by_cases hequals : cell.value.equals value
    · have hsame : l.changes source d (name, cell) = false := by rw [hchanges, hequals]; rfl
      simp [hequals, hsame, refreshed]
    · have hdiffers : l.changes source d (name, cell) = true := by
        rw [hchanges]
        simpa using hequals
      cases (l.resolveCells source d rest).2 <;>
        simp [hequals, hdiffers, refreshed, hvalue, fullName, Except.map]

/-- **A pass ends at the first cell that is to hold nothing**: the raw text under its name is
rejected. -/
theorem resolveCells_append_error {leaf : Leaf} {raw : String} {reason : ConversionError}
    (htargets : ∀ entry ∈ before, (l.target? source d entry).isSome)
    (hleaf : d.leaf? entry.2.leaf = some leaf) (hraw : source.value? (l.fullName entry) = some raw)
    (hrejects : leaf.Rejects raw reason) (rest : Entries RuntimeCell) :
    l.resolveCells source d (before ++ entry :: rest) =
      (before.map (l.refreshed source d) ++ entry :: rest,
        .error (.conversion (l.fullName entry) raw reason)) := by
  obtain ⟨name, cell⟩ := entry
  have herror : leaf.valueOf (l.namespaceName ++ "." ++ name)
      ((source.value? (l.namespaceName ++ "." ++ name)).getD "") =
        .error (.conversion (l.namespaceName ++ "." ++ name) raw reason) := by
    rw [show source.value? (l.namespaceName ++ "." ++ name) = some raw from hraw]
    exact Leaf.valueOf_eq_error_iff.mpr ⟨reason, hrejects, rfl⟩
  rw [resolveCells_append htargets, resolveCells]
  simp only [show d.leaf? cell.leaf = some leaf from hleaf, herror]
  rfl

/-- A cell that has been refreshed differs from what it is to hold exactly if this differs from
itself. -/
theorem changes_refreshed
    (hself : ∀ value, l.target? source d entry = some value → value.hasNaN = false →
      value.equals value = true) :
    l.changes source d (l.refreshed source d entry) =
      (l.target? source d entry).any Value.hasNaN := by
  rw [changes, target?_refreshed]
  cases htarget : l.target? source d entry with
  | none => rfl
  | some value =>
    rw [Option.any_some, Option.any_some]
    cases hnumber : value.hasNaN with
    | true => rw [Value.equals_eq_false hnumber, Bool.not_false]
    | false =>
      rw [refreshed]
      cases hchanges : l.changes source d entry with
      | true => simp [htarget, hself value htarget hnumber]
      | false => simpa [changes, htarget] using hchanges

end Cells

end Loader

/-! ### The effect of a pass -/

/-- Whether a frozen config has the cells that freezing its graph makes, with any values in them. -/
def FrozenConfig.CellsOf (d : Definition) (f : FrozenConfig) : Prop :=
  f.cells.map (fun cell => (cell.1, cell.2.leaf)) =
    (f.config.freeze d).cells.map fun cell => (cell.1, cell.2.leaf)

/-- What resolving a frozen config again does. -/
structure FrozenConfig.Resolves (f : FrozenConfig) (l : Loader) (source : Source)
    (d : Definition) : Prop where
  /-- Cells are in ascending order of their names, before and after. -/
  ordered : Entries.Ascending f.cells
  config : (l.reResolve source d f).1.config = f.config
  /-- If every cell is to hold something, the cells that differ are given that and reported, and
  the others are left alone. -/
  completes : (∀ entry ∈ f.cells, (l.target? source d entry).isSome) →
    (l.reResolve source d f).2 = .ok ((f.cells.filter (l.changes source d)).map l.fullName) ∧
      (l.reResolve source d f).1.cells = f.cells.map (l.refreshed source d)
  /-- A second pass reports what differs from itself. -/
  repeats : (∀ entry ∈ f.cells, (l.target? source d entry).isSome) →
    (l.reResolve source d (l.reResolve source d f).1).2 = .ok
      ((f.cells.filter fun entry => (l.target? source d entry).any Value.hasNaN).map l.fullName)
  /-- If some cell is to hold nothing, the first such cell ends the pass: its raw text is rejected,
  the cells before it are as in a pass that comes to its end, and it and the cells after it are left
  alone. -/
  aborts : (∃ entry ∈ f.cells, l.target? source d entry = none) →
    ∃ before entry after leaf raw reason, f.cells = before ++ entry :: after ∧
      (∀ earlier ∈ before, (l.target? source d earlier).isSome) ∧
      d.leaf? entry.2.leaf = some leaf ∧ source.value? (l.fullName entry) = some raw ∧
      leaf.Rejects raw reason ∧
      (l.reResolve source d f).2 = .error (.conversion (l.fullName entry) raw reason) ∧
      (l.reResolve source d f).1.cells = before.map (l.refreshed source d) ++ entry :: after

namespace FrozenConfig.CellsOf

variable {d : Definition} {f : FrozenConfig}

/-- The cells are in ascending order of their names. -/
theorem ascending (h : f.CellsOf d) : Entries.Ascending f.cells := by
  have hkeys : Entries.keys f.cells = Entries.keys (f.config.freeze d).cells := by
    simpa [Entries.keys, Function.comp_def] using congrArg (List.map Prod.fst) h
  rw [Entries.Ascending, hkeys]
  exact Entries.ascending_sorted _

/-- The cells belong to leaves of the table. -/
theorem exists_leaf (h : f.CellsOf d) {entry : String × RuntimeCell} (hentry : entry ∈ f.cells) :
    ∃ leaf, d.leaf? entry.2.leaf = some leaf := by
  have hmem := List.mem_map_of_mem (f := fun cell => (cell.1, cell.2.leaf)) hentry
  rw [h] at hmem
  obtain ⟨made, hmade, heq⟩ := List.mem_map.mp hmem
  have hlt := RealizedConfig.leaf_lt_of_mem_freeze hmade
  rw [(Prod.mk.inj heq).2] at hlt
  exact ⟨_, List.getElem?_eq_getElem hlt⟩

end FrozenConfig.CellsOf

/-- In a definition built by accepted declarations, what a cell is to hold equals itself, unless it
has a number that is none. -/
theorem Built.target_equals_self {good : RootDecl → Prop} {d : Definition} (h : Built good d)
    {l : Loader} {source : Source} {entry : String × RuntimeCell} {value : Value}
    (htarget : l.target? source d entry = some value) (hnumber : value.hasNaN = false) :
    value.equals value = true := by
  obtain ⟨leaf, hleaf, htarget⟩ := Option.bind_eq_some_iff.mp htarget
  rcases Leaf.target?_eq_some_iff.mp htarget with ⟨-, rfl⟩ | ⟨-, hread⟩
  · exact Convert.value_equals_self
      (h.sound_any.values leaf (List.mem_of_getElem? hleaf)) hnumber
  · exact Convert.value_equals_self hread hnumber

/-- **The effect of resolving again**, for the cells of a definition built by accepted declarations,
whatever is in them: a pass that comes to its end gives the cells that differ their targets and
reports them, one that ends early has done so with the cells before the first that has none, and a
second pass reports the targets that differ from themselves. -/
theorem Built.reResolve_effect {good : RootDecl → Prop} {d : Definition} (h : Built good d)
    (l : Loader) (source : Source) {f : FrozenConfig} (hf : f.CellsOf d) :
    f.Resolves l source d where
  ordered := hf.ascending
  config := rfl
  completes := by
    intro htargets
    have hpass := Loader.resolveCells_append htargets []
    rw [List.append_nil, Loader.resolveCells] at hpass
    simp [Loader.reResolve, hpass, Except.map]
  repeats := by
    intro htargets
    have hpass := Loader.resolveCells_append htargets []
    have hagain : ∀ entry ∈ f.cells.map (l.refreshed source d),
        (l.target? source d entry).isSome := by
      refine List.forall_mem_map.mpr fun entry hentry => ?_
      rw [Loader.target?_refreshed]
      exact htargets entry hentry
    have hpass' := Loader.resolveCells_append hagain []
    rw [List.append_nil, Loader.resolveCells, List.append_nil] at hpass hpass'
    have hchanges : l.changes source d ∘ l.refreshed source d =
        fun entry => (l.target? source d entry).any Value.hasNaN :=
      funext fun entry => Loader.changes_refreshed fun _ => h.target_equals_self
    have hnames : l.fullName ∘ l.refreshed source d = l.fullName := by
      funext entry
      rw [Function.comp_apply, Loader.refreshed]
      split_ifs <;> rfl
    simp only [Loader.reResolve, hpass, hpass']
    rw [List.filter_map, List.map_map, hchanges, hnames, Except.map, List.append_nil]
  aborts := by
    rintro ⟨failing, hfailing, hnothing⟩
    obtain ⟨entry, hfirst⟩ : ∃ entry,
        f.cells.find? (fun entry => (l.target? source d entry).isNone) = some entry := by
      rw [← Option.isSome_iff_exists, List.find?_isSome]
      exact ⟨failing, hfailing, by rw [hnothing]; rfl⟩
    obtain ⟨hnone, before, after, hcells, hbefore⟩ := List.find?_eq_some_iff_append.mp hfirst
    have htargets : ∀ earlier ∈ before, (l.target? source d earlier).isSome := by
      simpa using hbefore
    obtain ⟨leaf, hleaf⟩ := hf.exists_leaf (List.mem_of_find?_eq_some hfirst)
    have htarget : leaf.target? (source.value? (l.fullName entry)) = none := by
      rw [← Option.isNone_iff_eq_none.mp hnone, Loader.target?, hleaf, Option.bind_some]
    obtain ⟨raw, reason, hraw, hrejects⟩ := Leaf.target?_eq_none_iff.mp htarget
    have hpass := Loader.resolveCells_append_error htargets hleaf hraw hrejects after
    rw [← hcells] at hpass
    rw [Loader.reResolve, hpass]
    exact ⟨before, entry, after, leaf, raw, reason, hcells, htargets, hleaf, hraw, hrejects, rfl,
      rfl⟩

/-- A root `a` with an overridable list of floating-point numbers, an overridable integer and an
overridable floating-point number. -/
def numbersDecl : RootDecl where
  group := ⟨"AConfig", false,
    [⟨"l", .element, none, .list (some .double), true, none⟩,
      ⟨"n", .element, none, .primitive .int, true, none⟩,
      ⟨"x", .element, none, .primitive .double, true, none⟩]⟩
  name := .explicit "a"
  phase := .runTime

/-- A negative zero is left alone by a zero, a list with an item that is no number is reported by
every pass, and an integer that cannot be read leaves the cells behind it alone. -/
theorem reResolve_effect_numbersDecl :
    let d := (empty.registerRoot numbersDecl).1
    let l := Loader.ofNamespace "app"
    let f : FrozenConfig := ⟨d.realize .runtime, [("a.l", ⟨0, .list []⟩), ("a.n", ⟨1, .int 7⟩),
      ("a.x", ⟨2, .double (.zero true)⟩)]⟩
    let source := fun n : String => (Properties.ofPairs
      [("app.a.l", "1,nan"), ("app.a.n", n), ("app.a.x", "0")]).toSource
    Built (fun _ => True) d ∧ f.CellsOf d ∧ (∀ n, f.Resolves l (source n) d) ∧
      (l.reResolve (source "8") d f).2.toOption = some ["app.a.l", "app.a.n"] ∧
      (l.reResolve (source "8") d (l.reResolve (source "8") d f).1).2.toOption =
        some ["app.a.l"] ∧
      (l.reResolve (source "eight") d f).2.toOption = none ∧
      (l.reResolve (source "eight") d f).1.cells.map (fun cell =>
          (cell.1, cell.2.value.asList?.map List.length, cell.2.value.asInt?)) =
        [("a.l", some 2, none), ("a.n", none, some 7), ("a.x", none, none)] := by
  intro d l f source
  have hbuilt : Built (fun _ => True) d :=
    .register .empty trivial (Prod.ext rfl (by decide +kernel))
  have hcells : f.CellsOf d := by
    rw [FrozenConfig.CellsOf]
    decide +kernel
  exact ⟨hbuilt, hcells, fun n => hbuilt.reResolve_effect l (source n) hcells, by decide +kernel,
    by decide +kernel, by decide +kernel, by decide +kernel⟩

end PropertyBinding

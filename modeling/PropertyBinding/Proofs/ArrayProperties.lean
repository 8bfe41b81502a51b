import PropertyBinding.Metadata
import PropertyBinding.Proofs.Flattening
import PropertyBinding.Proofs.ListText
import PropertyBinding.Proofs.Reaching

/-!
# Arrays of strings

An array of strings comes to a leaf for lists of strings as one text, in which its items are joined:
from a document under the name for its path (`Properties.exists_ofDocument`), and from metadata as
the default of a leaf. On either way the list that arrives is the array if and only if the items are
separable (`Built.list_arrives`).
-/

namespace PropertyBinding

open Definition

/-! ### From a document -/

namespace Toml

/-- Whether the value stands at the path in a document, and no value at another path has the name
for this path. -/
structure SoleAt (entries : Entries Toml) (path : List String) (v : Toml) : Prop where
  stands : ValueAt entries path v
  sole : ∀ other w, ValueAt entries other w → propertyName other = propertyName path → other = path

/-- The items of an array of strings. -/
def strings? : Toml → Option (List String)
  | .array items => items.mapM fun
    | .string s => some s
    | _ => none
  | _ => none

theorem eq_of_strings?_eq_some {v : Toml} {items : List String} (h : v.strings? = some items) :
    v = .array (items.map .string) := by
  cases v with
  | array vs =>
    rw [strings?] at h
    have hmap : vs = items.map .string := by
      induction vs generalizing items with
      | nil =>
        obtain rfl := Option.some.inj h
        rfl
      | cons v vs ih =>
        rw [List.mapM_cons] at h
        obtain ⟨item, hitem, h⟩ := Option.bind_eq_some_iff.mp h
        obtain ⟨rest, hrest, h⟩ := Option.bind_eq_some_iff.mp h
        obtain rfl := Option.some.inj h
        cases v with
        | string s =>
          obtain rfl := Option.some.inj hitem
          rw [List.map_cons, ← ih hrest]
        | _ => cases hitem
    rw [hmap]
  | _ => cases h

/-- The text of an array of strings joins them. -/
theorem rawText_strings (items : List String) :
    rawText (.array (items.map .string)) = Text.joinItems items := by
  simp [rawText, Function.comp_def, scalarText]

end Toml

namespace Properties

/-- Of properties that are put one after the other, those under one key stay if they have one
value. -/
theorem lookup_foldl_put {α : Type} {key : String} {value : α} (pairs : Entries α)
    {entries : Entries α} (honly : ∀ pair ∈ pairs, pair.1 = key → pair.2 = value)
    (h : key ∈ Entries.keys pairs ∨ entries.lookup key = some value) :
    (pairs.foldl (fun acc pair => Entries.put pair.1 pair.2 acc) entries).lookup key =
      some value := by
  induction pairs generalizing entries with
  | nil => exact h.resolve_left List.not_mem_nil
  | cons pair pairs ih =>
    obtain ⟨hpair, hpairs⟩ := List.forall_mem_cons.mp honly
    refine ih hpairs ?_
    by_cases hkey : pair.1 = key
    · refine Or.inr ?_
      dsimp only
      rw [hkey, hpair hkey, Entries.lookup_put_self]
    · refine h.imp (fun hmem => ?_) fun hlookup => ?_
      · exact (List.mem_cons.mp hmem).resolve_left fun heq => hkey heq.symm
      · rw [Entries.lookup_put_of_ne (Ne.symm hkey), hlookup]

/-- **The properties of a document** have the text of a value under the name for its path, if this
is the name for no other path. -/
theorem exists_ofDocument {parse : String → Option (Entries Toml)} {text : String}
    {entries : Entries Toml} {path : List String} {v : Toml} (h : parse text = some entries)
    (hordered : Toml.Ordered (.table entries)) (hsole : Toml.SoleAt entries path v) :
    ∃ properties, ofDocumentWith parse text = .ok properties ∧
      properties.toSource.value? (Toml.propertyName path) = some (Toml.rawText v) := by
  refine ⟨ofPairs (Toml.flattenEntries "" entries), by rw [ofDocumentWith, h], ?_⟩
  rw [Toml.flattenEntries_eq_propertyNames]
  refine lookup_foldl_put _ (fun pair hpair hname => ?_) (Or.inl ?_)
  · obtain ⟨x, hx, rfl⟩ := List.mem_map.mp hpair
    have hvalue := (Toml.mem_valuesAt_iff hordered).mp hx
    have hpath := hsole.sole x.1 x.2 hvalue hname
    rw [hpath] at hvalue
    rw [Option.some.inj (hvalue.1.symm.trans hsole.stands.1)]
  · exact List.mem_map_of_mem
      (List.mem_map_of_mem ((Toml.mem_valuesAt_iff hordered).mpr hsole.stands))

end Properties

/-! ### Arriving -/

section Arriving

variable {piece : String → Prop} {d : Definition}

/-- What joined items give a leaf for lists of strings: the list of the items if and only if they
are separable. -/
theorem Leaf.exists_gives_joinItems {leaf : Leaf} (hkind : leaf.kind = .objectList .string)
    (hdefault : Convert.value leaf.kind leaf.default = .ok leaf.defaultValue) {items : List String}
    (hne : items ≠ []) : ∃ value, leaf.Gives (Text.joinItems items) value ∧
      (value = .list (items.map .string) ↔ Text.Separable items) := by
  by_cases hempty : Text.joinItems items = ""
  · -- The text of one empty item is no value, and no default has an empty item.
    obtain rfl := (Text.joinItems_eq_empty_iff.mp hempty).resolve_left hne
    refine ⟨_, Or.inl ⟨hempty, rfl⟩, iff_of_false (fun heq => ?_) (by decide)⟩
    rw [hkind, Convert.value_stringList, heq, Except.ok.injEq, Value.list.injEq] at hdefault
    have hmem : Value.string "" ∈ (Convert.splitList leaf.default).map .string := by
      rw [hdefault]
      exact List.mem_singleton_self _
    obtain ⟨item, hitem, hstring⟩ := List.mem_map.mp hmem
    obtain rfl := Value.string.inj hstring
    exact Convert.ne_empty_of_mem_splitList hitem rfl
  · refine ⟨_, Or.inr ⟨hempty, by rw [hkind, Convert.value_stringList]⟩, ?_⟩
    rw [← Convert.value_joinItems_iff, Convert.value_stringList, Except.ok.injEq]

/-- **Lists of strings arrive as they are** if and only if they are separable: through their text,
from an array of a document that is loaded under the name for its path, and from the default of a
leaf that is derived from an array. -/
theorem Built.list_arrives (h : Built (RootDecl.Each piece List.Nodup) d) (items : List String) :
    (Convert.splitList (Text.joinItems items) = items ↔ Text.Separable items) ∧
      (∀ {c : RealizedConfig} {leaf : Leaf} {keys : List String} {l : Loader}
          {before : List LoadTarget} {parse : String → Option (Entries Toml)} {text : String}
          {entries : Entries Toml} {path : List String} (after : List LoadTarget)
          (report : LoadReport),
        Loaded d c → leaf.kind = .objectList .string → items ≠ [] →
        parse text = some entries → Toml.Ordered (.table entries) →
        Toml.SoleAt entries path (.array (items.map .string)) →
        l.Finds before d c leaf keys (Toml.propertyName path) →
          ∃ properties c', Properties.ofDocumentWith parse text = .ok properties ∧
            l.loadName properties.toSource (before ++ ⟨d, c⟩ :: after) report
                (Toml.propertyName path) =
              .ok (before ++ ⟨d, c'⟩ :: after, { report with applied := report.applied + 1 }) ∧
            (c'.slot? leaf keys = some (.list (items.map .string)) ↔ Text.Separable items)) ∧
      ∃ text, (DefaultExpr.array (items.map .str)).shape = .ok (.list (some .string), text) ∧
        ∀ {id : Nat} {leaf : Leaf}, d.leaf? id = some leaf → leaf.kind = .objectList .string →
          leaf.default = text →
            (leaf.defaultValue = .list (items.map .string) ↔ Text.Separable items) ∧
            ∀ stage, leaf.hasWildcard = false → ((d.realize stage).get? leaf.root).isSome →
              (d.realize stage).slot? leaf [] = some leaf.defaultValue := by
  refine ⟨Convert.splitList_joinItems_iff items, ?_, Text.joinItems items, ?_, ?_⟩
  · intro c leaf keys l before parse text entries path after report hc hkind hne hparse hordered
      hsole hfinds
    obtain ⟨id, hleaf, -⟩ := hfinds.reaches
    have hdefault := h.sound.values leaf (List.mem_of_getElem? hleaf)
    obtain ⟨properties, hproperties, hraw⟩ := Properties.exists_ofDocument hparse hordered hsole
    obtain ⟨value, hgives, hiff⟩ := leaf.exists_gives_joinItems hkind hdefault hne
    rw [← Toml.rawText_strings, ← Option.getD_some (a := Toml.rawText _) (b := ""), ← hraw]
      at hgives
    obtain ⟨c', hload, -, hslot⟩ := hc.loadName_of_finds h hfinds hgives report
    refine ⟨properties, c', hproperties, hload, ?_⟩
    rw [hslot, Option.some.injEq]
    exact hiff
  · have htexts : (items.map DefaultExpr.str).mapM DefaultExpr.scalarText? = some items := by
      rw [List.mapM_map]
      exact List.mapM_pure.trans (congrArg some (List.map_id' items))
    rw [DefaultExpr.shape, htexts]
  · intro id leaf hleaf hkind htext
    refine ⟨?_, fun stage hwildcard => h.realize_slot? hleaf hwildcard⟩
    have hdefault := h.sound.values leaf (List.mem_of_getElem? hleaf)
    rw [hkind, htext] at hdefault
    rw [← Convert.value_joinItems_iff, hdefault, Except.ok.injEq]

end Arriving

/-- A root `a` with a list of strings, whose default is an array from metadata. -/
def listDecl : RootDecl where
  group := ⟨"AConfig", false,
    [⟨"s", .element, some (Text.joinItems ["x", "y\\"]), .list (some .string), false, none⟩]⟩
  name := .explicit "a"
  phase := .runTime

/-- An item with a comma, and a default whose last item ends in a backslash. -/
theorem list_arrives_listDecl :
    let d := (empty.registerRoot listDecl).1
    let l := Loader.ofNamespace "app"
    let text := "[app.a]\ns = [\"a,b\", \"c\"]\n"
    (∃ properties c, Properties.ofDocument text = .ok properties ∧
      l.loadName properties.toSource [⟨d, d.realize .build⟩] {} "app.a.s" =
        .ok ([⟨d, c⟩], { applied := 1 }) ∧
      ∃ leaf, d.leaf? 0 = some leaf ∧ c.slot? leaf [] = some (.list [.string "a,b", .string "c"])) ∧
    ∃ leaf, d.leaf? 0 = some leaf ∧
      (d.realize .build).slot? leaf [] = some (.list [.string "x", .string "y\\"]) := by
  intro d l text
  have hbuilt : Built (RootDecl.Each (fun _ => True) List.Nodup) d :=
    .register .empty ⟨fun _ _ _ _ => trivial, by
      simp [listDecl, GroupDecl.Each, FieldsEach, FieldDecl.Each, Shape.Each]⟩
      (Prod.ext rfl (by decide +kernel))
  obtain ⟨leaf, hleaf⟩ : ∃ leaf, d.leaf? 0 = some leaf :=
    Option.isSome_iff_exists.mp (by decide +kernel)
  have hfacts : (d.leaf? 0).all (fun leaf => decide (leaf.kind = .objectList .string ∧
      leaf.default = Text.joinItems ["x", "y\\"] ∧ leaf.hasWildcard = false ∧
      ((d.realize .build).get? leaf.root).isSome = true)) = true := by decide +kernel
  rw [hleaf, Option.all_some, decide_eq_true_eq] at hfacts
  obtain ⟨hkind, hdefault, hwildcard, hrealized⟩ := hfacts
  constructor
  · obtain ⟨entries, hparse⟩ : ∃ entries, Toml.parse? text = some entries :=
      Option.isSome_iff_exists.mp (by decide +kernel)
    have hvalues : (Toml.parse? text).map (fun entries => (Toml.entryValues entries).map fun x =>
        (x.1, x.2.strings?)) = some [(["app", "a", "s"], some ["a,b", "c"])] := by decide +kernel
    rw [hparse, Option.map_some, Option.some.injEq] at hvalues
    obtain ⟨⟨path, v⟩, hentry, hx⟩ := List.map_eq_singleton_iff.mp hvalues
    obtain ⟨rfl, hstrings⟩ := Prod.mk.inj hx
    have hordered := Toml.parse?_ordered hparse
    have hmem : ∀ path v, (path, v) ∈ Toml.valuesAt (.table entries) ↔
        Toml.ValueAt entries path v := fun _ _ => Toml.mem_valuesAt_iff hordered
    simp only [Toml.valuesAt, hentry, List.mem_singleton, Prod.mk.injEq] at hmem
    have hsole : Toml.SoleAt entries ["app", "a", "s"] (.array (["a,b", "c"].map .string)) := by
      rw [← Toml.eq_of_strings?_eq_some hstrings]
      exact ⟨(hmem _ _).mp ⟨rfl, rfl⟩, fun other w hw _ => ((hmem other w).mpr hw).1⟩
    have hfinds : l.Finds [] d (d.realize .build) leaf [] (Toml.propertyName ["app", "a", "s"]) :=
      ⟨⟨0, hleaf, by decide +kernel⟩, by simp, hrealized⟩
    obtain ⟨properties, c, hproperties, hload, hiff⟩ :=
      (Built.list_arrives hbuilt ["a,b", "c"]).2.1 [] {} (.walked .build) hkind (by simp) hparse
        hordered hsole hfinds
    exact ⟨properties, c, hproperties, hload, leaf, hleaf, hiff.mpr (by decide)⟩
  · obtain ⟨text, hshape, hdefaults⟩ := (Built.list_arrives hbuilt ["x", "y\\"]).2.2
    obtain ⟨hiff, hslot⟩ := hdefaults hleaf hkind
      (hdefault.trans (Prod.mk.inj (Except.ok.inj hshape)).2)
    exact ⟨leaf, hleaf, (hslot .build hwildcard hrealized).trans
      (congrArg some (hiff.mpr (by decide)))⟩

end PropertyBinding

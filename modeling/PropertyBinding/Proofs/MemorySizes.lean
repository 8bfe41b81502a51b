import PropertyBinding.Proofs.ListText
import PropertyBinding.Proofs.Mirroring
import PropertyBinding.Proofs.Reaching
import PropertyBinding.Proofs.Stages

/-!
# Extracted byte counts

A byte count has 64 bits and no sign. In a table it is an integer of 64 bits with a sign, and the
largest of them stands for all counts that are larger (`tableCount`). So a byte count that is loaded
for a leaf and extracted to unsigned integers of 64 bits comes out as it is if it is below `2 ^ 63`,
and else as `2 ^ 63 - 1`; in an object leaf, an optional, each item of a list, and a map entry
alike (`Loaded.extract_memorySize`).

The text of a byte count has neither commas nor backslashes, so texts with commas between them are
read item by item (`Convert.value_memorySizes`).
-/

namespace PropertyBinding

open Definition

/-! ### The text of byte counts -/

/-- What is no blank stays when blanks are cut off. -/
theorem Text.mem_trim {cs : List Char} {c : Char} (h : c ∈ cs) (hblank : Text.isBlank c = false) :
    c ∈ Text.trim cs := by
  have hdrop : ∀ {cs : List Char}, c ∈ cs → c ∈ cs.dropWhile Text.isBlank := by
    intro cs h
    rw [← List.takeWhile_append_dropWhile (p := Text.isBlank) (l := cs)] at h
    refine (List.mem_append.mp h).resolve_left fun htake => ?_
    rw [List.mem_takeWhile_imp htake] at hblank
    cases hblank
  rw [Text.trim, List.mem_reverse]
  exact hdrop (List.mem_reverse.mpr (hdrop h))

/-- A unit has one character at most, which is neither a comma nor a backslash. -/
theorem ByteCount.not_mem_of_unitExponent? {cs : List Char} {exponent : Nat}
    (h : ByteCount.unitExponent? cs = some exponent) : ',' ∉ cs ∧ '\\' ∉ cs := by
  match cs with
  | [] => simp
  | [c] =>
    have hcomma : ByteCount.unitExponent? [','] = none := by decide
    have hbackslash : ByteCount.unitExponent? ['\\'] = none := by decide
    constructor
    · intro hmem
      rw [← List.mem_singleton.mp hmem, hcomma] at h
      cases h
    · intro hmem
      rw [← List.mem_singleton.mp hmem, hbackslash] at h
      cases h
  | _ :: _ :: _ => cases h

namespace Convert

variable {raw : String} {n : UInt64}

/-- A text that is read as a byte count has digits, and neither commas nor backslashes. -/
theorem chars_of_memorySize (h : memorySize raw = .ok n) :
    raw ≠ "" ∧ ',' ∉ raw.toList ∧ '\\' ∉ raw.toList := by
  rw [memorySize] at h
  cases hread : ByteCount.read (Text.trim raw.toList) with
  | error fault =>
    rw [hread] at h
    cases fault <;> cases h
  | ok m =>
    rw [ByteCount.read] at hread
    dsimp only at hread
    split at hread
    · cases hread
    rename_i hdigits
    split at hread
    · cases hread
    rename_i exponent hunit
    obtain ⟨hcomma, hbackslash⟩ := ByteCount.not_mem_of_unitExponent? hunit
    have hchar : ∀ c, c ∉ (Text.trim raw.toList).dropWhile Char.isDigit → c.isDigit = false →
        Text.isBlank c = false → c ∉ raw.toList := by
      intro c hdrop hdigit hblank hmem
      have hin := Text.mem_trim hmem hblank
      rw [← List.takeWhile_append_dropWhile (p := Char.isDigit) (l := Text.trim raw.toList)] at hin
      rcases List.mem_append.mp hin with htake | hin
      · rw [List.mem_takeWhile_imp htake] at hdigit
        cases hdigit
      · exact hdrop hin
    refine ⟨?_, hchar ',' hcomma (by decide) (by decide),
      hchar '\\' hbackslash (by decide) (by decide)⟩
    rintro rfl
    exact hdigits rfl

/-- Texts of byte counts with commas between them are read as the list of the counts. -/
theorem value_memorySizes {raws : List String} {ns : List UInt64}
    (h : List.Forall₂ (fun raw n => memorySize raw = .ok n) raws ns) :
    value (.objectList .memorySize) (String.intercalate "," raws) =
      .ok (.list (ns.map .memorySize)) := by
  have hread : raws.mapM (scalar .memorySize) = .ok (ns.map .memorySize) := by
    induction h with
    | nil => rfl
    | cons hraw _ ih =>
      rw [List.mapM_cons, scalar, hraw, ih]
      rfl
  have hchars : ∀ raw ∈ raws, raw ≠ "" ∧ ',' ∉ raw.toList ∧ '\\' ∉ raw.toList := by
    intro raw hraw
    obtain ⟨i, hi, rfl⟩ := List.getElem_of_mem hraw
    exact chars_of_memorySize (h.get hi (h.length_eq ▸ hi))
  have hseparable : Text.Separable raws := by
    refine ⟨fun raw hraw => (hchars raw hraw).1, fun raw hraw hends => ?_⟩
    exact (hchars raw ((List.dropLast_sublist raws).subset hraw)).2.2 (List.mem_of_getLast? hends)
  rw [value, ← Text.joinItems_eq_intercalate fun raw hraw => (hchars raw hraw).2.1,
    (splitList_joinItems_iff raws).mpr hseparable, hread]
  rfl

end Convert

/-! ### Counts in tables -/

/-- The integer that stands for a byte count in a table. -/
def tableCount (n : UInt64) : Int := (min n.toNat (2 ^ 63 - 1) : Nat)

/-- Just the counts below `2 ^ 63` stand for themselves. -/
theorem tableCount_eq_iff (n : UInt64) : tableCount n = n.toNat ↔ n.toNat < 2 ^ 63 := by
  rw [tableCount]
  omega

/-- A byte count is handed on as its integer, which unsigned integers of 64 bits take. -/
theorem readsForm_memorySize (n : UInt64) :
    (Target.integer .uint64).ReadsForm (.memorySize n) (.integer (tableCount n)) := by
  have hmax : Int64.maxValue.toInt = 2 ^ 63 - 1 := by decide
  have hmin : Int64.minValue.toInt = -2 ^ 63 := by decide
  have hcount : (Int64.ofInt (min n.toNat Int64.maxValue.toInt)).toInt = tableCount n := by
    have hnonneg : (0 : Int) ≤ n.toNat := Int.natCast_nonneg _
    rw [tableCount, Int64.toInt_ofInt_of_le] <;> omega
  have hform : (Value.memorySize n).toToml? =
      some (.integer (Int64.ofInt (min n.toNat Int64.maxValue.toInt))) := by rw [Value.toToml?]
  have hrange : IntegerType.uint64.contains (tableCount n) = true := by
    refine IntegerType.contains_iff.mpr ?_
    change 0 ≤ tableCount n ∧ tableCount n < 18446744073709551616
    rw [tableCount]
    omega
  have hreads := Target.readsForm_integer hform (hcount ▸ hrange)
  rwa [hcount] at hreads

/-- The byte counts in a map, as integers. -/
def sizeEntries (entries : Entries Value) : Entries Extracted :=
  entries.filterMap fun entry =>
    entry.2.asMemorySize?.map fun n => (entry.1, .integer (tableCount n))

/-- The byte count under a key. -/
theorem lookup_sizeEntries {entries : Entries Value} {key : String} {n : UInt64}
    (h : entries.lookup key = some (.memorySize n)) :
    (sizeEntries entries).lookup key = some (.integer (tableCount n)) := by
  induction entries with
  | nil => cases h
  | cons entry entries ih =>
    obtain ⟨k, v⟩ := entry
    rw [List.lookup_cons] at h
    by_cases hk : key = k
    · subst hk
      rw [beq_self_eq_true] at h
      obtain rfl := Option.some.inj h
      exact List.lookup_cons_self
    · have hne : (key == k) = false := by simpa using hk
      rw [hne] at h
      rw [sizeEntries, List.filterMap_cons]
      cases v.asMemorySize? with
      | none => exact ih h
      | some m =>
        dsimp only [Option.map_some]
        rw [List.lookup_cons, hne]
        exact ih h

/-- Maps of unsigned integers of 64 bits take a map of byte counts without the entries that are
unset. -/
theorem fieldReads_sizeEntries {entries : Entries Value} (hascending : Entries.Ascending entries)
    (h : ∀ entry ∈ entries, entry.2 = .unset ∨ ∃ n, entry.2 = .memorySize n) :
    (Target.map (.integer .uint64)).FieldReads (.entries (sizeEntries entries))
      (Value.map entries).toToml? := by
  rw [hascending.toToml?_map, Target.FieldReads, Target.read, Target.mapM_read_entriesToToml
    (fun entry => entry.2.asMemorySize?.map fun n => (entry.1, .integer (tableCount n))) ?_]
  · rfl
  rintro ⟨key, v⟩ hentry
  obtain rfl | ⟨n, rfl⟩ := h (key, v) hentry
  · exact Or.inl ⟨by rw [Value.toToml?], rfl⟩
  · exact Or.inr ⟨_, readsForm_memorySize n, rfl⟩

/-! ### Fields of structures -/

/-- The derived structure in which a type stands below nested fields, one in each structure. -/
def Target.within : List String → Target → Target
  | [], t => t
  | ident :: idents, t => .struct ident [(ident, within idents t)] false true

/-- The value of such a structure. -/
def Extracted.within : List String → Extracted → Extracted
  | [], x => x
  | ident :: idents, x => .entries [(ident, within idents x)]

/-- A structure of nested fields reads what attributes lead to. -/
theorem Target.fieldReads_within {idents : List String} {v w : Value} {t : Target} {x : Extracted}
    (hat : v.at? (idents.map .field) = some w) (hdistinct : v.Everywhere Value.Distinct)
    (h : t.FieldReads x w.toToml?) :
    (Target.within idents t).FieldReads (Extracted.within idents x) v.toToml? := by
  induction idents generalizing v with
  | nil =>
    obtain rfl := Option.some.inj hat
    exact h
  | cons ident idents ih =>
    obtain ⟨inner, hinner, hbelow⟩ := Option.bind_eq_some_iff.mp hat
    cases v with
    | group g =>
      rw [Value.toToml?]
      refine Target.read_struct (fun _ => Extracted.within idents x) g.keys_toTable.1
        (fun hdeny => by cases hdeny) ?_
      intro field hfield
      obtain rfl := List.mem_singleton.mp hfield
      rw [Group.lookup_toTable (hdistinct [] _ rfl g rfl),
        show g.get? ident = some inner from hinner, Option.bind_some]
      exact ih hbelow (hdistinct.slot hinner)
    | _ => cases hinner

/-! ### Leaves for byte counts -/

/-- How a leaf takes byte counts: the map keys of a slot, a text and the counts in it, the value that
the leaf reads it as, the type that a field is extracted to, and what the field then holds if each
count is extracted as a given integer. The leaf lies below attributes, or it is the value of a map
there. -/
inductive Leaf.Measures (leaf : Leaf) (idents : List String) : List String → String → List UInt64 →
    Value → Target → ((UInt64 → Int) → Extracted → Prop) → Prop where
  | object {raw : String} {n : UInt64} (path : leaf.path = idents.map .field)
      (kind : leaf.kind = .object .memorySize) (reads : Convert.memorySize raw = .ok n) :
      leaf.Measures idents [] raw [n] (.memorySize n) (.integer .uint64)
        fun count x => x = .integer (count n)
  | optional {raw : String} {n : UInt64} (path : leaf.path = idents.map .field)
      (kind : leaf.kind = .optionalObject .memorySize) (reads : Convert.memorySize raw = .ok n) :
      leaf.Measures idents [] raw [n] (.optional (some (.memorySize n)))
        (.option (.integer .uint64)) fun count x => x = .option (some (.integer (count n)))
  | list {raws : List String} {ns : List UInt64} (path : leaf.path = idents.map .field)
      (kind : leaf.kind = .objectList .memorySize) (nonempty : raws ≠ [])
      (reads : List.Forall₂ (fun raw n => Convert.memorySize raw = .ok n) raws ns) :
      leaf.Measures idents [] (String.intercalate "," raws) ns (.list (ns.map .memorySize))
        (.seq (.integer .uint64)) fun count x => x = .items (ns.map fun n => .integer (count n))
  | entry {key raw : String} {n : UInt64} {segment template : Nat}
      (path : leaf.path = idents.map .field ++ [.key segment template])
      (kind : leaf.kind = .object .memorySize) (reads : Convert.memorySize raw = .ok n) :
      leaf.Measures idents [key] raw [n] (.memorySize n) (.map (.integer .uint64)) fun count x =>
        ∃ values, x = .entries values ∧ values.lookup key = some (.integer (count n))

section Measures

variable {leaf : Leaf} {idents keys : List String} {raw : String} {counts : List UInt64}
  {value : Value} {t : Target} {expected : (UInt64 → Int) → Extracted → Prop}

/-- A field with the integers that stand for the counts in a table holds the counts themselves
exactly if all of them are below `2 ^ 63`. -/
theorem Leaf.Measures.expected_toNat_iff
    (h : leaf.Measures idents keys raw counts value t expected) {x : Extracted}
    (hx : expected tableCount x) :
    expected (fun n => n.toNat) x ↔ ∀ n ∈ counts, n.toNat < 2 ^ 63 := by
  cases h with
  | object _ _ _ =>
    subst hx
    dsimp only
    rw [Extracted.integer.injEq, tableCount_eq_iff, List.forall_mem_singleton]
  | optional _ _ _ =>
    subst hx
    dsimp only
    rw [Extracted.option.injEq, Option.some.injEq, Extracted.integer.injEq, tableCount_eq_iff,
      List.forall_mem_singleton]
  | list _ _ _ _ =>
    subst hx
    dsimp only
    rw [Extracted.items.injEq, List.map_inj_left]
    exact forall₂_congr fun n _ => by rw [Extracted.integer.injEq, tableCount_eq_iff]
  | entry _ _ _ =>
    obtain ⟨values, rfl, hlookup⟩ := hx
    simp only [Extracted.entries.injEq, exists_eq_left', hlookup, Option.some.injEq,
      Extracted.integer.injEq, tableCount_eq_iff, List.forall_mem_singleton]

/-- The leaf reads the text. -/
theorem Leaf.Measures.gives (h : leaf.Measures idents keys raw counts value t expected) :
    leaf.Gives raw value := by
  cases h with
  | object _ kind reads | entry _ kind reads =>
    have hne := (Convert.chars_of_memorySize reads).1
    refine Or.inr ⟨hne, ?_⟩
    rw [kind, Convert.value, if_neg (by decide), if_neg hne, Convert.scalar, reads]
    rfl
  | optional _ kind reads =>
    have hne := (Convert.chars_of_memorySize reads).1
    refine Or.inr ⟨hne, ?_⟩
    rw [kind, Convert.value, if_neg hne, Convert.scalar, reads]
    rfl
  | list _ kind nonempty reads =>
    have hread := Convert.value_memorySizes reads
    refine Or.inr ⟨fun hempty => ?_, kind ▸ hread⟩
    -- The empty text is read as no items.
    rw [hempty] at hread
    have hnil : counts = [] := by
      have hlist : Value.list [] = .list (counts.map .memorySize) := Except.ok.inj hread
      simpa using (Value.list.inj hlist).symm
    subst hnil
    exact nonempty (List.forall₂_nil_right_iff.mp reads)

/-- A leaf for byte counts in objects reads no text as anything else. -/
theorem Leaf.Gives.unset_or_memorySize (hkind : leaf.kind = .object .memorySize)
    (hdefault : Convert.value leaf.kind leaf.default = .ok leaf.defaultValue)
    (h : leaf.Gives raw value) : value = .unset ∨ ∃ n, value = .memorySize n := by
  obtain ⟨text, htext⟩ : ∃ text, Convert.value leaf.kind text = .ok value := by
    rcases h with ⟨-, rfl⟩ | ⟨-, hread⟩
    · exact ⟨_, hdefault⟩
    · exact ⟨_, hread⟩
  rw [hkind, Convert.value, if_neg (by decide)] at htext
  split_ifs at htext
  · exact Or.inl (Except.ok.inj htext).symm
  · rw [Convert.scalar] at htext
    obtain ⟨n, -, rfl⟩ := ok_of_map_eq_ok htext
    exact Or.inr ⟨n, rfl⟩

end Measures

section Extract

variable {piece : String → Prop} {d : Definition} {c : RealizedConfig} {leaf : Leaf}
  {idents keys : List String} {raw : String} {counts : List UInt64} {value : Value} {t : Target}
  {expected : (UInt64 → Int) → Extracted → Prop} {root : Root}

/-- A loaded map with a leaf for byte counts as its value is in order, and holds nothing else. -/
theorem Loaded.sizes_of_map (hc : Loaded d c) (h : Built (RootDecl.Each piece List.Nodup) d)
    {id : Nat} (hleaf : d.leaf? id = some leaf) (hroot : root ∈ d.roots)
    (hname : leaf.root = root.containingName) {segment template : Nat}
    (hpath : leaf.path = idents.map .field ++ [.key segment template])
    (hkind : leaf.kind = .object .memorySize) {g : Group} {entries : Entries Value}
    (hget : c.get? root.containingName = some g)
    (hat : (Value.group g).at? (idents.map .field) = some (.map entries)) :
    Entries.Ascending entries ∧
      ∀ entry ∈ entries, entry.2 = .unset ∨ ∃ n, entry.2 = .memorySize n := by
  obtain ⟨-, -, -, hascends, -⟩ := hc.ascends_outlined h _ g hget
  obtain ⟨other, hother, hothername, -, hgiven⟩ := hc.given h _ g hget
  obtain rfl := List.inj_on_of_nodup_map h.sound.names hother hroot hothername
  have hascending := hascends _ _ hat
  refine ⟨hascending, ?_⟩
  rintro ⟨key, v⟩ hentry
  have hfill : fillPath leaf.path [key] = some (idents.map .field ++ [.entry key]) := by
    rw [hpath, fillPath_fields_append]
    rfl
  have hv : (Value.group g).at? (idents.map .field ++ [.entry key]) = some v := by
    have hlookup : entries.lookup key = some v :=
      Entries.lookup_eq_of_mem hascending.nodup hentry
    rw [Value.at?_append, hat, Option.bind_some, Value.at?_cons, Value.slot?, hlookup]
    rfl
  obtain ⟨raw, hgives⟩ := hgiven id leaf _ v hleaf (h.at?_eq hroot hleaf hname hfill) hv
  exact hgives.unset_or_memorySize hkind (h.sound.values leaf (List.mem_of_getElem? hleaf))

/-- The group in which a slot is found is the instance of its root's type, in which all groups have
distinct attributes. -/
theorem Loaded.exists_instance {good : RootDecl → Prop} (hc : Loaded d c) (h : Built good d)
    (hroot : root ∈ d.roots) (hname : leaf.root = root.containingName)
    (hslot : c.slot? leaf keys = some value) :
    ∃ g address, c.get? root.containingName = some g ∧ c.instanceOf root.typeName = .ok g ∧
      fillPath leaf.path keys = some address ∧ (Value.group g).at? address = some value ∧
      (Value.group g).Everywhere Value.Distinct := by
  obtain ⟨g, hget, hbelow⟩ := Option.bind_eq_some_iff.mp hslot
  obtain ⟨address, hfill, hat⟩ := Option.bind_eq_some_iff.mp hbelow
  rw [hname] at hget
  obtain ⟨-, -, -, hdistinct⟩ :=
    hc.everywhere h (Value.keptByFilling_distinct h.sound_any.scalar) _ g hget
  exact ⟨g, address, hget, (hc.knowsTypes h.sound_any h.named).instanceOf_iff.mpr
    ⟨root, hroot, rfl, hget⟩, hfill, hat, hdistinct⟩

/-- What a loaded slot with a byte count is extracted as. -/
theorem Loaded.extract_of_slot? (hc : Loaded d c) (h : Built (RootDecl.Each piece List.Nodup) d)
    {id : Nat} (hleaf : d.leaf? id = some leaf) (hroot : root ∈ d.roots)
    (hname : leaf.root = root.containingName)
    (hmeasures : leaf.Measures idents keys raw counts value t expected)
    (hslot : c.slot? leaf keys = some value) :
    ∃ x, expected tableCount x ∧ c.extract root.typeName (Target.within idents t) =
      .ok (Extracted.within idents x) := by
  obtain ⟨g, address, hget, hinstance, hfill, hat, hdistinct⟩ :=
    hc.exists_instance h hroot hname hslot
  have hattributes : leaf.path = idents.map .field →
      (Value.group g).at? (idents.map .field) = some value := by
    intro hpath
    cases keys with
    | nil =>
      rw [hpath, fillPath_fields] at hfill
      rwa [← Option.some.inj hfill] at hat
    | cons key keys =>
      have hnone := fillPath_fields_append idents [] (key :: keys)
      rw [List.append_nil, ← hpath, hfill] at hnone
      cases hnone
  have hextract : ∀ {w : Value} {x : Extracted},
      (Value.group g).at? (idents.map .field) = some w → t.FieldReads x w.toToml? →
        c.extract root.typeName (Target.within idents t) = .ok (Extracted.within idents x) :=
    fun hat hreads => RealizedConfig.extract_eq_ok hinstance
      (Target.fieldReads_within hat hdistinct hreads)
  cases hmeasures with
  | object path _ _ =>
    exact ⟨_, rfl, hextract (hattributes path) (readsForm_memorySize _).fieldReads⟩
  | optional path _ _ =>
    exact ⟨_, rfl, hextract (hattributes path) (readsForm_memorySize _).optional.fieldReads⟩
  | list path _ _ _ =>
    refine ⟨_, rfl, hextract (hattributes path) (Target.ReadsForm.list ?_).fieldReads⟩
    rw [List.forall₂_map_left_iff, List.forall₂_map_right_iff]
    exact List.forall₂_same.mpr fun n _ => readsForm_memorySize n
  | @entry key _ n segment template path kind _ =>
    rw [path, fillPath_fields_append] at hfill
    obtain rfl := Option.some.inj hfill
    rw [Value.at?_append] at hat
    obtain ⟨w, hw, hentry⟩ := Option.bind_eq_some_iff.mp hat
    obtain ⟨entries, rfl, hlookup⟩ : ∃ entries, w = .map entries ∧
        entries.lookup key = some (.memorySize n) := by
      obtain ⟨inner, hinner, heq⟩ := Option.bind_eq_some_iff.mp hentry
      obtain rfl := Option.some.inj heq
      cases w with
      | map entries => exact ⟨entries, rfl, hinner⟩
      | _ => cases hinner
    obtain ⟨hascending, hsizes⟩ := hc.sizes_of_map h hleaf hroot hname path kind hget hw
    exact ⟨_, ⟨_, rfl, lookup_sizeEntries hlookup⟩,
      hextract hw (fieldReads_sizeEntries hascending hsizes)⟩

/-- **Byte counts survive extraction below `2 ^ 63`.** A text of byte counts that is loaded for a
leaf of any kind is read, and extracting the root then gives the integers that stand for the counts
in a table. These are the counts themselves exactly if all of them are below `2 ^ 63`. -/
theorem Loaded.extract_memorySize (hc : Loaded d c)
    (h : Built (RootDecl.Each piece List.Nodup) d) {l : Loader} {before : List LoadTarget}
    {name : String} (hfinds : l.Finds before d c leaf keys name) {source : Source}
    (hraw : source.value? name = some raw) (hroot : root ∈ d.roots)
    (hname : leaf.root = root.containingName)
    (hmeasures : leaf.Measures idents keys raw counts value t expected) (after : List LoadTarget)
    (report : LoadReport) :
    ∃ c', l.loadName source (before ++ ⟨d, c⟩ :: after) report name =
        .ok (before ++ ⟨d, c'⟩ :: after, { report with applied := report.applied + 1 }) ∧
      ∃ x, expected tableCount x ∧
        (expected (fun n => n.toNat) x ↔ ∀ n ∈ counts, n.toNat < 2 ^ 63) ∧
        c'.extract root.typeName (Target.within idents t) = .ok (Extracted.within idents x) := by
  obtain ⟨id, hleaf, -⟩ := hfinds.reaches
  obtain ⟨c', hload, hc', hslot⟩ :=
    hc.loadName_of_finds h hfinds (by rw [hraw]; exact hmeasures.gives) report
  obtain ⟨x, hx, hextract⟩ := hc'.extract_of_slot? h hleaf hroot hname hmeasures hslot
  exact ⟨c', hload, x, hx, hmeasures.expected_toNat_iff hx, hextract⟩

end Extract

/-- A root `a` with a byte count, a list of byte counts and a map of byte counts. -/
def sizesDecl : RootDecl where
  group := ⟨"AConfig", false,
    [⟨"s", .element, none, .object .memorySize, false, none⟩,
      ⟨"l", .element, none, .list (some .memorySize), false, none⟩,
      ⟨"m", .element, none, .map (some .string) (some (.object .memorySize)), false, none⟩]⟩
  name := .explicit "a"
  phase := .runTime

theorem built_sizesDecl :
    Built (RootDecl.Each (fun _ => True) List.Nodup) (empty.registerRoot sizesDecl).1 :=
  .register .empty ⟨fun _ _ _ _ => trivial, by
    simp [sizesDecl, GroupDecl.Each, FieldsEach, FieldDecl.Each, Shape.Each]⟩
    (Prod.ext rfl (by decide +kernel))

/-- A list of two byte counts, of which the second is too large for a table, and a map entry. -/
theorem extract_memorySize_sizesDecl :
    let d := (empty.registerRoot sizesDecl).1
    let l := Loader.ofNamespace "app"
    let source := (Properties.ofPairs [("app.a.l", "1K, 9E"), ("app.a.m.k", "3G")]).toSource
    (∃ c, l.loadName source [⟨d, d.realize .build⟩] {} "app.a.l" =
        .ok ([⟨d, c⟩], { applied := 1 }) ∧
      c.extract "AConfig" (.struct "l" [("l", .seq (.integer .uint64))] false true) =
        .ok (.entries [("l", .items [.integer 1024, .integer 9223372036854775807])])) ∧
    ∃ c values, l.loadName source [⟨d, d.realize .build⟩] {} "app.a.m.k" =
        .ok ([⟨d, c⟩], { applied := 1 }) ∧
      c.extract "AConfig" (.struct "m" [("m", .map (.integer .uint64))] false true) =
        .ok (.entries [("m", .entries values)]) ∧
      values.lookup "k" = some (.integer 3221225472) := by
  intro d l source
  obtain ⟨root, hroot, htype, hcontaining⟩ : ∃ root ∈ d.roots, root.typeName = "AConfig" ∧
      root.containingName = "a" := by
    have hroots : d.roots.any (fun root => root.typeName = "AConfig" ∧
        root.containingName = "a") = true := by decide +kernel
    obtain ⟨root, hroot, heq⟩ := List.any_eq_true.mp hroots
    exact ⟨root, hroot, of_decide_eq_true heq⟩
  have hrealized : ((d.realize .build).get? "a").isSome := by decide +kernel
  constructor
  · obtain ⟨leaf, hleaf⟩ : ∃ leaf, d.leaf? 1 = some leaf :=
      Option.isSome_iff_exists.mp (by decide +kernel)
    have hfacts : (d.leaf? 1).all (fun leaf => decide (leaf.kind = .objectList .memorySize ∧
        leaf.path = [.field "l"] ∧ leaf.root = "a")) = true := by decide +kernel
    rw [hleaf, Option.all_some, decide_eq_true_eq] at hfacts
    obtain ⟨hkind, hpath, hname⟩ := hfacts
    have hfinds : l.Finds [] d (d.realize .build) leaf [] "app.a.l" :=
      ⟨⟨1, hleaf, by decide +kernel⟩, by simp, hname ▸ hrealized⟩
    have hmeasures := @Leaf.Measures.list leaf ["l"] ["1K", " 9E"] [1024, 10376293541461622784]
      hpath hkind (by simp) (.cons (by decide +kernel) (.cons (by decide +kernel) .nil))
    have hraw : source.value? "app.a.l" = some "1K, 9E" := by decide +kernel
    obtain ⟨c, hload, x, rfl, -, hextract⟩ := Loaded.extract_memorySize (.walked .build)
      built_sizesDecl hfinds hraw hroot (hname.trans hcontaining.symm) hmeasures [] {}
    rw [htype] at hextract
    exact ⟨c, hload, hextract⟩
  · obtain ⟨leaf, hleaf⟩ : ∃ leaf, d.leaf? 2 = some leaf :=
      Option.isSome_iff_exists.mp (by decide +kernel)
    have hfacts : (d.leaf? 2).all (fun leaf => decide (leaf.kind = .object .memorySize ∧
        leaf.path = [.field "m", .key 2 0] ∧ leaf.root = "a")) = true := by decide +kernel
    rw [hleaf, Option.all_some, decide_eq_true_eq] at hfacts
    obtain ⟨hkind, hpath, hname⟩ := hfacts
    have hfinds : l.Finds [] d (d.realize .build) leaf ["k"] "app.a.m.k" :=
      ⟨⟨2, hleaf, by decide +kernel⟩, by simp, hname ▸ hrealized⟩
    have hmeasures := @Leaf.Measures.entry leaf ["m"] "k" "3G" 3221225472 2 0 hpath hkind
      (by decide +kernel)
    have hraw : source.value? "app.a.m.k" = some "3G" := by decide +kernel
    obtain ⟨c, hload, x, ⟨values, rfl, hvalue⟩, -, hextract⟩ := Loaded.extract_memorySize
      (.walked .build) built_sizesDecl hfinds hraw hroot (hname.trans hcontaining.symm) hmeasures
      [] {}
    rw [htype] at hextract
    exact ⟨c, values, hload, hextract, hvalue⟩

/-- The integer in a structure with one field. -/
def Extracted.onlyInteger? : Extracted → Option Int
  | .entries [(_, .integer n)] => some n
  | _ => none

/-- **The least byte count that does not survive** is extracted as a smaller number. -/
theorem extract_sizesDecl_ne :
    let d := (empty.registerRoot sizesDecl).1
    let source := (Properties.ofPairs [("app.a.s", "8E")]).toSource
    let target := Target.struct "s" [("s", .integer .uint64)] false true
    ∃ c n, (Loader.ofNamespace "app").load source [⟨d, d.realize .build⟩] =
        ([⟨d, c⟩], .ok { applied := 1 }) ∧
      Convert.memorySize "8E" = .ok n ∧ n.toNat = 9223372036854775808 ∧
      (c.extract "AConfig" target).toOption.bind Extracted.onlyInteger? =
        some 9223372036854775807 ∧
      c.extract "AConfig" target ≠ .ok (.entries [("s", .integer n.toNat)]) := by
  intro d source target
  have hreport : ((Loader.ofNamespace "app").load source [⟨d, d.realize .build⟩]).2.toOption =
      some { applied := 1 } := by decide +kernel
  have hextract : ((Loader.ofNamespace "app").load source [⟨d, d.realize .build⟩]).1.map (fun t =>
      (t.config.extract "AConfig" target).toOption.bind Extracted.onlyInteger?) =
        [some 9223372036854775807] := by decide +kernel
  obtain ⟨c, hload, -⟩ := Loader.exists_load_of_toOption (.walked .build) hreport
  rw [hload] at hextract
  have hvalue : (c.extract "AConfig" target).toOption.bind Extracted.onlyInteger? =
      some 9223372036854775807 := (List.cons.inj hextract).1
  refine ⟨c, 9223372036854775808, hload, by decide +kernel, by decide +kernel, hvalue,
    fun heq => ?_⟩
  rw [heq] at hvalue
  exact absurd hvalue (by decide)

end PropertyBinding

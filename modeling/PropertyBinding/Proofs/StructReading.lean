import PropertyBinding.Extraction
import PropertyBinding.Proofs.Traversal

/-!
# Reading structures

A group is handed to a target type as a table of its attributes without the absent values. Under the
identifier of an attribute stands the form of its value (`Group.lookup_toTable`), in whatever order
the attributes came. Integers are read if they lie in the range of their type
(`Target.readsForm_integer`), lists and maps value by value (`Target.mapM_read_itemsToToml`,
`Target.mapM_read_entriesToToml`).

A structure reads a table field by field: under the name of every field stands a value of the
field's type, or nothing and the field is optional (`Target.FieldReads`). That is enough for reading
it as a whole, to its fields in the order of declaration, whatever the order of the table
(`Target.read_struct`), and so for extracting a root (`RealizedConfig.extract_eq_ok`). A structure
with one field fails exactly if its field does (`Target.read_struct_singleton`).
-/

namespace PropertyBinding

/-! ### Tables of attributes -/

namespace Entries

variable {α : Type} {key : String} {entries : Entries α}

/-- What is not found is not among the keys. -/
theorem lookup_eq_none_iff : entries.lookup key = none ↔ key ∉ keys entries := by
  rw [← isSome_lookup_iff, Bool.not_eq_true, Option.isSome_eq_false_iff, Option.isNone_iff_eq_none]

/-- Sorting changes nothing about what is found, if the keys are distinct. -/
theorem lookup_sorted (h : (keys entries).Nodup) (key : String) :
    (sorted entries).lookup key = entries.lookup key := by
  have hmem : ∀ entry, entry ∈ sorted entries ↔ entry ∈ entries := fun entry =>
    mem_sorted_iff fun e he e' he' => List.inj_on_of_nodup_map h he he'
  refine Option.ext fun value => ⟨fun hfound => ?_, fun hfound => ?_⟩
  · exact lookup_eq_of_mem h ((hmem _).mp (mem_of_lookup hfound))
  · exact lookup_eq_of_mem (ascending_sorted entries).nodup ((hmem _).mpr (mem_of_lookup hfound))

/-- Entries whose values are made from their keys. -/
theorem lookup_map_keys {β : Type} (view : String → β) (key : String) (entries : Entries α) :
    (entries.map fun entry => (entry.1, view entry.1)).lookup key =
      if key ∈ keys entries then some (view key) else none := by
  induction entries with
  | nil => rfl
  | cons entry rest ih =>
    obtain ⟨k, v⟩ := entry
    have hkeys : keys ((k, v) :: rest) = k :: keys rest := rfl
    rw [List.map_cons, List.lookup_cons, ih, hkeys]
    by_cases hk : key = k
    · subst hk
      simp
    · have hne : (key == k) = false := by simpa using hk
      simp [hne, hk]

end Entries

/-- The forms of values stand under the keys of the values, in the same order. -/
theorem keys_entriesToToml_sublist (entries : Entries Value) :
    (Entries.keys (entriesToToml entries)).Sublist (Entries.keys entries) := by
  induction entries with
  | nil =>
    rw [entriesToToml]
    exact .slnil
  | cons entry entries ih =>
    obtain ⟨key, v⟩ := entry
    rw [entriesToToml]
    cases v.toToml? with
    | none => exact ih.cons key
    | some w => exact ih.cons_cons key

/-- Under a key stands the form of the value there. -/
theorem lookup_entriesToToml {entries : Entries Value} (h : (Entries.keys entries).Nodup)
    (key : String) :
    (entriesToToml entries).lookup key = (entries.lookup key).bind Value.toToml? := by
  induction entries with
  | nil => rw [entriesToToml]; rfl
  | cons entry entries ih =>
    obtain ⟨k, v⟩ := entry
    obtain ⟨hk, hrest⟩ := List.nodup_cons.mp h
    rw [entriesToToml, List.lookup_cons]
    by_cases hkey : key = k
    · subst hkey
      rw [beq_self_eq_true]
      cases hv : v.toToml? with
      | none =>
        have hnone : entries.lookup key = none := Entries.lookup_eq_none_iff.mpr hk
        rw [Option.map_none, Option.toList_none, List.nil_append, ih hrest, hnone, Option.bind_some,
          hv]
        rfl
      | some w =>
        rw [Option.map_some, Option.toList_some, List.singleton_append, List.lookup_cons_self,
          Option.bind_some, hv]
    · have hne : (key == k) = false := by simpa using hkey
      rw [hne, ← ih hrest]
      cases v.toToml? with
      | none => rfl
      | some w =>
        rw [Option.map_some, Option.toList_some, List.singleton_append, List.lookup_cons, hne]

/-- **Under the identifier of an attribute** stands the form of its value. -/
theorem Group.lookup_toTable {g : Group} (h : (Entries.keys g.fields).Nodup) (ident : String) :
    g.toTable.lookup ident = (g.get? ident).bind Value.toToml? := by
  obtain ⟨typeName, fields⟩ := g
  have hforms := (keys_entriesToToml_sublist fields).nodup h
  rw [toTable, Entries.lookup_sorted hforms, lookup_entriesToToml h]
  rfl

/-- The names in the table of a group are those of attributes, each once. -/
theorem Group.keys_toTable (g : Group) :
    (Entries.keys g.toTable).Nodup ∧
      ∀ key ∈ Entries.keys g.toTable, key ∈ Entries.keys g.fields := by
  obtain ⟨typeName, fields⟩ := g
  rw [toTable]
  refine ⟨(Entries.ascending_sorted _).nodup, fun key hkey => ?_⟩
  obtain ⟨entry, hentry, rfl⟩ := List.mem_map.mp hkey
  exact (keys_entriesToToml_sublist fields).subset (List.mem_map_of_mem (Entries.mem_sorted hentry))

/-! ### Integers -/

/-- The range of a type. -/
theorem IntegerType.contains_iff {type : IntegerType} {n : Int} : type.contains n = true ↔
    (if type.isSigned then -(type.bound : Int) else 0) ≤ n ∧ n < type.bound := by
  rw [contains, Bool.and_eq_true, decide_eq_true_eq, decide_eq_true_eq]

namespace Target

/-- Whether a value has a form, which the type reads as the extracted value. -/
def ReadsForm (t : Target) (v : Value) (x : Extracted) : Prop :=
  ∃ w, v.toToml? = some w ∧ t.read w = .ok x

/-- An integer in the range of a type is read as it is. -/
theorem readsForm_integer {type : IntegerType} {v : Value} {n : Int64}
    (hform : v.toToml? = some (.integer n)) (hrange : type.contains n.toInt = true) :
    (Target.integer type).ReadsForm v (.integer n.toInt) :=
  ⟨_, hform, by rw [read_integer, readInteger, ranged, if_pos hrange]⟩

/-! ### Lists and maps -/

/-- The items of a list are read one by one. -/
theorem mapM_read_itemsToToml {t : Target} {vs : List Value} {xs : List Extracted}
    (h : List.Forall₂ t.ReadsForm vs xs) : (itemsToToml vs).mapM t.read = .ok xs := by
  induction h with
  | nil => rw [itemsToToml]; rfl
  | cons hitem _ ih =>
    obtain ⟨w, hw, hread⟩ := hitem
    rw [itemsToToml, hw, Option.toList_some, List.singleton_append, List.mapM_cons, hread, ih]
    rfl

/-- The values of a map are read one by one, without those that have no form. -/
theorem mapM_read_entriesToToml {t : Target} {entries : Entries Value}
    (view : String × Value → Option (String × Extracted))
    (h : ∀ entry ∈ entries, entry.2.toToml? = none ∧ view entry = none ∨
      ∃ x, t.ReadsForm entry.2 x ∧ view entry = some (entry.1, x)) :
    ((entriesToToml entries).mapM fun entry : String × Toml =>
        (t.read entry.2).map (entry.1, ·)) = .ok (entries.filterMap view) := by
  induction entries with
  | nil => rw [entriesToToml]; rfl
  | cons entry entries ih =>
    obtain ⟨key, v⟩ := entry
    obtain ⟨hv, hrest⟩ := List.forall_mem_cons.mp h
    rw [entriesToToml, List.filterMap_cons]
    rcases hv with ⟨hnone, hview⟩ | ⟨x, ⟨w, hw, hread⟩, hview⟩
    · rw [hnone, hview]
      exact ih hrest
    · rw [hw, hview, Option.map_some, Option.toList_some, List.singleton_append, List.mapM_cons,
        hread, ih hrest]
      rfl

theorem ReadsForm.optional {t : Target} {v : Value} {x : Extracted} (h : t.ReadsForm v x) :
    (Target.option t).ReadsForm (.optional (some v)) (.option (some x)) := by
  obtain ⟨w, hw, hread⟩ := h
  exact ⟨w, by rw [Value.toToml?, hw], by rw [read, hread]; rfl⟩

theorem ReadsForm.list {t : Target} {vs : List Value} {xs : List Extracted}
    (h : List.Forall₂ t.ReadsForm vs xs) : (Target.seq t).ReadsForm (.list vs) (.items xs) :=
  ⟨_, by rw [Value.toToml?], by rw [read, mapM_read_itemsToToml h]; rfl⟩

/-! ### Fields -/

/-- Whether a field of the type gets a value from what stands under its name in a table. -/
def FieldReads (t : Target) (x : Extracted) : Option Toml → Prop
  | some v => t.read v = .ok x
  | none => t.isOption = true ∧ x = .option none

theorem ReadsForm.fieldReads {t : Target} {v : Value} {x : Extracted} (h : t.ReadsForm v x) :
    t.FieldReads x v.toToml? := by
  obtain ⟨w, hw, hread⟩ := h
  rw [hw]
  exact hread

theorem fieldReaders_eq (fields : List (String × Target)) :
    fieldReaders fields = fields.map fun field => ⟨field.1, field.2.isOption, field.2.read⟩ := by
  induction fields with
  | nil => rw [fieldReaders, List.map_nil]
  | cons field fields ih =>
    obtain ⟨name, t⟩ := field
    rw [fieldReaders, ih, List.map_cons]

section Readers

variable {readers : List FieldReader} {entries : Entries Toml} {view : String → Extracted}

/-- Reading the entries of a table one by one. -/
theorem readEntries_eq_ok (denyUnknown : Bool)
    (hknown : denyUnknown = true →
      ∀ key ∈ Entries.keys entries, (readers.find? (·.name = key)).isSome)
    (hread : ∀ entry ∈ entries, ∀ reader, readers.find? (·.name = entry.1) = some reader →
      reader.read entry.2 = .ok (view entry.1)) :
    readEntries readers denyUnknown entries =
      .ok ((entries.filter fun entry => (readers.find? (·.name = entry.1)).isSome).map
        fun entry => (entry.1, view entry.1)) := by
  induction entries with
  | nil => rfl
  | cons entry entries ih =>
    obtain ⟨key, v⟩ := entry
    obtain ⟨hfirst, hrest⟩ := List.forall_mem_cons.mp hread
    have hbelow := ih (fun hdeny k hk => hknown hdeny k (List.mem_cons_of_mem _ hk)) hrest
    rw [readEntries]
    cases hfind : readers.find? (·.name = key) with
    | none =>
      have hallow : ¬denyUnknown = true := fun hdeny => by
        have hsome := hknown hdeny key List.mem_cons_self
        rw [hfind] at hsome
        cases hsome
      dsimp only
      rw [if_neg hallow, hbelow, List.filter_cons_of_neg (by simp [hfind])]
    | some reader =>
      dsimp only
      rw [hfirst reader hfind, hbelow, List.filter_cons_of_pos (by simp [hfind])]
      rfl

/-- Arranging values that have been read. -/
theorem arrangeFields_eq_ok {values : Entries Extracted}
    (h : ∀ reader ∈ readers, values.lookup reader.name = some (view reader.name) ∨
      values.lookup reader.name = none ∧ reader.isOption = true ∧
        view reader.name = .option none) :
    arrangeFields values readers =
      .ok (readers.map fun reader => (reader.name, view reader.name)) := by
  induction readers with
  | nil => rfl
  | cons reader readers ih =>
    obtain ⟨hfirst, hrest⟩ := List.forall_mem_cons.mp h
    rw [arrangeFields, ih hrest]
    rcases hfirst with hsome | ⟨hnone, hoption, hview⟩
    · rw [hsome]
      rfl
    · rw [hnone, List.map_cons, hview]
      dsimp only
      rw [if_pos hoption]
      rfl

end Readers

/-- **A structure reads a table** if each of its fields does, to their values in the order of
declaration. If unknown fields are denied, the table may have no others. -/
theorem read_struct {name : String} {fields : List (String × Target)}
    {denyUnknown positional : Bool} {entries : Entries Toml} (view : String → Extracted)
    (hentries : (Entries.keys entries).Nodup)
    (hknown : denyUnknown = true → ∀ key ∈ Entries.keys entries, key ∈ fields.map (·.1))
    (hreads : ∀ field ∈ fields, field.2.FieldReads (view field.1) (entries.lookup field.1)) :
    (Target.struct name fields denyUnknown positional).read (.table entries) =
      .ok (.entries (fields.map fun field => (field.1, view field.1))) := by
  have hsome : ∀ key, ((fieldReaders fields).find? (·.name = key)).isSome ↔
      key ∈ fields.map (·.1) := by
    intro key
    rw [List.find?_isSome, fieldReaders_eq]
    simp
  -- A reader that is found under a key is that of the field with this name.
  have hentry : ∀ entry ∈ entries, ∀ reader,
      (fieldReaders fields).find? (·.name = entry.1) = some reader →
        reader.read entry.2 = .ok (view entry.1) := by
    intro entry hmem reader hfind
    have hname : reader.name = entry.1 := by simpa using List.find?_some hfind
    have hreader := List.mem_of_find?_eq_some hfind
    rw [fieldReaders_eq] at hreader
    obtain ⟨field, hfield, rfl⟩ := List.mem_map.mp hreader
    replace hname : field.1 = entry.1 := hname
    have hread := hreads field hfield
    rw [hname, Entries.lookup_eq_of_mem hentries hmem] at hread
    exact hread
  rw [read, readEntries_eq_ok denyUnknown
    (fun hdeny key hkey => (hsome key).mpr (hknown hdeny key hkey)) hentry]
  dsimp only [bind, Except.bind]
  rw [@arrangeFields_eq_ok (fieldReaders fields) view _ ?_, fieldReaders_eq, List.map_map]
  · rfl
  intro reader hreader
  rw [fieldReaders_eq] at hreader
  obtain ⟨field, hfield, rfl⟩ := List.mem_map.mp hreader
  have hname := (hsome field.1).mpr (List.mem_map_of_mem hfield)
  rw [Entries.lookup_map_keys]
  have hkeys : field.1 ∈ Entries.keys (entries.filter fun entry =>
      ((fieldReaders fields).find? (·.name = entry.1)).isSome) ↔
        field.1 ∈ Entries.keys entries := by
    refine ⟨fun h => (List.filter_sublist.map _).subset h, fun h => ?_⟩
    obtain ⟨entry, hmem, heq⟩ := List.mem_map.mp h
    refine List.mem_map.mpr ⟨entry, List.mem_filter.mpr ⟨hmem, ?_⟩, heq⟩
    rwa [heq]
  rw [if_congr hkeys rfl rfl]
  have hreads := hreads field hfield
  cases hlookup : entries.lookup field.1 with
  | none =>
    rw [hlookup] at hreads
    rw [if_neg (Entries.lookup_eq_none_iff.mp hlookup)]
    exact Or.inr ⟨rfl, hreads⟩
  | some v =>
    rw [if_pos (Entries.isSome_lookup_iff.mp (by rw [hlookup]; rfl))]
    exact Or.inl rfl

section OneField

variable {entries : Entries Toml} {ident : String} {reader : FieldReader} {w : Toml} {t : Target}

/-- A table without the field has nothing to read for it. -/
theorem readEntries_of_not_mem (h : reader.name ∉ Entries.keys entries) :
    readEntries [reader] false entries = .ok [] := by
  induction entries with
  | nil => rfl
  | cons entry entries ih =>
    obtain ⟨key, v⟩ := entry
    obtain ⟨hkey, hrest⟩ := List.ne_and_not_mem_of_not_mem_cons h
    have hfind : [reader].find? (·.name = key) = none := by simpa using hkey
    rw [readEntries, hfind]
    exact ih hrest

/-- Of a table, one reader reads what stands under its name. -/
theorem readEntries_singleton (hkeys : (Entries.keys entries).Nodup)
    (hlookup : entries.lookup reader.name = some w) :
    readEntries [reader] false entries = (reader.read w).map fun x => [(reader.name, x)] := by
  induction entries with
  | nil => cases hlookup
  | cons entry entries ih =>
    obtain ⟨key, v⟩ := entry
    obtain ⟨hkey, hrest⟩ := List.nodup_cons.mp hkeys
    rw [List.lookup_cons] at hlookup
    by_cases hname : reader.name = key
    · subst hname
      rw [beq_self_eq_true] at hlookup
      obtain rfl := Option.some.inj hlookup
      have hfind : [reader].find? (·.name = reader.name) = some reader := by simp
      rw [readEntries, hfind, readEntries_of_not_mem hkey]
      dsimp only
      cases reader.read v <;> rfl
    · have hne : (reader.name == key) = false := by simpa using hname
      rw [hne] at hlookup
      have hfind : [reader].find? (·.name = key) = none := by simpa using hname
      rw [readEntries, hfind]
      exact ih hrest hlookup

/-- **A structure with one field** reads a table as its field reads what stands under the field's
name, if anything does. -/
theorem read_struct_singleton (name : String) (positional : Bool)
    (hkeys : (Entries.keys entries).Nodup) (hlookup : entries.lookup ident = some w) :
    (Target.struct name [(ident, t)] false positional).read (.table entries) =
      (t.read w).map fun x => .entries [(ident, x)] := by
  have hreaders : fieldReaders [(ident, t)] = [⟨ident, t.isOption, t.read⟩] := by
    rw [fieldReaders_eq, List.map_singleton]
  have hvalues : readEntries [⟨ident, t.isOption, t.read⟩] false entries =
      (t.read w).map fun x => [(ident, x)] := readEntries_singleton hkeys hlookup
  rw [read, hreaders, hvalues]
  cases t.read w with
  | error fault => rfl
  | ok x =>
    have harrange : arrangeFields [(ident, x)] [⟨ident, t.isOption, t.read⟩] =
        .ok [(ident, x)] := by
      rw [arrangeFields, List.lookup_cons_self]
      rfl
    change (arrangeFields [(ident, x)] _).map Extracted.entries = _
    rw [harrange]
    rfl

end OneField

end Target

/-- **A type that reads the form of a root** extracts it. -/
theorem RealizedConfig.extract_eq_ok {c : RealizedConfig} {typeName : String} {g : Group}
    {t : Target} {x : Extracted} (hget : c.instanceOf typeName = .ok g)
    (h : t.FieldReads x (Value.group g).toToml?) : c.extract typeName t = .ok x := by
  rw [Value.toToml?, Target.FieldReads] at h
  rw [extract, hget]
  dsimp only
  rw [h]

end PropertyBinding

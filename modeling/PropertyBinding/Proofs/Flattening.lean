import Mathlib.Algebra.Order.BigOperators.Group.List
import Mathlib.Algebra.Order.Group.Nat
import Mathlib.Data.List.Perm.Subperm
import PropertyBinding.Proofs.Quoting
import PropertyBinding.Proofs.TomlTables
import PropertyBinding.Proofs.ValueText
import PropertyBinding.Source.Document

/-!
# Values of documents as properties

The values of a document stand at paths of keys (`Toml.ValueAt`), and every one becomes a property.
Its name is joined from the keys, but for the empty keys that the path begins with
(`Toml.flattenEntries_eq_propertyNames`). Of properties with one name only the last is kept.

So the properties of a document need not keep all its values (`Properties.Keeps`,
`Properties.ofDocument_loses`). They do if and only if the paths of the values can be read back from
their names (`Toml.Readable`, `Properties.ofDocument_keeps_iff`): a path must not begin or end with
an empty key, and no dot may come after a quotation mark in one of its keys. Such paths have
different names. Conversely, what is read back has no more segments than the path has keys
(`Toml.length_segments_propertyName_lt`); if it is another path of the document each time, then all
paths together have lost nothing, and so each is read back as itself (`Toml.readable_of_perm`).
-/

namespace PropertyBinding

/-! ### Properties with distinct names -/

section Entries

variable {α : Type}

theorem Entries.mem_keys_foldl_put {key : String} (pairs entries : Entries α) :
    key ∈ Entries.keys (pairs.foldl (fun acc pair => Entries.put pair.1 pair.2 acc) entries) ↔
      key ∈ Entries.keys pairs ∨ key ∈ Entries.keys entries := by
  induction pairs generalizing entries with
  | nil => simp [Entries.keys]
  | cons pair pairs ih =>
    have hkeys : Entries.keys (pair :: pairs) = pair.1 :: Entries.keys pairs := rfl
    rw [List.foldl_cons, ih, Entries.mem_keys_put, hkeys, List.mem_cons, or_left_comm, or_assoc]

theorem Entries.nodup_keys_foldl_put (pairs : Entries α) {entries : Entries α}
    (h : (Entries.keys entries).Nodup) :
    (Entries.keys (pairs.foldl (fun acc pair => Entries.put pair.1 pair.2 acc) entries)).Nodup :=
  List.foldlRecOn (motive := fun entries => (Entries.keys entries).Nodup) pairs _ h
    fun _ h pair _ => Entries.nodup_keys_put h pair.1 pair.2

end Entries

namespace Properties

variable {pairs : List (String × String)}

/-- Properties have distinct names. -/
theorem nodup_keys_ofPairs (pairs : List (String × String)) :
    (Entries.keys (ofPairs pairs)).Nodup := by
  have hempty : (Entries.keys ([] : Properties)).Nodup := List.nodup_nil
  exact Entries.nodup_keys_foldl_put pairs hempty

/-- Names can become fewer only. -/
theorem keys_ofPairs_subperm (pairs : List (String × String)) :
    (Entries.keys (ofPairs pairs)).Subperm (Entries.keys pairs) := by
  refine (nodup_keys_ofPairs pairs).subperm fun key hkey => ?_
  exact ((Entries.mem_keys_foldl_put pairs []).mp hkey).resolve_right (List.not_mem_nil)

/-- Properties with distinct names are kept as they are. -/
theorem ofPairs_eq (h : (Entries.keys pairs).Nodup) : ofPairs pairs = pairs :=
  Entries.foldl_put_eq h

/-- Properties that do not become fewer had distinct names. -/
theorem nodup_of_length_ofPairs (h : pairs.length ≤ (ofPairs pairs).length) :
    (Entries.keys pairs).Nodup := by
  have hperm := (keys_ofPairs_subperm pairs).perm_of_length_le (by simpa [Entries.keys] using h)
  exact hperm.nodup_iff.mp (nodup_keys_ofPairs pairs)

end Properties

namespace Toml

variable {entries : List (String × Toml)} {v w : Toml} {path : List String}

/-! ### Paths of keys -/

/-- What stands at a path of keys. -/
def at? : List String → Toml → Option Toml
  | [], v => some v
  | key :: path, .table entries => (entries.lookup key).bind (at? path)
  | _ :: _, _ => none

/-- Whether the value stands at the path in a document, and is no table itself. -/
def ValueAt (entries : List (String × Toml)) (path : List String) (v : Toml) : Prop :=
  at? path (.table entries) = some v ∧ v.isTable = false

mutual

/-- The values that a value consists of, with their paths: itself, unless it is a table. -/
def valuesAt : Toml → List (List String × Toml)
  | .table entries => entryValues entries
  | v => [([], v)]

/-- The values below entries, with their paths. -/
def entryValues : List (String × Toml) → List (List String × Toml)
  | [] => []
  | (key, v) :: rest => (valuesAt v).map (fun x => (key :: x.1, x.2)) ++ entryValues rest

end

theorem valuesAt_of_noTable (h : v.isTable = false) : valuesAt v = [([], v)] := by
  cases v with
  | table entries => cases h
  | _ => rfl

theorem entryValues_eq_flatMap (entries : List (String × Toml)) :
    entryValues entries = entries.flatMap fun entry =>
      (valuesAt entry.2).map fun x => (entry.1 :: x.1, x.2) := by
  induction entries with
  | nil => rfl
  | cons entry rest ih =>
    obtain ⟨key, v⟩ := entry
    rw [entryValues, List.flatMap_cons, ih]

theorem mem_entryValues_iff {path : List String} :
    (path, w) ∈ entryValues entries ↔
      ∃ entry ∈ entries, ∃ rest, path = entry.1 :: rest ∧ (rest, w) ∈ valuesAt entry.2 := by
  rw [entryValues_eq_flatMap, List.mem_flatMap]
  refine exists_congr fun entry => and_congr_right fun _ => ?_
  rw [List.mem_map]
  constructor
  · rintro ⟨x, hx, heq⟩
    obtain ⟨rfl, rfl⟩ := Prod.mk.inj heq
    exact ⟨x.1, rfl, hx⟩
  · rintro ⟨rest, rfl, hmem⟩
    exact ⟨(rest, w), hmem, rfl⟩

/-- **The values at paths** are those that stand there. -/
theorem mem_valuesAt_iff (h : Ordered v) :
    (path, w) ∈ valuesAt v ↔ at? path v = some w ∧ w.isTable = false := by
  induction h generalizing path with
  | table ascending _ ih =>
    rw [valuesAt, mem_entryValues_iff]
    constructor
    · rintro ⟨entry, hentry, rest, rfl, hmem⟩
      rw [at?, Entries.lookup_eq_of_mem ascending.nodup hentry]
      exact (ih entry hentry).mp hmem
    · rintro ⟨hat, hw⟩
      cases path with
      | nil =>
        obtain rfl := Option.some.inj hat
        cases hw
      | cons key rest =>
        obtain ⟨child, hlookup, hat⟩ := Option.bind_eq_some_iff.mp hat
        have hentry := Entries.mem_of_lookup hlookup
        exact ⟨(key, child), hentry, rest, rfl, (ih _ hentry).mpr ⟨hat, hw⟩⟩
  | @other v noTable =>
    rw [valuesAt_of_noTable noTable, List.mem_singleton, Prod.mk.injEq]
    cases path with
    | nil =>
      constructor
      · rintro ⟨-, rfl⟩
        exact ⟨rfl, noTable⟩
      · rintro ⟨hat, -⟩
        exact ⟨rfl, (Option.some.inj hat).symm⟩
    | cons key rest =>
      constructor
      · rintro ⟨hpath, -⟩
        cases hpath
      · rintro ⟨hat, -⟩
        cases v with
        | table entries => cases noTable
        | _ => cases hat

/-- There is one value at a path. -/
theorem nodup_valuesAt (h : Ordered v) : ((valuesAt v).map (·.1)).Nodup := by
  induction h with
  | table ascending _ ih =>
    rw [valuesAt, entryValues_eq_flatMap, List.map_flatMap, List.nodup_flatMap]
    constructor
    · intro entry hentry
      have hcons := (ih entry hentry).map (List.cons_injective (a := entry.1))
      rw [List.map_map] at hcons ⊢
      exact hcons
    · -- Paths below different keys differ in the first key.
      refine (List.pairwise_map.mp ascending.nodup).imp fun hne => ?_
      intro path hfirst hsecond
      simp only [List.map_map, List.mem_map] at hfirst hsecond
      obtain ⟨x, -, rfl⟩ := hfirst
      obtain ⟨y, -, heq⟩ := hsecond
      exact hne (List.cons.inj heq).1.symm
  | other noTable =>
    rw [valuesAt_of_noTable noTable]
    exact List.nodup_singleton _

/-! ### Flattening -/

/-- The text of a value as a property: of an array, the texts of its items with commas between
them. -/
def rawText : Toml → String
  | .array items => Text.joinItems (items.map scalarText)
  | v => scalarText v

mutual

theorem flatten_eq (name : String) : (v : Toml) →
    flatten name v = (valuesAt v).map fun x => (x.1.foldl entryName name, rawText x.2)
  | .table entries => by rw [flatten, valuesAt, flattenEntries_eq name entries]
  | .array items => rfl
  | .string _ | .integer _ | .float _ | .boolean _ | .datetime _ => rfl

/-- **Every value below entries becomes a property.** -/
theorem flattenEntries_eq (outer : String) : (entries : List (String × Toml)) →
    flattenEntries outer entries =
      (entryValues entries).map fun x => (x.1.foldl entryName outer, rawText x.2)
  | [] => rfl
  | (key, v) :: rest => by
    rw [flattenEntries, entryValues, List.map_append, List.map_map, flatten_eq _ v,
      flattenEntries_eq outer rest]
    rfl

end

/-! ### Names of paths -/

/-- The name for a path of keys. Empty keys in front are not in it. -/
def propertyName (path : List String) : String :=
  Name.joinSegments (path.dropWhile (· = ""))

/-- Whether the path can be read back from its name. -/
def Readable (path : List String) : Prop :=
  path.head? ≠ some "" ∧ path.getLast? ≠ some "" ∧ ∀ key ∈ path, Name.Quotable key

instance (path : List String) : Decidable (Readable path) :=
  inferInstanceAs (Decidable (_ ∧ _ ∧ _))

theorem foldl_entryName_of_ne {outer : String} (h : outer ≠ "") (key : String)
    (keys : List String) :
    (key :: keys).foldl entryName outer = outer ++ "." ++ Name.joinSegments (key :: keys) := by
  induction keys generalizing outer key with
  | nil => rw [List.foldl_cons, List.foldl_nil, entryName, if_neg h, Name.joinSegments_singleton]
  | cons next keys ih =>
    have hname : entryName outer key = outer ++ "." ++ Name.quoteSegment key := if_neg h
    have hne : outer ++ "." ++ Name.quoteSegment key ≠ "" := by
      intro hempty
      simpa using congrArg String.toList hempty
    rw [List.foldl_cons, hname, ih hne, Name.joinSegments_cons_cons]
    simp only [String.append_assoc]

/-- The names below entries join the keys, without the empty ones in front. -/
theorem foldl_entryName (path : List String) : path.foldl entryName "" = propertyName path := by
  induction path with
  | nil => rfl
  | cons key path ih =>
    by_cases hkey : key = ""
    · subst hkey
      rw [propertyName, List.dropWhile_cons_of_pos (by simp)]
      exact ih
    · have hname : entryName "" key = Name.quoteSegment key := if_pos rfl
      have hne : Name.quoteSegment key ≠ "" := mt Name.quoteSegment_eq_empty_iff.mp hkey
      rw [propertyName, List.dropWhile_cons_of_neg (by simpa using hkey), List.foldl_cons, hname]
      cases path with
      | nil => exact (Name.joinSegments_singleton key).symm
      | cons next path =>
        rw [foldl_entryName_of_ne hne, Name.joinSegments_cons_cons]

/-- **Every value of a document becomes a property** under the name for its path. -/
theorem flattenEntries_eq_propertyNames (entries : List (String × Toml)) :
    flattenEntries "" entries =
      (entryValues entries).map fun x => (propertyName x.1, rawText x.2) := by
  rw [flattenEntries_eq]
  exact List.map_congr_left fun x _ => by rw [foldl_entryName]

theorem propertyName_of_head?_ne (h : path.head? ≠ some "") :
    propertyName path = Name.joinSegments path := by
  cases path with
  | nil => rfl
  | cons key path => rw [propertyName, List.dropWhile_cons_of_neg (by simpa using h)]

/-- **Readable paths are read back.** -/
theorem Readable.segments_propertyName (h : Readable path) :
    Name.segments (propertyName path) = path := by
  obtain ⟨hhead, hlast, hkeys⟩ := h
  rw [propertyName_of_head?_ne hhead, Name.segments_joinSegments hkeys, if_neg hlast]

/-- Of any other path, something is missing. -/
theorem length_segments_propertyName_lt (hkeys : ∀ key ∈ path, Name.Quotable key)
    (h : ¬Readable path) : (Name.segments (propertyName path)).length < path.length := by
  by_cases hhead : path.head? = some ""
  · obtain ⟨path, rfl⟩ := List.head?_eq_some_iff.mp hhead
    have hsuffix := List.dropWhile_suffix (l := path) (· = "")
    have hkept : ∀ key ∈ path.dropWhile (· = ""), Name.Quotable key :=
      fun key hkey => hkeys key (List.mem_cons_of_mem _ (hsuffix.subset hkey))
    have hle : (Name.segments (propertyName ("" :: path))).length ≤
        (path.dropWhile (· = "")).length := by
      rw [propertyName, List.dropWhile_cons_of_pos (by simp), Name.segments_joinSegments hkept]
      split_ifs
      · exact (List.dropLast_sublist _).length_le
      · exact le_rfl
    exact Nat.lt_succ_of_le (hle.trans hsuffix.length_le)
  · have hlast : path.getLast? = some "" := by
      by_contra hlast
      exact h ⟨hhead, hlast, hkeys⟩
    have hne : path ≠ [] := by
      rintro rfl
      cases hlast
    rw [propertyName_of_head?_ne hhead, Name.segments_joinSegments hkeys, if_pos hlast,
      List.length_dropLast]
    exact Nat.sub_lt (List.length_pos_iff.mpr hne) Nat.one_pos

/-- **If the paths are all that is read back**, in any order, then each is read back. -/
theorem readable_of_perm {paths : List (List String)}
    (h : paths.Perm (paths.map fun path => Name.segments (propertyName path))) :
    ∀ path ∈ paths, Readable path := by
  have hkeys : ∀ path ∈ paths, ∀ key ∈ path, Name.Quotable key := by
    intro path hpath key hkey
    obtain ⟨other, -, rfl⟩ := List.mem_map.mp (h.subset hpath)
    exact Name.quotable_of_mem_segments hkey
  intro path hpath
  by_contra hreadable
  have hle : ∀ path ∈ paths, (Name.segments (propertyName path)).length ≤ path.length := by
    intro path hpath
    by_cases hreadable : Readable path
    · rw [hreadable.segments_propertyName]
    · exact (length_segments_propertyName_lt (hkeys path hpath) hreadable).le
  have hlt := List.sum_lt_sum (fun path => (Name.segments (propertyName path)).length)
    List.length hle ⟨path, hpath, length_segments_propertyName_lt (hkeys path hpath) hreadable⟩
  have hsum := (h.map List.length).sum_eq
  rw [List.map_map] at hsum
  exact absurd hsum hlt.ne'

end Toml

/-! ### Keeping the values -/

/-- Whether the properties keep the values of a document: there is one for each value, its name
splits into the keys of the path, and there are no others. -/
structure Properties.Keeps (properties : Properties) (entries : Entries Toml) : Prop where
  one : ∀ path v, Toml.ValueAt entries path v →
    ∃ name, ∀ property, property ∈ properties ∧ Name.segments property.1 = path ↔
      property = (name, Toml.rawText v)
  only : ∀ property ∈ properties, ∃ v, Toml.ValueAt entries (Name.segments property.1) v

namespace Properties

variable {entries : Entries Toml}

/-- The properties of a document in which all paths are readable keep its values. -/
theorem keeps_of_readable (h : Toml.Ordered (.table entries))
    (hreadable : ∀ path v, Toml.ValueAt entries path v → Toml.Readable path) :
    (ofPairs (Toml.flattenEntries "" entries)).Keeps entries := by
  have hread : ∀ x ∈ Toml.entryValues entries,
      Name.segments (Toml.propertyName x.1) = x.1 ∧ Toml.ValueAt entries x.1 x.2 := by
    intro x hx
    have hx := (Toml.mem_valuesAt_iff h).mp hx
    exact ⟨(hreadable x.1 x.2 hx).segments_propertyName, hx⟩
  have hpairs : ∀ property, property ∈ Toml.flattenEntries "" entries ↔
      ∃ x ∈ Toml.entryValues entries, (Toml.propertyName x.1, Toml.rawText x.2) = property := by
    intro property
    rw [Toml.flattenEntries_eq_propertyNames, List.mem_map]
  -- Names from which different paths are read back are different.
  have hnodup : (Entries.keys (Toml.flattenEntries "" entries)).Nodup := by
    refine List.Nodup.of_map Name.segments ?_
    have hpaths : (Entries.keys (Toml.flattenEntries "" entries)).map Name.segments =
        (Toml.entryValues entries).map (·.1) := by
      rw [Toml.flattenEntries_eq_propertyNames, Entries.keys, List.map_map, List.map_map]
      exact List.map_congr_left fun x hx => (hread x hx).1
    rw [hpaths]
    exact Toml.nodup_valuesAt h
  rw [ofPairs_eq hnodup]
  constructor
  · intro path v hv
    have hmem := (Toml.mem_valuesAt_iff h).mpr hv
    refine ⟨Toml.propertyName path, fun property => ⟨?_, ?_⟩⟩
    · rintro ⟨hproperty, hsegments⟩
      obtain ⟨x, hx, rfl⟩ := (hpairs property).mp hproperty
      obtain ⟨hpath, hat, -⟩ := hread x hx
      rw [← hsegments, hpath] at hv ⊢
      rw [Option.some.inj (hat.symm.trans hv.1)]
    · rintro rfl
      exact ⟨(hpairs _).mpr ⟨(path, v), hmem, rfl⟩, (hread _ hmem).1⟩
  · intro property hproperty
    obtain ⟨x, hx, rfl⟩ := (hpairs property).mp hproperty
    refine ⟨x.2, ?_⟩
    rw [(hread x hx).1]
    exact (hread x hx).2

/-- All paths in a document are readable if its properties keep its values. -/
theorem Keeps.readable (h : Toml.Ordered (.table entries))
    (hkeeps : (ofPairs (Toml.flattenEntries "" entries)).Keeps entries) {path : List String}
    {v : Toml} (hv : Toml.ValueAt entries path v) : Toml.Readable path := by
  have hpairs := Toml.flattenEntries_eq_propertyNames entries
  have hpaths : ((Toml.entryValues entries).map (·.1)).Subperm
      ((ofPairs (Toml.flattenEntries "" entries)).map fun property =>
        Name.segments property.1) := by
    refine (Toml.nodup_valuesAt h).subperm fun path hpath => ?_
    obtain ⟨x, hx, rfl⟩ := List.mem_map.mp hpath
    obtain ⟨name, hname⟩ := hkeeps.one x.1 x.2 ((Toml.mem_valuesAt_iff h).mp hx)
    exact List.mem_map.mpr ⟨_, (hname _).mpr rfl⟩
  -- So no property has been replaced by a later one.
  have hlength := hpaths.length_le
  rw [List.length_map, List.length_map] at hlength
  have hnodup : (Entries.keys (Toml.flattenEntries "" entries)).Nodup :=
    nodup_of_length_ofPairs (by rwa [hpairs, List.length_map, ← hpairs])
  rw [ofPairs_eq hnodup, hpairs, List.map_map] at hpaths
  have hperm : ((Toml.entryValues entries).map (·.1)).Perm
      (((Toml.entryValues entries).map (·.1)).map fun path =>
        Name.segments (Toml.propertyName path)) := by
    rw [List.map_map]
    exact hpaths.perm_of_length_le (by simp)
  have hpath : path ∈ (Toml.entryValues entries).map (·.1) :=
    List.mem_map.mpr ⟨(path, v), (Toml.mem_valuesAt_iff h).mpr hv, rfl⟩
  exact Toml.readable_of_perm hperm path hpath

/-- **The properties of a document keep its values** if and only if the paths of all values are
readable, whichever parser has read the document as an ordered table. -/
theorem ofDocument_keeps_iff {parse : String → Option (Entries Toml)} {text : String}
    (h : parse text = some entries) (hordered : Toml.Ordered (.table entries)) :
    ∃ properties, ofDocumentWith parse text = .ok properties ∧
      (properties.Keeps entries ↔ ∀ path v, Toml.ValueAt entries path v → Toml.Readable path) := by
  refine ⟨ofPairs (Toml.flattenEntries "" entries), by rw [ofDocumentWith, h], ?_⟩
  exact ⟨fun hkeeps path v hv => hkeeps.readable hordered hv, keeps_of_readable hordered⟩

theorem ofDocument_keeps_iff_quotedKey :
    let text := "[app.server.regions.\"eu.west\"]\nlabel = \"west\"\n"
    let properties := [("app.server.regions.\"eu.west\".label", "west")]
    ∃ entries, Toml.parse? text = some entries ∧ ofDocument text = .ok properties ∧
      Keeps properties entries := by
  intro text properties
  have hsome : (Toml.parse? text).isSome := by decide +kernel
  obtain ⟨entries, h⟩ := Option.isSome_iff_exists.mp hsome
  have hreadable : ∀ x ∈ Toml.entryValues entries, Toml.Readable x.1 := by
    have hall : (Toml.parse? text).all fun entries =>
        (Toml.entryValues entries).all fun x => decide (Toml.Readable x.1) := by decide +kernel
    rw [h] at hall
    exact fun x hx => of_decide_eq_true (List.all_eq_true.mp hall x hx)
  have hordered := Toml.parse?_ordered h
  obtain ⟨found, hfound, hkeeps⟩ := ofDocument_keeps_iff h hordered
  obtain rfl : found = properties := by
    have hproperties : (ofDocument text).toOption = some properties := by decide +kernel
    rw [ofDocument, hfound] at hproperties
    exact Option.some.inj hproperties
  refine ⟨entries, h, hfound, hkeeps.mpr fun path v hv => ?_⟩
  exact hreadable (path, v) ((Toml.mem_valuesAt_iff hordered).mpr hv)

/-- **Values may be lost, or be found at other paths.** An empty key does not count at the beginning
of a path, and is not read back at its end; and marks around a key with a mark in front of a dot do
not make it one segment. -/
theorem ofDocument_loses :
    let values := fun (text : String) => (Toml.parse? text).map fun entries =>
      (Toml.entryValues entries).map fun x => (x.1, Toml.rawText x.2)
    let readBack := fun (text : String) => (ofDocument text).toOption.map fun properties =>
      properties.map fun property => (Name.segments property.1, property.2)
    let outerEmpty := "a = 2\n[\"\"]\na = 1\n"
    let innerEmpty := "a = \x7b\"\" = 1\x7d\n"
    let marked := "'x.y\".\"z.w' = 2\n['x.y']\n'z.w' = 1\n"
    values outerEmpty = some [(["", "a"], "1"), (["a"], "2")] ∧
      readBack outerEmpty = some [(["a"], "2")] ∧
      values innerEmpty = some [(["a", ""], "1")] ∧
      readBack innerEmpty = some [(["a"], "1")] ∧
      values marked = some [(["x.y", "z.w"], "1"), (["x.y\".\"z.w"], "2")] ∧
      readBack marked = some [(["x.y", "z.w"], "2")] := by
  decide +kernel

end Properties

end PropertyBinding

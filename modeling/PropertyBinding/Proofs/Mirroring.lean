import PropertyBinding.Proofs.StructReading
import PropertyBinding.Proofs.ValueText

/-!
# Types that mirror a graph

A target type mirrors a realized group if it is a structure with one field for every attribute, and
the types of the fields mirror the values: a map for a map, a sequence for a list, an optional type
for an optional or for a leaf that may be unset, and the types of scalars for scalars. To every such
type belongs what the values are in it (`Mirrors`): absent values are none, or missing from a map.

A value is handed to a mirroring type in a form that this type reads back as the value
(`Mirrors.fieldReads`), so extracting a root to a mirroring type gives its graph
(`RealizedConfig.extract_mirrors`).
-/

namespace PropertyBinding

/-- Whether a scalar is, in a type for scalars, this value. -/
inductive MirrorsScalar : Target → Value → Extracted → Prop where
  | bool (b : Bool) : MirrorsScalar .bool (.bool b) (.bool b)
  | int (n : Int32) : MirrorsScalar (.integer .int32) (.int n) (.integer n.toInt)
  | long (n : Int64) : MirrorsScalar (.integer .int64) (.long n) (.integer n.toInt)
  | string (s : String) : MirrorsScalar .string (.string s) (.text s)
  | path (s : String) : MirrorsScalar .string (.path s) (.text s)

/-- Whether a type mirrors a value, which is in this type the extracted one. -/
inductive Mirrors : Target → Value → Extracted → Prop where
  | scalar {t : Target} {v : Value} {x : Extracted} (is : MirrorsScalar t v x) : Mirrors t v x
  | list {item : Target} {vs : List Value} {xs : List Extracted}
      (items : List.Forall₂ (MirrorsScalar item) vs xs) : Mirrors (.seq item) (.list vs) (.items xs)
  /-- A value that is absent is none in an optional type. -/
  | absent {v : Value} (t : Target) (absent : v.isAbsent = true) :
      Mirrors (.option t) v (.option none)
  | present {t : Target} {v : Value} {x : Extracted} (is : MirrorsScalar t v x) :
      Mirrors (.option t) (.optional (some v)) (.option (some x))
  /-- The value of a leaf that may be unset, and is not. -/
  | set {t : Target} {v : Value} {x : Extracted} (is : MirrorsScalar t v x) :
      Mirrors (.option t) v (.option (some x))
  /-- A structure with one field for every attribute, in any order. -/
  | group {g : Group} {fields : List (String × Target)} (view : String → Extracted) (name : String)
      (denyUnknown positional : Bool) (distinct : (Entries.keys g.fields).Nodup)
      (names : (fields.map (·.1)).Perm (Entries.keys g.fields))
      (slots : ∀ ident t v, (ident, t) ∈ fields → g.get? ident = some v →
        Mirrors t v (view ident)) :
      Mirrors (.struct name fields denyUnknown positional) (.group g)
        (.entries (fields.map fun field => (field.1, view field.1)))
  /-- A map of the entries with a value. -/
  | map {t : Target} {entries : Entries Value} (view : String → Extracted)
      (ascending : Entries.Ascending entries)
      (values : ∀ key v, (key, v) ∈ entries → v.isAbsent = false → Mirrors t v (view key)) :
      Mirrors (.map t) (.map entries)
        (.entries (entries.filterMap fun entry =>
          if entry.2.isAbsent then none else some (entry.1, view entry.1)))

/-! ### Scalars -/

section Scalars

variable {t : Target} {v : Value} {x : Extracted}

/-- **A scalar is read back** from its form: its type does not convert it. -/
theorem MirrorsScalar.readsForm (h : MirrorsScalar t v x) : t.ReadsForm v x := by
  cases h with
  | bool b => exact ⟨_, rfl, by rw [Target.read, Target.readBool]⟩
  | int n =>
    have hform : (Value.int n).toToml? = some (.integer n.toInt64) := by rw [Value.toToml?]
    have hrange : IntegerType.int32.contains n.toInt64.toInt = true := by
      rw [Int32.toInt_toInt64]
      exact IntegerType.contains_iff.mpr ⟨n.le_toInt, n.toInt_lt⟩
    have hreads := Target.readsForm_integer hform hrange
    rwa [Int32.toInt_toInt64] at hreads
  | long n =>
    have hform : (Value.long n).toToml? = some (.integer n) := by rw [Value.toToml?]
    exact Target.readsForm_integer hform (IntegerType.contains_iff.mpr ⟨n.le_toInt, n.toInt_lt⟩)
  | string s | path s => exact ⟨_, by rw [Value.toToml?], by rw [Target.read, Target.readString]⟩

end Scalars

/-! ### Compound values -/

section Mirrors

variable {t : Target} {v : Value} {x : Extracted}

/-- What is absent has no form. -/
theorem Value.toToml?_eq_none_of_isAbsent (h : v.isAbsent = true) : v.toToml? = none := by
  cases v with
  | unset => rw [toToml?]
  | optional inner =>
    cases inner with
    | none => rw [toToml?]
    | some v => cases h
  | _ => cases h

/-- Ascending entries are handed on in their order. -/
theorem Entries.Ascending.toToml?_map {entries : Entries Value} (h : Entries.Ascending entries) :
    (Value.map entries).toToml? = some (.table (entriesToToml entries)) := by
  have hforms : Entries.Ascending (entriesToToml entries) :=
    List.Pairwise.sublist (keys_entriesToToml_sublist entries) h
  rw [Value.toToml?, hforms.sorted_eq]

/-- What is mirrored and not absent has a form. -/
theorem Mirrors.exists_toToml? (h : Mirrors t v x) (hpresent : v.isAbsent = false) :
    ∃ w, v.toToml? = some w := by
  cases h with
  | scalar is | set is =>
    obtain ⟨w, hw, -⟩ := is.readsForm
    exact ⟨w, hw⟩
  | list items => exact ⟨_, by rw [Value.toToml?]⟩
  | absent t absent => exact absurd (absent.symm.trans hpresent) (by simp)
  | present is =>
    obtain ⟨w, hw, -⟩ := is.readsForm
    exact ⟨w, by rw [Value.toToml?, hw]⟩
  | group | map => exact ⟨_, by rw [Value.toToml?]⟩

/-- **A mirroring type reads back** a value from its form, and does without one if there is none. -/
theorem Mirrors.fieldReads (h : Mirrors t v x) : t.FieldReads x v.toToml? := by
  induction h with
  | scalar is => exact is.readsForm.fieldReads
  | list items =>
    exact (Target.ReadsForm.list (items.imp fun _ _ is => is.readsForm)).fieldReads
  | absent t absent =>
    rw [Value.toToml?_eq_none_of_isAbsent absent]
    exact ⟨rfl, rfl⟩
  | present is => exact is.readsForm.optional.fieldReads
  | set is =>
    obtain ⟨w, hw, hread⟩ := is.readsForm
    rw [hw, Target.FieldReads, Target.read, hread]
    rfl
  | @group g fields view name denyUnknown positional distinct names slots ih =>
    obtain ⟨hnodup, hkeys⟩ := g.keys_toTable
    rw [Value.toToml?]
    refine Target.read_struct view hnodup (fun _ key hkey => names.mem_iff.mpr (hkeys key hkey)) ?_
    rintro ⟨ident, t⟩ hfield
    have hident := names.mem_iff.mp (List.mem_map_of_mem hfield)
    obtain ⟨v, hv⟩ := Option.isSome_iff_exists.mp (Entries.isSome_lookup_iff.mpr hident)
    rw [Group.lookup_toTable distinct, show g.get? ident = some v from hv, Option.bind_some]
    exact ih ident t v hfield hv
  | @map t entries view ascending values ih =>
    rw [ascending.toToml?_map, Target.FieldReads, Target.read,
      Target.mapM_read_entriesToToml (fun entry =>
        if entry.2.isAbsent then none else some (entry.1, view entry.1)) ?_]
    · rfl
    rintro ⟨key, v⟩ hmem
    cases habsent : v.isAbsent with
    | true => exact Or.inl ⟨Value.toToml?_eq_none_of_isAbsent habsent, rfl⟩
    | false =>
      obtain ⟨w, hw⟩ := (values key v hmem habsent).exists_toToml? habsent
      have hreads := ih key v hmem habsent
      rw [hw] at hreads
      exact Or.inr ⟨view key, ⟨w, hw, hreads⟩, rfl⟩

/-- **Extracting a root to a type that mirrors its graph** gives the graph. -/
theorem RealizedConfig.extract_mirrors {c : RealizedConfig} {typeName : String} {g : Group}
    (hget : c.instanceOf typeName = .ok g) (h : Mirrors t (.group g) x) :
    c.extract typeName t = .ok x :=
  extract_eq_ok hget h.fieldReads

end Mirrors

/-- A root with a nested group, a map in which one entry is unset, and an optional without a
value. -/
def mirroredGroup : Group where
  typeName := "AConfig"
  fields := [("on", .bool true), ("limit", .unset), ("ports", .list [.int 80, .int 443]),
    ("user", .optional none), ("sizes", .map [("a", .long 7), ("b", .unset)]),
    ("log", .group ⟨"LogConfig",
      [("file", .path "log"), ("level", .optional (some (.string "1")))]⟩)]

/-- Fields in another order than the attributes, and a string of digits that stays a string. -/
theorem extract_mirrors_mirroredGroup :
    let c : RealizedConfig := { roots := [("a", mirroredGroup)], byType := [("AConfig", "a")] }
    let log := Target.struct "Log" [("level", .option .string), ("file", .string)] true true
    c.instanceOf "AConfig" = .ok mirroredGroup ∧
      c.extract "AConfig" (.struct "A" [("log", log), ("sizes", .map (.option (.integer .int64))),
          ("user", .option .bool), ("ports", .seq (.integer .int32)),
          ("limit", .option (.integer .int32)), ("on", .bool)] false true) =
        .ok (.entries [("log", .entries [("level", .option (some (.text "1"))),
            ("file", .text "log")]), ("sizes", .entries [("a", .option (some (.integer 7)))]),
          ("user", .option none), ("ports", .items [.integer 80, .integer 443]),
          ("limit", .option none), ("on", .bool true)]) := by
  intro c log
  have hget : c.instanceOf "AConfig" = .ok mirroredGroup := rfl
  have hlog : Mirrors log
      (.group ⟨"LogConfig", [("file", .path "log"), ("level", .optional (some (.string "1")))]⟩)
      (.entries [("level", .option (some (.text "1"))), ("file", .text "log")]) := by
    refine .group (fun ident =>
      if ident = "level" then .option (some (.text "1")) else .text "log") "Log" true true
      (by decide) (by decide) ?_
    rintro ident t v hfield hv
    simp only [List.mem_cons, Prod.mk.injEq, List.not_mem_nil, or_false] at hfield
    obtain ⟨rfl, rfl⟩ | ⟨rfl, rfl⟩ := hfield
    · obtain rfl := Option.some.inj hv
      exact .present (.string "1")
    · obtain rfl := Option.some.inj hv
      exact .scalar (.path "log")
  have hsizes : Mirrors (.map (.option (.integer .int64))) (.map [("a", .long 7), ("b", .unset)])
      (.entries [("a", .option (some (.integer 7)))]) := by
    refine .map (fun _ => .option (some (.integer 7)))
      (by rw [Entries.Ascending]; decide) ?_
    intro key v hmem hpresent
    simp only [List.mem_cons, Prod.mk.injEq, List.not_mem_nil, or_false] at hmem
    obtain ⟨rfl, rfl⟩ | ⟨rfl, rfl⟩ := hmem
    · exact .set (.long 7)
    · cases hpresent
  refine ⟨hget, RealizedConfig.extract_mirrors hget ?_⟩
  refine .group (fun ident =>
    if ident = "log" then .entries [("level", .option (some (.text "1"))), ("file", .text "log")]
    else if ident = "sizes" then .entries [("a", .option (some (.integer 7)))]
    else if ident = "ports" then .items [.integer 80, .integer 443]
    else if ident = "on" then .bool true else .option none) "A" false true (by decide) (by decide)
    ?_
  rintro ident t v hfield hv
  simp only [List.mem_cons, Prod.mk.injEq, List.not_mem_nil, or_false] at hfield
  obtain ⟨rfl, rfl⟩ | ⟨rfl, rfl⟩ | ⟨rfl, rfl⟩ | ⟨rfl, rfl⟩ | ⟨rfl, rfl⟩ | ⟨rfl, rfl⟩ := hfield <;>
    obtain rfl := Option.some.inj hv
  · exact hlog
  · exact hsizes
  · exact .absent _ rfl
  · exact .list (.cons (.int 80) (.cons (.int 443) .nil))
  · exact .absent _ rfl
  · exact .scalar (.bool true)

end PropertyBinding

import PropertyBinding.Proofs.MemorySizes
import PropertyBinding.Proofs.Traces

/-!
# Typed and untyped integers

The text of an integer can be loaded for a leaf of 64-bit integers, which reads it at once, or for a
leaf of strings, and be read when the string is extracted as an integer. The first leaf hands on an
integer, which a type of integers takes if it has it. Of the second leaf, a signed type reads the
text as the first leaf does, and an unsigned type reads it without a minus sign. So both come to the
same (`Target.read_integer_or_text`), with one exception: zeros behind a minus sign.

A structure with one field on each level leads to any slot (`Target.read_within`), and fails exactly
if the type below does. So what has been loaded for the two leaves is extracted alike
(`LoadedWith.extract_integer_alike`).
-/

namespace PropertyBinding

open Definition

/-! ### The sign of a text -/

namespace Numeric

variable {cs : List Char} {n : Int}

/-- Whether a text is a minus sign with nothing but zeros behind it. -/
def IsMinusZero (cs : List Char) : Prop :=
  ∃ zeros, cs = '-' :: zeros ∧ ∀ c ∈ zeros, c = '0'

/-- Digits stand for zero if all of them are zeros. -/
theorem foldDigits_eq_zero_iff {start : Nat} (h : ∀ c ∈ cs, c.isDigit = true) :
    foldDigits start cs = 0 ↔ start = 0 ∧ ∀ c ∈ cs, c = '0' := by
  induction cs generalizing start with
  | nil => simp [foldDigits]
  | cons c cs ih =>
    obtain ⟨hc, hcs⟩ := List.forall_mem_cons.mp h
    have hstep : foldDigits start (c :: cs) = foldDigits (10 * start + (c.toNat - 48)) cs := rfl
    have hlow : 48 ≤ c.toNat := (Char.isDigit_iff_toNat.mp hc).1
    have hzero : c = '0' ↔ c.toNat = 48 := Char.toNat_inj.symm
    rw [hstep, ih hcs, List.forall_mem_cons, hzero, ← and_assoc]
    refine and_congr_left fun _ => ?_
    omega

/-- A sign is no digit. -/
theorem natural?_cons_of_not_isDigit {c : Char} (h : c.isDigit = false) (cs : List Char) :
    natural? (c :: cs) = none := by
  rw [natural?, if_neg]
  simp [h]

/-- A text of an integer with a minus sign is none of a natural number. The integer is zero if only
zeros come behind the sign, and negative otherwise. Without a minus sign, the integer is a natural
number, and the text is one of it. -/
theorem unsigned?_of_integer? (h : integer? cs = some n) :
    (IsMinusZero cs ∧ n = 0 ∨ ¬IsMinusZero cs ∧ n < 0) ∧ unsigned? cs = none ∨
      ¬IsMinusZero cs ∧ ∃ m : Nat, n = m ∧ unsigned? cs = some m := by
  rw [integer?.eq_def] at h
  split at h
  · rename_i ds
    rw [natural?] at h
    split_ifs at h with hdigits
    swap
    · cases h
    obtain rfl : -(foldDigits 0 ds : Int) = n := Option.some.inj h
    have hzeros : IsMinusZero ('-' :: ds) ↔ foldDigits 0 ds = 0 := by
      rw [foldDigits_eq_zero_iff (List.all_eq_true.mp hdigits.2), IsMinusZero]
      simp
    refine Or.inl ⟨?_, natural?_cons_of_not_isDigit (by decide) ds⟩
    rw [hzeros]
    omega
  · rename_i ds
    obtain ⟨m, hm, rfl⟩ := Option.map_eq_some_iff.mp h
    refine Or.inr ⟨?_, m, rfl, hm⟩
    rintro ⟨zeros, heq, -⟩
    cases heq
  · rename_i hminus hplus
    obtain ⟨m, hm, rfl⟩ := Option.map_eq_some_iff.mp h
    refine Or.inr ⟨?_, m, rfl, ?_⟩
    · rintro ⟨zeros, rfl, -⟩
      exact hminus zeros rfl
    · rw [unsigned?]
      · exact hm
      · exact hplus

/-- The text of an integer of 64 bits is one of an integer. -/
theorem integer?_of_int64? {v : Int64} (h : int64? cs = some v) : integer? cs = some v.toInt := by
  obtain ⟨n, hn, rfl⟩ := Option.map_eq_some_iff.mp h
  obtain ⟨hinteger, hrange⟩ := Option.filter_eq_some_iff.mp hn
  rw [Bool.and_eq_true, decide_eq_true_eq, decide_eq_true_eq] at hrange
  have hmin : Int64.minValue.toInt = -2 ^ 63 := by decide
  have hmax : Int64.maxValue.toInt = 2 ^ 63 - 1 := by decide
  rw [hinteger, Int64.toInt_ofInt_of_le] <;> omega

end Numeric

section Texts

variable {type : IntegerType} {cs : List Char} {v : Int64}

/-- What a type of integers reads a text of an integer of 64 bits as: the integer, or nothing if the
type does not have it. But unsigned types do not read zeros behind a minus sign. -/
theorem IntegerType.ofText?_of_int64? (hwidth : type.width ≤ 64)
    (h : Numeric.int64? cs = some v) :
    (type.isSigned = false ∧ Numeric.IsMinusZero cs) ∧ v.toInt = 0 ∧ type.ofText? cs = none ∨
      ¬(type.isSigned = false ∧ Numeric.IsMinusZero cs) ∧
        (type.ofText? cs = some v.toInt ∨
          type.ofText? cs = none ∧ type.contains v.toInt = false) := by
  have hnarrow : type.width ≠ 128 := by omega
  rw [ofText?, if_neg hnarrow]
  cases hsigned : type.isSigned with
  | true =>
    rw [if_pos rfl, h]
    exact Or.inr ⟨by simp, Or.inl rfl⟩
  | false =>
    rw [if_neg (by simp), Numeric.uint64?]
    rcases Numeric.unsigned?_of_integer? (Numeric.integer?_of_int64? h) with
      ⟨hminus, hunsigned⟩ | ⟨hplain, m, hm, hunsigned⟩
    · rw [hunsigned]
      refine hminus.imp (fun hzero => ⟨⟨rfl, hzero.1⟩, hzero.2, rfl⟩) fun hnegative => ?_
      refine ⟨fun hzero => hnegative.1 hzero.2, Or.inr ⟨rfl, ?_⟩⟩
      rw [← Bool.not_eq_true, contains_iff, hsigned]
      simp only [Bool.false_eq_true, if_false]
      omega
    · have hlt := v.toInt_lt
      have hsize : m < UInt64.size := by
        rw [UInt64.size]
        omega
      refine Or.inr ⟨fun hzero => hplain hzero.2, Or.inl ?_⟩
      rw [hunsigned, Option.filter_some, if_pos (by simpa using hsize), Option.map_some,
        Option.map_some, UInt64.toNat_ofNat_of_lt' hsize, hm]

/-- **An integer and its text** are read alike, as an integer of any type of at most 64 bits: both
give the same number, or both fail. But where only zeros come behind a minus sign, unsigned types
read the integer and do not read the text. -/
theorem Target.read_integer_or_text {raw : String} (hwidth : type.width ≤ 64)
    (h : Numeric.int64? (Text.trim raw.toList) = some v) :
    (type.isSigned = false ∧ Numeric.IsMinusZero (Text.trim raw.toList)) ∧
        (Target.integer type).read (.integer v) = .ok (.integer 0) ∧
        (∃ fault, (Target.integer type).read (.string raw) = .error fault) ∨
      ¬(type.isSigned = false ∧ Numeric.IsMinusZero (Text.trim raw.toList)) ∧
        ((∃ n, (Target.integer type).read (.integer v) = .ok (.integer n) ∧
            (Target.integer type).read (.string raw) = .ok (.integer n)) ∨
          (∃ fault, (Target.integer type).read (.integer v) = .error fault) ∧
            ∃ fault, (Target.integer type).read (.string raw) = .error fault) := by
  have hnarrow : type.width ≠ 128 := by omega
  have hlong : (Target.integer type).read (.integer v) = ranged type v.toInt := by
    rw [read_integer, readInteger]
  have hstring : ∀ n, type.ofText? (Text.trim raw.toList) = some n →
      (Target.integer type).read (.string raw) = ranged type n := by
    intro n hsome
    simp only [read_integer, readInteger, if_neg hnarrow, hsome]
  have hfails : type.ofText? (Text.trim raw.toList) = none →
      ∃ fault, (Target.integer type).read (.string raw) = .error fault := by
    intro hnone
    refine ⟨.invalidValue (Toml.describe (.string raw)) type.name, ?_⟩
    simp only [read_integer, readInteger, if_neg hnarrow, hnone]
  refine (IntegerType.ofText?_of_int64? hwidth h).imp (fun hzero => ?_) fun hread => ?_
  · obtain ⟨hexception, hv, hnone⟩ := hzero
    refine ⟨hexception, ?_, hfails hnone⟩
    have hcontains : type.contains 0 = true := by
      have hbound : 0 < type.bound := by
        rw [IntegerType.bound, Nat.one_shiftLeft]
        exact Nat.two_pow_pos _
      rw [IntegerType.contains_iff, hexception.1]
      exact ⟨le_rfl, Int.natCast_pos.mpr hbound⟩
    rw [hlong, hv, ranged, if_pos hcontains]
  · refine ⟨hread.1, ?_⟩
    rcases hread.2 with hsome | ⟨hnone, hcontains⟩
    · rw [hlong, hstring _ hsome, ranged]
      split_ifs
      · exact Or.inl ⟨_, rfl, rfl⟩
      · exact Or.inr ⟨⟨_, rfl⟩, _, rfl⟩
    · refine Or.inr ⟨?_, hfails hnone⟩
      rw [hlong, ranged, if_neg (by simp [hcontains])]
      exact ⟨_, rfl⟩

end Texts

/-! ### Slots in structures -/

/-- The name of a step in a table: an attribute or a map key. -/
def SlotStep.name : SlotStep → String
  | .field ident => ident
  | .entry key => key

section Within

variable {address : List SlotStep} {v x : Value} {w : Toml} {t : Target}

/-- **A structure of nested fields reads what an address leads to**: each field is an attribute or a
map key. It fails if the type below does. -/
theorem Target.read_within (hat : v.at? address = some x) (hform : x.toToml? = some w)
    (hdistinct : v.Everywhere Value.Distinct) (hascends : v.Ascends) :
    ∃ form, v.toToml? = some form ∧ (Target.within (address.map SlotStep.name) t).read form =
      (t.read w).map (Extracted.within (address.map SlotStep.name)) := by
  induction address generalizing v with
  | nil =>
    obtain rfl := Option.some.inj hat
    refine ⟨w, hform, ?_⟩
    rw [List.map_nil, within]
    cases t.read w <;> rfl
  | cons s address ih =>
    obtain ⟨inner, hinner, hbelow⟩ := Option.bind_eq_some_iff.mp hat
    obtain ⟨form, hinnerForm, hread⟩ := ih hbelow (hdistinct.slot hinner) (hascends.slot hinner)
    obtain ⟨entries, hentries, hkeys, hlookup⟩ : ∃ entries, v.toToml? = some (.table entries) ∧
        (Entries.keys entries).Nodup ∧ entries.lookup s.name = some form := by
      cases v with
      | group g =>
        cases s with
        | field ident =>
          refine ⟨g.toTable, by rw [Value.toToml?], g.keys_toTable.1, ?_⟩
          rw [SlotStep.name, Group.lookup_toTable (hdistinct [] _ rfl g rfl),
            show g.get? ident = some inner from hinner, Option.bind_some, hinnerForm]
        | entry key => cases hinner
      | map entries =>
        cases s with
        | field ident => cases hinner
        | entry key =>
          have hascending := hascends [] entries rfl
          refine ⟨_, hascending.toToml?_map,
            (keys_entriesToToml_sublist entries).nodup hascending.nodup, ?_⟩
          rw [SlotStep.name, lookup_entriesToToml hascending.nodup,
            show entries.lookup key = some inner from hinner, Option.bind_some, hinnerForm]
      | _ => cases hinner
    refine ⟨_, hentries, ?_⟩
    rw [List.map_cons, within, read_struct_singleton _ _ hkeys hlookup, hread]
    cases t.read w <;> rfl

end Within

section Extract

variable {good : RootDecl → Prop} {d : Definition} {c : RealizedConfig} {leaf : Leaf}
  {keys : List String} {address : List SlotStep} {v : Value} {w : Toml} {t : Target} {root : Root}

/-- What a loaded slot is extracted as, by a structure with one field in each level: what the type
of the last field reads its form as. -/
theorem Loaded.extract_within (hc : Loaded d c) (h : Built good d) (hroot : root ∈ d.roots)
    (hname : leaf.root = root.containingName) (hfill : fillPath leaf.path keys = some address)
    (hslot : c.slot? leaf keys = some v) (hform : v.toToml? = some w) :
    c.extract root.typeName (Target.within (address.map SlotStep.name) t) =
      match t.read w with
      | .ok x => .ok (Extracted.within (address.map SlotStep.name) x)
      | .error fault => .error (.extract root.typeName fault) := by
  obtain ⟨g, address', hget, hinstance, hfill', hat, hdistinct⟩ :=
    hc.exists_instance h hroot hname hslot
  obtain rfl := Option.some.inj (hfill.symm.trans hfill')
  obtain ⟨-, -, -, hascends, -⟩ := hc.ascends_outlined h _ g hget
  obtain ⟨form, hgroup, hread⟩ := Target.read_within (t := t) hat hform hdistinct hascends
  rw [Value.toToml?] at hgroup
  obtain rfl := Option.some.inj hgroup
  rw [RealizedConfig.extract, hinstance]
  dsimp only
  rw [hread]
  cases t.read w <;> rfl

end Extract

/-! ### Loaded leaves -/

/-- Whether a leaf of a kind has been loaded with a raw text in a config, and stands below these
names in the root of a type: the text is that of a name which finds a slot of the leaf, and the name
has been applied. -/
inductive LoadedWith (kind : LeafKind) (raw : String) :
    RealizedConfig → String → List String → Prop where
  | intro {good : RootDecl → Prop} {d : Definition} {c c' : RealizedConfig} {leaf : Leaf}
      {keys : List String} {address : List SlotStep} {root : Root} {l : Loader} {source : Source}
      {name : String} {before after : List LoadTarget} {report : LoadReport}
      (built : Built good d) (loaded : Loaded d c) (root_mem : root ∈ d.roots)
      (root_name : leaf.root = root.containingName) (kind_eq : leaf.kind = kind)
      (slot : fillPath leaf.path keys = some address) (finds : l.Finds before d c leaf keys name)
      (text : source.value? name = some raw)
      (applied : l.loadName source (before ++ ⟨d, c⟩ :: after) report name =
        .ok (before ++ ⟨d, c'⟩ :: after, { report with applied := report.applied + 1 })) :
      LoadedWith kind raw c' root.typeName (address.map SlotStep.name)

section LoadedWith

variable {kind : LeafKind} {raw : String} {c c' : RealizedConfig} {typeName typeName' : String}
  {names names' : List String}

/-- In a definition without an attribute declared twice, every text that reads as the kind of a leaf
can be loaded for it. -/
theorem Loaded.exists_loadedWith {piece : String → Prop} {d : Definition} {leaf : Leaf}
    {keys : List String} {address : List SlotStep} {root : Root} {l : Loader} {source : Source}
    {name : String} {before : List LoadTarget} {value : Value} (hc : Loaded d c)
    (h : Built (RootDecl.Each piece List.Nodup) d) (hroot : root ∈ d.roots)
    (hname : leaf.root = root.containingName) (hfill : fillPath leaf.path keys = some address)
    (hfinds : l.Finds before d c leaf keys name) (htext : source.value? name = some raw)
    (hgives : leaf.Gives raw value) :
    ∃ c', LoadedWith leaf.kind raw c' root.typeName (address.map SlotStep.name) := by
  obtain ⟨c', hload, -⟩ :=
    @Loaded.loadName_of_finds _ _ _ _ _ _ _ [] _ hc h hfinds _ _ (by rw [htext]; exact hgives) {}
  exact ⟨c', .intro h hc hroot hname rfl hfill hfinds htext hload⟩

/-- What has been loaded is extracted as what a type reads the form of its value as. -/
theorem LoadedWith.extract_eq (h : LoadedWith kind raw c typeName names) {value : Value} {w : Toml}
    (hne : raw ≠ "") (hvalue : Convert.value kind raw = .ok value) (hform : value.toToml? = some w)
    (t : Target) :
    c.extract typeName (Target.within names t) = match t.read w with
      | .ok x => .ok (Extracted.within names x)
      | .error fault => .error (.extract typeName fault) := by
  cases h with
  | intro built loaded root_mem root_name kind_eq slot finds text applied =>
    obtain ⟨hloaded, value', hgives, hslot⟩ := loaded.slot?_of_applied finds applied
    rw [text, Option.getD_some] at hgives
    obtain ⟨-, hvalue'⟩ := hgives.resolve_left fun hempty => hne hempty.1
    rw [kind_eq] at hvalue'
    obtain rfl := Except.ok.inj (hvalue.symm.trans hvalue')
    exact hloaded.extract_within built root_mem root_name slot hslot hform

/-- A text that a leaf of 64 bits reads is one of an integer of 64 bits. -/
theorem Convert.exists_int64?_of_value {value : Value} (h : Convert.value .long raw = .ok value) :
    raw ≠ "" ∧ ∃ v, Numeric.int64? (Text.trim raw.toList) = some v ∧ value = .long v := by
  rw [Convert.value, Convert.scalar, Convert.number] at h
  cases hread : Numeric.int64? (Text.trim raw.toList) with
  | none =>
    rw [hread] at h
    cases h
  | some v =>
    rw [hread] at h
    refine ⟨?_, v, rfl, (Except.ok.inj h).symm⟩
    rintro rfl
    cases hread

/-- **Typed and untyped integers are extracted alike.** A text of an integer that has been loaded
for a leaf of 64 bits and for a leaf of strings gives the same number in every type of integers of
at most 64 bits, or neither leaf can be extracted as this type. But where only zeros come behind a
minus sign, the leaf of 64 bits gives unsigned types zero, and the string cannot be extracted. -/
theorem LoadedWith.extract_integer_alike {type : IntegerType} (hwidth : type.width ≤ 64)
    (hraw : ∃ value, Convert.value .long raw = .ok value)
    (hlong : LoadedWith .long raw c typeName names)
    (hstring : LoadedWith (.object .string) raw c' typeName' names') :
    let fromLong := c.extract typeName (Target.within names (.integer type))
    let fromString := c'.extract typeName' (Target.within names' (.integer type))
    let exception := type.isSigned = false ∧ Numeric.IsMinusZero (Text.trim raw.toList)
    (exception →
      fromLong = .ok (Extracted.within names (.integer 0)) ∧
        ∃ fault, fromString = .error (.extract typeName' fault)) ∧
    (¬exception →
      (∃ n, fromLong = .ok (Extracted.within names (.integer n)) ∧
        fromString = .ok (Extracted.within names' (.integer n))) ∨
      (∃ fault, fromLong = .error (.extract typeName fault)) ∧
        ∃ fault, fromString = .error (.extract typeName' fault)) := by
  intro fromLong fromString exception
  obtain ⟨value, hvalue⟩ := hraw
  obtain ⟨hne, v, hread, rfl⟩ := Convert.exists_int64?_of_value hvalue
  have hfromLong : fromLong = _ :=
    hlong.extract_eq hne hvalue (by rw [Value.toToml?]) (.integer type)
  have hfromString : fromString = _ :=
    hstring.extract_eq hne (by rw [Convert.value, if_pos rfl]) (by rw [Value.toToml?])
      (.integer type)
  rcases Target.read_integer_or_text hwidth hread with
    ⟨hexception, hzero, fault, hfails⟩ | ⟨hplain, halike⟩
  · rw [hzero] at hfromLong
    rw [hfails] at hfromString
    exact ⟨fun _ => ⟨hfromLong, _, hfromString⟩, fun hplain => absurd hexception hplain⟩
  · refine ⟨fun hexception => absurd hexception hplain, fun _ => ?_⟩
    rcases halike with ⟨n, hn, hn'⟩ | ⟨⟨fault, hfails⟩, fault', hfails'⟩
    · rw [hn] at hfromLong
      rw [hn'] at hfromString
      exact Or.inl ⟨n, hfromLong, hfromString⟩
    · rw [hfails] at hfromLong
      rw [hfails'] at hfromString
      exact Or.inr ⟨⟨_, hfromLong⟩, _, hfromString⟩

end LoadedWith

/-- A root `a` with an integer of 64 bits and a string. -/
def longTextDecl : RootDecl where
  group := ⟨"AConfig", false,
    [⟨"n", .element, none, .primitive .long, false, none⟩,
      ⟨"s", .element, none, .object .string, false, none⟩]⟩
  name := .explicit "a"
  phase := .runTime

theorem built_longTextDecl :
    Built (RootDecl.Each (fun _ => True) List.Nodup) (empty.registerRoot longTextDecl).1 :=
  .register .empty ⟨fun _ _ _ _ => trivial, by
    simp [longTextDecl, GroupDecl.Each, FieldsEach, FieldDecl.Each, Shape.Each]⟩
    (Prod.ext rfl (by decide +kernel))

/-- A zero with a minus sign, which unsigned integers of 8 bits take from the integer only. -/
theorem extract_integer_alike_longTextDecl :
    let exception := IntegerType.uint8.isSigned = false ∧
      Numeric.IsMinusZero (Text.trim " -00".toList)
    IntegerType.uint8.width ≤ 64 ∧ (∃ value, Convert.value .long " -00" = .ok value) ∧ exception ∧
      ∃ c c', LoadedWith .long " -00" c "AConfig" ["n"] ∧
        LoadedWith (.object .string) " -00" c' "AConfig" ["s"] ∧
        c.extract "AConfig" (.struct "n" [("n", .integer .uint8)] false true) =
          .ok (.entries [("n", .integer 0)]) ∧
        ∃ fault, c'.extract "AConfig" (.struct "s" [("s", .integer .uint8)] false true) =
          .error (.extract "AConfig" fault) := by
  intro exception
  let d := (empty.registerRoot longTextDecl).1
  let l := Loader.ofNamespace "app"
  let source := (Properties.ofPairs [("app.a.n", " -00"), ("app.a.s", " -00")]).toSource
  obtain ⟨root, hroot, htype, hcontaining⟩ : ∃ root ∈ d.roots, root.typeName = "AConfig" ∧
      root.containingName = "a" := by
    have hroots : d.roots.any (fun root => root.typeName = "AConfig" ∧
        root.containingName = "a") = true := by decide +kernel
    obtain ⟨root, hroot, heq⟩ := List.any_eq_true.mp hroots
    exact ⟨root, hroot, of_decide_eq_true heq⟩
  have hrealized : ((d.realize .build).get? "a").isSome := by decide +kernel
  have hloads : ∀ (id : Nat) (kind : LeafKind) (ident name : String) (value : Value),
      (d.leaf? id).any (fun leaf => decide (leaf.kind = kind ∧ leaf.path = [.field ident] ∧
        leaf.root = "a")) = true →
      l.Reaches d id [] name → source.value? name = some " -00" →
      Convert.value kind " -00" = .ok value → ∃ c, LoadedWith kind " -00" c "AConfig" [ident] := by
    intro id kind ident name value hfacts hreaches htext hread
    obtain ⟨leaf, hleaf, heq⟩ := (Option.any_eq_true _ _).mp hfacts
    obtain ⟨rfl, hpath, hname⟩ := of_decide_eq_true heq
    have hfinds : l.Finds [] d (d.realize .build) leaf [] name :=
      ⟨⟨id, hleaf, hreaches⟩, by simp, hname ▸ hrealized⟩
    rw [← htype]
    have hfill : fillPath leaf.path [] = some [.field ident] := by
      rw [hpath]
      rfl
    exact Loaded.exists_loadedWith (.walked .build) built_longTextDecl hroot
      (hname.trans hcontaining.symm) hfill hfinds htext (Or.inr ⟨by decide, hread⟩)
  have hvalue : Convert.value .long " -00" = .ok (.long 0) := by
    have hread : Numeric.int64? (Text.trim " -00".toList) = some 0 := by decide +kernel
    rw [Convert.value, Convert.scalar, Convert.number, hread]
    rfl
  obtain ⟨c, hc⟩ : ∃ c, LoadedWith .long " -00" c "AConfig" ["n"] :=
    hloads 0 .long "n" "app.a.n" (.long 0) (by decide +kernel) (by decide +kernel)
      (by decide +kernel) hvalue
  obtain ⟨c', hc'⟩ : ∃ c, LoadedWith (.object .string) " -00" c "AConfig" ["s"] :=
    hloads 1 (.object .string) "s" "app.a.s" (.string " -00") (by decide +kernel)
      (by decide +kernel) (by decide +kernel) rfl
  have hwidth : IntegerType.uint8.width ≤ 64 := by decide
  have hraw : ∃ value, Convert.value .long " -00" = .ok value := ⟨.long 0, hvalue⟩
  have hexception : exception := ⟨rfl, ['0', '0'], by decide +kernel, by simp⟩
  obtain ⟨hzero, hfails⟩ := (hc.extract_integer_alike hwidth hraw hc').1 hexception
  exact ⟨hwidth, hraw, hexception, c, c', hc, hc', hzero, hfails⟩

end PropertyBinding

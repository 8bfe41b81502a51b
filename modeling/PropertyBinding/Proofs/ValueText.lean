import PropertyBinding.Plan.Text
import PropertyBinding.Proofs.JsonText
import PropertyBinding.Proofs.Traversal

/-!
# Reading stored values back

Every value is stored as a well-formed tree (`PlanText.wellFormed_ofValue`), so its text reads back
as that tree. What the tree is read as depends on three things: how deep containers stand within
each other, whether the keys of maps are in order and those of groups are distinct
(`PlanText.Storable`), and the floating-point numbers. If all of those are finite and read back from
their shortest digits, then so does the value (`PlanText.value?_ofValue`); one that is not finite is
stored as a null, and nothing is read (`PlanText.value?_eq_none`).
-/

namespace PropertyBinding

/-! ### Lists and entries -/

section Lists

variable {α : Type}

/-- Items that all read as themselves are read one after the other. -/
theorem mapM_eq_some {f : α → Option α} {items : List α} (h : ∀ a ∈ items, f a = some a) :
    items.mapM f = some items := by
  induction items with
  | nil => rfl
  | cons a items ih =>
    obtain ⟨ha, hitems⟩ := List.forall_mem_cons.mp h
    rw [List.mapM_cons, ha, ih hitems]
    rfl

/-- One item that is not read spoils the list. -/
theorem mapM_eq_none {β : Type} {f : α → Option β} {items : List α} {a : α} (ha : a ∈ items)
    (h : f a = none) : items.mapM f = none := by
  induction items with
  | nil => cases ha
  | cons first items ih =>
    rw [List.mapM_cons]
    rcases List.mem_cons.mp ha with rfl | ha
    · rw [h]
      rfl
    · rw [ih ha]
      cases f first <;> rfl

/-- Steps that each append their item build the list, if they do so in front of any rest that the
whole list has. -/
theorem foldl_eq_append {P : List α → Prop} {f : List α → α → List α}
    (hf : ∀ before a rest, P (before ++ a :: rest) → f before a = before ++ [a]) (items : List α)
    (before : List α) (h : P (before ++ items)) : items.foldl f before = before ++ items := by
  induction items generalizing before with
  | nil => rw [List.foldl_nil, List.append_nil]
  | cons a rest ih =>
    rw [List.foldl_cons, hf before a rest h]
    rw [List.append_cons before a rest] at h ⊢
    exact ih (before ++ [a]) h

variable {entries : Entries α}

/-- A key above all others comes last. -/
theorem Entries.insert_eq_append {key : String} (h : ∀ k ∈ Entries.keys entries, k < key)
    (value : α) : Entries.insert key value entries = entries ++ [(key, value)] := by
  induction entries with
  | nil => rfl
  | cons entry rest ih =>
    obtain ⟨k, v⟩ := entry
    obtain ⟨hk, hrest⟩ := List.forall_mem_cons.mp h
    have hne : k ≠ key := by
      rintro rfl
      exact String.lt_irrefl _ hk
    rw [Entries.insert, if_neg (String.lt_asymm hk), if_neg hne, ih hrest, List.cons_append]

/-- Entries in ascending order are sorted. -/
theorem Entries.Ascending.sorted_eq (h : Entries.Ascending entries) :
    Entries.sorted entries = entries := by
  refine foldl_eq_append (P := Entries.Ascending) (fun before entry rest h => ?_) entries [] h
  rw [Entries.Ascending, Entries.keys, List.map_append, List.pairwise_append] at h
  exact Entries.insert_eq_append (fun k hk => h.2.2 k hk entry.1 List.mem_cons_self) entry.2

/-- Entries with distinct keys that are put one after the other keep their order. -/
theorem Entries.foldl_put_eq (h : (Entries.keys entries).Nodup) :
    entries.foldl (fun acc entry => Entries.put entry.1 entry.2 acc) [] = entries := by
  refine foldl_eq_append (P := fun entries => (Entries.keys entries).Nodup)
    (fun before entry rest h => ?_) entries [] h
  refine Entries.put_eq_append ?_ entry.2
  rw [← Option.not_isSome_iff_eq_none, Entries.isSome_lookup_iff]
  intro hmem
  rw [Entries.keys, List.map_append] at h
  exact (List.nodup_append.mp h).2.2 _ hmem _ List.mem_cons_self rfl

end Lists

/-! ### Floating-point numbers within a value -/

mutual

/-- A value and all values within it. -/
def Value.parts : Value → List Value
  | .list items => .list items :: itemParts items
  | .optional (some v) => .optional (some v) :: v.parts
  | .group g => .group g :: g.parts
  | .map entries => .map entries :: entryParts entries
  | v => [v]

/-- The values within a group. -/
def Group.parts : Group → List Value
  | ⟨_, fields⟩ => entryParts fields

/-- The values within items. -/
def itemParts : List Value → List Value
  | [] => []
  | v :: vs => v.parts ++ itemParts vs

/-- The values within entries. -/
def entryParts : List (String × Value) → List Value
  | [] => []
  | (_, v) :: rest => v.parts ++ entryParts rest

end

theorem Value.parts_list (items : List Value) :
    (Value.list items).parts = .list items :: itemParts items := rfl

theorem Value.parts_present (v : Value) :
    (Value.optional (some v)).parts = .optional (some v) :: v.parts := rfl

theorem Value.parts_group (typeName : String) (fields : Entries Value) :
    (Value.group ⟨typeName, fields⟩).parts = .group ⟨typeName, fields⟩ :: entryParts fields := rfl

theorem Value.parts_map (entries : Entries Value) :
    (Value.map entries).parts = .map entries :: entryParts entries := rfl

theorem mem_itemParts {items : List Value} {w : Value} :
    w ∈ itemParts items ↔ ∃ v ∈ items, w ∈ v.parts := by
  induction items with
  | nil => simp [itemParts]
  | cons v items ih => simp [itemParts, ih]

theorem mem_entryParts {entries : Entries Value} {w : Value} :
    w ∈ entryParts entries ↔ ∃ entry ∈ entries, w ∈ entry.2.parts := by
  induction entries with
  | nil => simp [entryParts]
  | cons entry entries ih => simp [entryParts, ih]

namespace Value

variable {w : Value}

theorem mem_parts_list {items : List Value} :
    w ∈ (list items).parts ↔ w = list items ∨ ∃ v ∈ items, w ∈ v.parts := by
  rw [parts_list, List.mem_cons, mem_itemParts]

theorem mem_parts_present {v : Value} :
    w ∈ (optional (some v)).parts ↔ w = optional (some v) ∨ w ∈ v.parts := by
  rw [parts_present, List.mem_cons]

theorem mem_parts_group {g : Group} :
    w ∈ (group g).parts ↔ w = group g ∨ ∃ field ∈ g.fields, w ∈ field.2.parts := by
  obtain ⟨typeName, fields⟩ := g
  rw [parts_group, List.mem_cons, mem_entryParts]

theorem mem_parts_map {entries : Entries Value} :
    w ∈ (map entries).parts ↔ w = map entries ∨ ∃ entry ∈ entries, w ∈ entry.2.parts := by
  rw [parts_map, List.mem_cons, mem_entryParts]

end Value

/-- Whether a value is no floating-point number, or a finite one. -/
def Value.isFinite : Value → Bool
  | .float x => x.isFinite
  | .double x => x.isFinite
  | _ => true

/-- Whether a value is no floating-point number, or reads back from its shortest digits. -/
def Value.readsBack : Value → Bool
  | .float x => (JsonNumber.ofFloating .single x).toSingle? = some x
  | .double x => (JsonNumber.ofFloating .double x).toDouble? = some x
  | _ => true

namespace JsonNumber

/-- An integer of 64 bits is read back. -/
theorem toInt?_ofInt {n : Int} (hlow : Int64.minValue.toInt ≤ n) (hhigh : n < UInt64.size) :
    (ofInt n).toInt? = some n := by
  have hvalue : (Nat.toDigits 10 n.natAbs).foldl (fun m c => 10 * m + (c.toNat - '0'.toNat)) 0 =
      n.natAbs := Json.digitsValue_toDigits n.natAbs
  rw [toInt?, ofInt, if_neg (by simp)]
  dsimp only
  rw [hvalue]
  by_cases hneg : n < 0
  · have habs : -(n.natAbs : Int) = n := by omega
    rw [if_pos (by simpa using hneg), habs, if_pos ⟨by omega, hlow⟩]
  · have habs : (n.natAbs : Int) = n := by omega
    rw [if_neg (by simpa using hneg), if_pos (by omega), habs]

end JsonNumber

namespace PlanText

/-! ### Well-formed trees -/

theorem ofItems_eq (items : List Value) : ofItems items = items.map ofValue := by
  induction items with
  | nil => rfl
  | cons v items ih => rw [ofItems, ih, List.map_cons]

theorem ofEntries_eq (entries : Entries Value) :
    ofEntries entries = entries.map fun entry => (some entry.1, ofValue entry.2) := by
  induction entries with
  | nil => rfl
  | cons entry rest ih => rw [ofEntries, ih, List.map_cons]

/-- An alternative with a well-formed content. -/
theorem wellFormed_alternative {name : String} {content : Json} (h : content.WellFormed) :
    (Json.obj [(name, content)]).WellFormed :=
  Json.wellFormed_obj fun m hm => by rwa [List.mem_singleton.mp hm]

theorem wellFormed_ofFloating (layout : JsonNumber.Layout) {f : FloatFormat} (x : Floating f) :
    (ofFloating layout x).WellFormed := by
  rw [ofFloating]
  split_ifs
  · exact .number (JsonNumber.wellFormed_ofFloating layout x)
  · exact .null

/-- Integers are stored as well-formed trees. -/
theorem wellFormed_int (n : Int) : (Json.int n).WellFormed :=
  .number (JsonNumber.wellFormed_ofInt n)

mutual

/-- **Every value is stored as a well-formed tree.** -/
theorem wellFormed_ofValue : (v : Value) → (ofValue v).WellFormed
  | .bool b => wellFormed_alternative (.bool b)
  | .int n => wellFormed_alternative (wellFormed_int n.toInt)
  | .long n => wellFormed_alternative (wellFormed_int n.toInt)
  | .float x => wellFormed_alternative (wellFormed_ofFloating .single x)
  | .double x => wellFormed_alternative (wellFormed_ofFloating .double x)
  | .string s => wellFormed_alternative (.string s)
  | .path s => wellFormed_alternative (.string s)
  | .memorySize n => wellFormed_alternative (wellFormed_int n.toNat)
  | .list items => wellFormed_alternative (.array (wellFormed_ofItems items))
  | .optional none => wellFormed_alternative .null
  | .optional (some v) => wellFormed_alternative (wellFormed_ofValue v)
  | .unset => .string "Unset"
  | .group g => wellFormed_alternative (wellFormed_ofGroup g)
  | .map entries => wellFormed_alternative (wellFormed_ofEntries entries)

/-- Every group is stored as a well-formed tree. -/
theorem wellFormed_ofGroup : (g : Group) → (ofGroup g).WellFormed
  | ⟨typeName, fields⟩ => Json.wellFormed_obj (List.forall_mem_cons.mpr
      ⟨.string typeName, List.forall_mem_singleton.mpr (wellFormed_ofEntries fields)⟩)

/-- Items are stored as well-formed trees. -/
theorem wellFormed_ofItems : (items : List Value) → ∀ item ∈ ofItems items, item.WellFormed
  | [] => by simp [ofItems]
  | v :: vs => List.forall_mem_cons.mpr ⟨wellFormed_ofValue v, wellFormed_ofItems vs⟩

/-- Entries are stored as a well-formed object. -/
theorem wellFormed_ofEntries : (entries : List (String × Value)) →
    (Json.object (ofEntries entries)).WellFormed
  | [] => .object (by simp [ofEntries]) (by simp [ofEntries])
  | (key, v) :: rest => by
    cases wellFormed_ofEntries rest with
    | object hkeys hvalues =>
      exact .object (List.forall_mem_cons.mpr ⟨rfl, hkeys⟩)
        (List.forall_mem_cons.mpr ⟨wellFormed_ofValue v, hvalues⟩)

end

/-! ### Reading values -/

/-- A value that is read back with so many more containers allowed, if its floating-point numbers
are: it is not nested too deeply, maps are in ascending key order, and groups have no key twice. -/
inductive Storable : Nat → Value → Prop where
  | bool {depth : Nat} (b : Bool) : Storable (depth + 1) (.bool b)
  | int {depth : Nat} (n : Int32) : Storable (depth + 1) (.int n)
  | long {depth : Nat} (n : Int64) : Storable (depth + 1) (.long n)
  | float {depth : Nat} (x : Single) : Storable (depth + 1) (.float x)
  | double {depth : Nat} (x : Double) : Storable (depth + 1) (.double x)
  | string {depth : Nat} (s : String) : Storable (depth + 1) (.string s)
  | path {depth : Nat} (s : String) : Storable (depth + 1) (.path s)
  | memorySize {depth : Nat} (n : UInt64) : Storable (depth + 1) (.memorySize n)
  | list {depth : Nat} {items : List Value} (items_storable : ∀ v ∈ items, Storable depth v) :
      Storable (depth + 2) (.list items)
  | absent {depth : Nat} : Storable (depth + 1) (.optional none)
  | present {depth : Nat} {v : Value} (storable : Storable depth v) :
      Storable (depth + 1) (.optional (some v))
  | unset {depth : Nat} : Storable depth .unset
  | group {depth : Nat} {g : Group} (distinct : (Entries.keys g.fields).Nodup)
      (fields_storable : ∀ field ∈ g.fields, Storable depth field.2) :
      Storable (depth + 3) (.group g)
  | map {depth : Nat} {entries : Entries Value} (ascending : Entries.Ascending entries)
      (entries_storable : ∀ entry ∈ entries, Storable depth entry.2) :
      Storable (depth + 2) (.map entries)

section Reading

variable {depth : Nat}

/-- An integer between bounds within 64 bits is read back. -/
theorem integer?_int {low high n : Int} (hlow : low ≤ n) (hhigh : n ≤ high)
    (hmin : Int64.minValue.toInt ≤ low) (hmax : high < UInt64.size) :
    integer? low high (.int n) = some n := by
  have hread : (JsonNumber.ofInt n).toInt? = some n := JsonNumber.toInt?_ofInt (by omega) (by omega)
  change ((JsonNumber.ofInt n).toInt?).filter _ = _
  rw [hread, Option.filter_some, if_pos (by simp [hlow, hhigh])]

/-- A value is never stored as a null. -/
theorem value?_present (v : Value) :
    value? (depth + 1) (.obj [("Optional", ofValue v)]) =
      (value? depth (ofValue v)).map fun v => .optional (some v) := by
  cases v with
  | optional inner => cases inner <;> rfl
  | _ => rfl

/-- Entries are read one after the other. -/
theorem entries?_ofEntries (entries : Entries Value) :
    entries? (depth + 1) (ofEntries entries) =
      entries.mapM fun entry => (value? depth (ofValue entry.2)).map fun v => (entry.1, v) := by
  rw [entries?, ofEntries_eq, List.mapM_map]
  congr 1
  funext entry
  change (value? depth (ofValue entry.2)).bind _ = _
  cases value? depth (ofValue entry.2) <;> rfl

/-- A group is read by its entries. -/
theorem group?_ofGroup (g : Group) :
    group? (depth + 2) (ofGroup g) = (entries? (depth + 1) (ofEntries g.fields)).map fun fields =>
      ⟨g.typeName, fields.foldl (fun acc field => Entries.put field.1 field.2 acc) []⟩ := by
  obtain ⟨typeName, fields⟩ := g
  change (entries? (depth + 1) (ofEntries fields)).bind _ = _
  cases entries? (depth + 1) (ofEntries fields) <;> rfl

/-- **A storable value reads back**, if all floating-point numbers in it are finite and read back
from their shortest digits. -/
theorem value?_ofValue {v : Value} (h : Storable depth v)
    (hparts : ∀ w ∈ v.parts, w.isFinite = true ∧ w.readsBack = true) :
    value? depth (ofValue v) = some v := by
  induction h with
  | bool b => rfl
  | int n =>
    change (integer? _ _ (.int n.toInt)).map _ = _
    rw [integer?_int n.minValue_le_toInt n.toInt_le (by decide) (by decide), Option.map_some,
      Int32.ofInt_toInt]
  | long n =>
    change (integer? _ _ (.int n.toInt)).map _ = _
    rw [integer?_int n.minValue_le_toInt n.toInt_le (by decide) (by decide), Option.map_some,
      Int64.ofInt_toInt]
  | float x =>
    obtain ⟨hx, hread⟩ := hparts _ List.mem_cons_self
    have hfinite : x.isFinite = true := hx
    have hread : (JsonNumber.ofFloating .single x).toSingle? = some x := of_decide_eq_true hread
    change (single? (ofFloating .single x)).map _ = _
    rw [ofFloating, if_pos hfinite, single?, hread]
    rfl
  | double x =>
    obtain ⟨hx, hread⟩ := hparts _ List.mem_cons_self
    have hfinite : x.isFinite = true := hx
    have hread : (JsonNumber.ofFloating .double x).toDouble? = some x := of_decide_eq_true hread
    change (double? (ofFloating .double x)).map _ = _
    rw [ofFloating, if_pos hfinite, double?, hread]
    rfl
  | string s => rfl
  | path s => rfl
  | memorySize n =>
    have hsize := n.toNat_lt
    change (integer? _ _ (.int n.toNat)).map _ = _
    rw [integer?_int (by omega) (by simp only [UInt64.size]; omega) (by decide) (by decide),
      Option.map_some, Int.toNat_natCast, UInt64.ofNat_toNat]
  | @list depth items _ ih =>
    change (list? (depth + 1) (ofItems items)).map _ = _
    rw [list?, ofItems_eq, List.mapM_map, mapM_eq_some fun v hv => ?_]
    · rfl
    · exact ih v hv fun w hw => hparts w (Value.mem_parts_list.mpr (Or.inr ⟨v, hv, hw⟩))
  | absent => rfl
  | @present depth v _ ih =>
    rw [ofValue, value?_present,
      ih fun w hw => hparts w (Value.mem_parts_present.mpr (Or.inr hw))]
    rfl
  | unset => rw [ofValue, Json.str, value?]
  | @group depth g distinct _ ih =>
    change (group? (depth + 2) (ofGroup g)).map _ = _
    rw [group?_ofGroup, entries?_ofEntries, mapM_eq_some fun field hfield => ?_]
    · rw [Option.map_some, Option.map_some, Entries.foldl_put_eq distinct]
      cases g
      rfl
    · rw [ih field hfield fun w hw =>
        hparts w (Value.mem_parts_group.mpr (Or.inr ⟨field, hfield, hw⟩))]
      rfl
  | @map depth entries ascending _ ih =>
    change (entries? (depth + 1) (ofEntries entries)).map _ = _
    rw [entries?_ofEntries, mapM_eq_some fun entry hentry => ?_]
    · rw [Option.map_some, ascending.sorted_eq]
    · rw [ih entry hentry fun w hw =>
        hparts w (Value.mem_parts_map.mpr (Or.inr ⟨entry, hentry, hw⟩))]
      rfl

/-- Reading rounds more than once, so that not every number reads back from its digits. -/
example :
    let x : Double := .ofDecimal false 31245270191439438 (-15)
    (value? 1 (ofValue (.double x))).bind Value.asDouble? ≠ some x := by
  decide +kernel

/-- **A floating-point number that is not finite** is not read back, nor is any value with one in
it. -/
theorem value?_eq_none {v w : Value} (h : Storable depth v) (hw : w ∈ v.parts)
    (hfinite : w.isFinite = false) : value? depth (ofValue v) = none := by
  induction h with
  | float x =>
    obtain rfl := List.mem_singleton.mp hw
    have hx : x.isFinite = false := hfinite
    change (single? (ofFloating .single x)).map _ = _
    rw [ofFloating, hx]
    rfl
  | double x =>
    obtain rfl := List.mem_singleton.mp hw
    have hx : x.isFinite = false := hfinite
    change (double? (ofFloating .double x)).map _ = _
    rw [ofFloating, hx]
    rfl
  | @list depth items _ ih =>
    rcases Value.mem_parts_list.mp hw with rfl | ⟨v, hv, hw⟩
    · cases hfinite
    · change (list? (depth + 1) (ofItems items)).map _ = _
      rw [list?, ofItems_eq, List.mapM_map, mapM_eq_none hv (ih v hv hw)]
      rfl
  | @present depth v _ ih =>
    rcases Value.mem_parts_present.mp hw with rfl | hw
    · cases hfinite
    · rw [ofValue, value?_present, ih hw]
      rfl
  | @group depth g distinct _ ih =>
    rcases Value.mem_parts_group.mp hw with rfl | ⟨field, hfield, hw⟩
    · cases hfinite
    · change (group? (depth + 2) (ofGroup g)).map _ = _
      rw [group?_ofGroup, entries?_ofEntries, mapM_eq_none hfield (by rw [ih field hfield hw]; rfl)]
      rfl
  | @map depth entries ascending _ ih =>
    rcases Value.mem_parts_map.mp hw with rfl | ⟨entry, hentry, hw⟩
    · cases hfinite
    · change (entries? (depth + 1) (ofEntries entries)).map _ = _
      rw [entries?_ofEntries, mapM_eq_none hentry (by rw [ih entry hentry hw]; rfl)]
      rfl
  | _ =>
    obtain rfl := List.mem_singleton.mp hw
    cases hfinite

end Reading

end PlanText

end PropertyBinding

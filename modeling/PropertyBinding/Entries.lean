/-!
# Keyed entries

Lists of key–value pairs in the two orders that the library shows: the order in which keys were
first put (groups, sources, roots), and ascending key order (maps, children of a pattern node,
cells). Keys are compared by code point.
-/

namespace PropertyBinding

/-- Values under string keys. -/
abbrev Entries (α : Type) := List (String × α)

namespace Entries

variable {α : Type}

/-- Put a value under a key. A key already there keeps its position. -/
def put (key : String) (value : α) : Entries α → Entries α
  | [] => [(key, value)]
  | (k, v) :: rest => if k = key then (k, value) :: rest else (k, v) :: put key value rest

/-- Insert a value into entries that are in ascending key order, replacing what was there. -/
def insert (key : String) (value : α) : Entries α → Entries α
  | [] => [(key, value)]
  | (k, v) :: rest =>
    if key < k then (key, value) :: (k, v) :: rest
    else if k = key then (key, value) :: rest
    else (k, v) :: insert key value rest

/-- The entries in ascending key order; of equal keys the last one stays. -/
def sorted (entries : Entries α) : Entries α :=
  entries.foldl (fun acc entry => insert entry.1 entry.2 acc) []

/-- The keys, in order. -/
def keys (entries : Entries α) : List String :=
  entries.map (·.1)

/-- What has been put is found. -/
theorem lookup_put_self (key : String) (value : α) (entries : Entries α) :
    (put key value entries).lookup key = some value := by
  induction entries with
  | nil => simp [put]
  | cons entry rest ih =>
    obtain ⟨k, v⟩ := entry
    by_cases h : k = key
    · simp [put, h]
    · have h' : (key == k) = false := by simpa using fun e => h e.symm
      simp [put, h, List.lookup_cons, h', ih]

/-- Putting under one key leaves the other keys alone. -/
theorem lookup_put_of_ne {key other : String} (h : other ≠ key) (value : α) (entries : Entries α) :
    (put key value entries).lookup other = entries.lookup other := by
  induction entries with
  | nil =>
    have h' : (other == key) = false := by simpa using h
    simp [put, List.lookup_cons, h']
  | cons entry rest ih =>
    obtain ⟨k, v⟩ := entry
    by_cases hk : k = key
    · subst hk
      have h' : (other == k) = false := by simpa using h
      simp [put, List.lookup_cons, h']
    · simp only [put, hk, if_false, List.lookup_cons, ih]

/-- A new key comes last. -/
theorem put_eq_append {key : String} {entries : Entries α} (h : entries.lookup key = none)
    (value : α) : put key value entries = entries ++ [(key, value)] := by
  induction entries with
  | nil => rfl
  | cons entry rest ih =>
    obtain ⟨k, v⟩ := entry
    have hne : (key == k) = false := by
      cases hk : key == k with
      | false => rfl
      | true => simp [List.lookup_cons, hk] at h
    rw [List.lookup_cons, hne] at h
    have hk : k ≠ key := fun e => by simp [e] at hne
    rw [put, if_neg hk, ih h, List.cons_append]

/-- Putting keeps the keys, and adds one that is new. -/
theorem keys_put (key : String) (value : α) (entries : Entries α) :
    keys (put key value entries) =
      if key ∈ keys entries then keys entries else keys entries ++ [key] := by
  induction entries with
  | nil => simp [put, keys]
  | cons entry rest ih =>
    obtain ⟨k, v⟩ := entry
    by_cases hk : k = key
    · simp [put, keys, hk]
    · have hne : key ≠ k := fun e => hk e.symm
      simp only [keys, List.map_cons] at ih ⊢
      simp only [put, hk, if_false, List.map_cons, ih, List.mem_cons, hne, false_or]
      by_cases hmem : key ∈ rest.map (·.1) <;> simp [hmem]

/-- A key of entries after one has been put has been put, or it was there. -/
theorem mem_keys_put {key other : String} {value : α} {entries : Entries α} :
    other ∈ keys (put key value entries) ↔ other = key ∨ other ∈ keys entries := by
  rw [keys_put]
  split
  · rename_i hkey
    constructor
    · exact Or.inr
    · rintro (rfl | h)
      · exact hkey
      · exact h
  · rw [List.mem_append, List.mem_singleton, or_comm]

/-- Distinct keys stay distinct. -/
theorem nodup_keys_put {entries : Entries α} (h : (keys entries).Nodup) (key : String)
    (value : α) : (keys (put key value entries)).Nodup := by
  rw [keys_put]
  split
  · exact h
  · rename_i hnew
    rw [List.nodup_append]
    refine ⟨h, by simp, fun a ha b hb => ?_⟩
    rintro rfl
    exact hnew (List.mem_singleton.mp hb ▸ ha)

/-- A key that is found is one of the keys. -/
theorem isSome_lookup_iff {key : String} {entries : Entries α} :
    (entries.lookup key).isSome ↔ key ∈ keys entries := by
  induction entries with
  | nil => simp [keys]
  | cons entry rest ih =>
    obtain ⟨k, v⟩ := entry
    simp only [keys, List.map_cons, List.mem_cons] at ih ⊢
    by_cases hk : key = k
    · simp [hk]
    · have hne : (key == k) = false := by simpa using hk
      simp [List.lookup_cons, hne, hk, ih]

/-- What is found is one of the entries. -/
theorem mem_of_lookup {key : String} {value : α} {entries : Entries α}
    (h : entries.lookup key = some value) : (key, value) ∈ entries := by
  induction entries with
  | nil => cases h
  | cons entry rest ih =>
    obtain ⟨k, v⟩ := entry
    by_cases hk : key = k
    · subst hk
      obtain rfl : v = value := by simpa using h
      exact List.mem_cons_self
    · have hne : (key == k) = false := by simpa using hk
      rw [List.lookup_cons, hne] at h
      exact List.mem_cons_of_mem _ (ih h)

/-- One of the entries is found, if their keys are distinct. -/
theorem lookup_eq_of_mem {key : String} {value : α} {entries : Entries α}
    (hdistinct : (keys entries).Nodup) (h : (key, value) ∈ entries) :
    entries.lookup key = some value := by
  induction entries with
  | nil => cases h
  | cons entry rest ih =>
    obtain ⟨k, v⟩ := entry
    obtain ⟨hk, hrest⟩ := List.nodup_cons.mp hdistinct
    rcases List.mem_cons.mp h with heq | hmem
    · obtain ⟨rfl, rfl⟩ := Prod.mk.inj heq
      exact List.lookup_cons_self
    · have hkey : key ≠ k := fun heq => hk (List.mem_map.mpr ⟨_, hmem, heq⟩)
      have hne : (key == k) = false := by simpa using hkey
      rw [List.lookup_cons, hne]
      exact ih hrest hmem

/-- What has been inserted is found. -/
theorem lookup_insert_self (key : String) (value : α) (entries : Entries α) :
    (insert key value entries).lookup key = some value := by
  induction entries with
  | nil => simp [insert]
  | cons entry rest ih =>
    obtain ⟨k, v⟩ := entry
    by_cases hlt : key < k
    · simp [insert, hlt]
    by_cases heq : k = key
    · simp [insert, heq]
    · have hne : (key == k) = false := by simpa using fun e => heq e.symm
      simp only [insert, hlt, heq, if_false, List.lookup_cons, hne]
      exact ih

/-- Inserting under one key leaves the other keys alone. -/
theorem lookup_insert_of_ne {key other : String} (h : other ≠ key) (value : α)
    (entries : Entries α) : (insert key value entries).lookup other = entries.lookup other := by
  have hkey : (other == key) = false := by simpa using h
  induction entries with
  | nil => simp [insert, List.lookup_cons, hkey]
  | cons entry rest ih =>
    obtain ⟨k, v⟩ := entry
    by_cases hlt : key < k
    · simp only [insert, hlt, if_true, List.lookup_cons, hkey]
    by_cases heq : k = key
    · subst heq
      simp [insert, List.lookup_cons, hkey]
    · simp only [insert, hlt, heq, if_false, List.lookup_cons, ih]

/-- Entries with other values are found under the same keys. -/
theorem lookup_map {β : Type} (f : α → β) (key : String) (entries : Entries α) :
    (entries.map fun entry => (entry.1, f entry.2)).lookup key = (entries.lookup key).map f := by
  induction entries with
  | nil => rfl
  | cons entry rest ih =>
    rw [List.map_cons, List.lookup_cons, List.lookup_cons, ih]
    cases key == entry.1 <;> rfl

/-- Entries with other values are put under the same keys. -/
theorem map_put {β : Type} (f : α → β) (key : String) (value : α) (entries : Entries α) :
    ((put key value entries).map fun entry => (entry.1, f entry.2)) =
      put key (f value) (entries.map fun entry => (entry.1, f entry.2)) := by
  induction entries with
  | nil => rfl
  | cons entry rest ih =>
    obtain ⟨k, v⟩ := entry
    by_cases hk : k = key
    · simp [put, hk]
    · simp [put, hk, ih]

/-- What is put under a key replaces what was put there. -/
theorem put_put (key : String) (a b : α) (entries : Entries α) :
    put key b (put key a entries) = put key b entries := by
  induction entries with
  | nil => simp [put]
  | cons entry rest ih =>
    obtain ⟨k, v⟩ := entry
    by_cases hk : k = key
    · simp [put, hk]
    · simp [put, hk, ih]

/-- Putting what stands under a key changes nothing. -/
theorem put_eq_self {key : String} {value : α} {entries : Entries α}
    (h : entries.lookup key = some value) : put key value entries = entries := by
  induction entries with
  | nil => cases h
  | cons entry rest ih =>
    obtain ⟨k, v⟩ := entry
    by_cases hk : k = key
    · subst hk
      obtain rfl : v = value := by simpa using h
      simp [put]
    · have hne : (key == k) = false := by simpa using fun e => hk e.symm
      rw [List.lookup_cons, hne] at h
      rw [put, if_neg hk, ih h]

/-- Putting under two keys, one of which is there, may be done in either order. -/
theorem put_comm {key other : String} (hne : key ≠ other) {entries : Entries α}
    (hkey : key ∈ keys entries) (a b : α) :
    put key a (put other b entries) = put other b (put key a entries) := by
  induction entries with
  | nil => cases hkey
  | cons entry rest ih =>
    obtain ⟨k, v⟩ := entry
    by_cases hk : k = key
    · subst hk
      simp [put, hne]
    · have hrest : key ∈ keys rest := (List.mem_cons.mp hkey).resolve_left fun heq => hk heq.symm
      by_cases ho : k = other
      · subst ho
        simp [put, hk]
      · simp [put, hk, ho, ih hrest]

/-- A key of entries after an insertion has been inserted, or it was there. -/
theorem mem_keys_insert {key other : String} {value : α} {entries : Entries α} :
    other ∈ keys (insert key value entries) ↔ other = key ∨ other ∈ keys entries := by
  induction entries with
  | nil => simp [insert, keys]
  | cons entry rest ih =>
    obtain ⟨k, v⟩ := entry
    simp only [keys, List.map_cons, List.mem_cons] at ih ⊢
    by_cases hlt : key < k
    · simp [insert, hlt]
    by_cases heq : k = key
    · rw [insert, if_neg hlt, if_pos heq]
      simp [heq]
    · simp [insert, hlt, heq, ih, or_left_comm]

/-- What is inserted under a key replaces what was inserted there. -/
theorem insert_insert (key : String) (a b : α) (entries : Entries α) :
    insert key b (insert key a entries) = insert key b entries := by
  have hself : ∀ rest, insert key b ((key, a) :: rest) = (key, b) :: rest := fun rest => by
    rw [insert, if_neg (String.lt_irrefl key), if_pos rfl]
  induction entries with
  | nil => exact hself []
  | cons entry rest ih =>
    obtain ⟨k, v⟩ := entry
    by_cases hlt : key < k
    · simp only [insert, if_pos hlt, hself]
    by_cases heq : k = key
    · simp only [insert, if_neg hlt, if_pos heq, hself]
    · simp only [insert, if_neg hlt, if_neg heq, ih]

private theorem insert_comm_of_lt {key other : String} (h : key < other) (a b : α)
    (entries : Entries α) :
    insert key a (insert other b entries) = insert other b (insert key a entries) := by
  have hne : key ≠ other := fun heq => String.lt_irrefl _ (heq ▸ h)
  have hnot : ¬other < key := String.lt_asymm h
  induction entries with
  | nil => simp [insert, h, hne, hnot]
  | cons entry rest ih =>
    obtain ⟨k, v⟩ := entry
    -- The smaller key comes first, wherever the larger one goes.
    by_cases hkey : key < k
    · by_cases hother : other < k
      · simp [insert, h, hne, hnot, hkey, hother]
      by_cases heq : k = other
      · subst heq
        rw [insert, if_neg hother, if_pos rfl]
        simp [insert, h, hne, hnot]
      · simp [insert, hne, hnot, hkey, hother, heq]
    by_cases heq : k = key
    · subst heq
      rw [insert, if_neg hnot, if_neg hne, insert, if_neg hkey, if_pos rfl, insert, if_neg hkey,
        if_pos rfl, insert, if_neg hnot, if_neg hne]
    · have hk : k < other := String.lt_trans (Std.lt_of_le_of_ne (String.not_lt.mp hkey) heq) h
      have hk' : k ≠ other := fun e => String.lt_irrefl _ (e ▸ hk)
      simp [insert, hkey, heq, String.lt_asymm hk, hk', ih]

/-- Inserting under two keys may be done in either order. -/
theorem insert_comm {key other : String} (hne : key ≠ other) (a b : α) (entries : Entries α) :
    insert key a (insert other b entries) = insert other b (insert key a entries) := by
  by_cases h : key < other
  · exact insert_comm_of_lt h a b entries
  · exact (insert_comm_of_lt (Std.lt_of_le_of_ne (String.not_lt.mp h) hne.symm) b a entries).symm

end Entries

end PropertyBinding

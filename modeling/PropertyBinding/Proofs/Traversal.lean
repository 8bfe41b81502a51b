import Mathlib.Data.List.Nodup
import PropertyBinding.Proofs.Index

/-!
# Visiting the pattern index

A pattern map that has been built by binding is orderly (`Orderly`): the children of every node come
once, in ascending order and not under the wildcard, and below each of them a value is bound. So no
node is dead (`Orderly.exists_find?`), and the names of the children lead to the children, each once
(`Orderly.childNames_nodup`, `Orderly.mem_childNames_iff`).

A traversal visits the values that are bound in the map with the texts of their patterns. Behind the
texts stand the paths (`bindings`, `entriesFrom_eq`). In an orderly map these are exactly the paths
at which a value is found (`Orderly.mem_bindings_iff`), each once (`Orderly.nodup_paths`).
-/

namespace PropertyBinding

/-! ### Entries in ascending order -/

section Ascending

variable {α : Type} {key : String} {value : α} {entries : Entries α}

/-- Whether every key is below the next one. -/
def Entries.Ascending (entries : Entries α) : Prop :=
  (Entries.keys entries).Pairwise (· < ·)

theorem Entries.Ascending.nodup (h : Entries.Ascending entries) : (Entries.keys entries).Nodup :=
  h.imp fun hlt heq => by
    rw [heq] at hlt
    exact String.lt_irrefl _ hlt

/-- What stands among entries after an insertion has been inserted, or stood there. -/
theorem Entries.mem_insert {entry : String × α} (h : entry ∈ Entries.insert key value entries) :
    entry = (key, value) ∨ entry ∈ entries := by
  induction entries with
  | nil => exact Or.inl (List.mem_singleton.mp h)
  | cons first rest ih =>
    obtain ⟨k, v⟩ := first
    rw [Entries.insert] at h
    split_ifs at h
    · exact List.mem_cons.mp h
    · rcases List.mem_cons.mp h with rfl | h
      · exact Or.inl rfl
      · exact Or.inr (List.mem_cons_of_mem _ h)
    · rcases List.mem_cons.mp h with rfl | h
      · exact Or.inr List.mem_cons_self
      · exact (ih h).imp_right (List.mem_cons_of_mem _)

/-- Inserting keeps the order. -/
theorem Entries.Ascending.insert (h : Entries.Ascending entries) (key : String) (value : α) :
    Entries.Ascending (Entries.insert key value entries) := by
  induction entries with
  | nil => exact List.pairwise_singleton _ _
  | cons first rest ih =>
    obtain ⟨k, v⟩ := first
    obtain ⟨hfirst, hrest⟩ := List.pairwise_cons.mp h
    rw [Entries.insert]
    split_ifs with hlt heq
    · refine List.pairwise_cons.mpr ⟨fun other hother => ?_, h⟩
      rcases List.mem_cons.mp hother with rfl | hother
      · exact hlt
      · exact String.lt_trans hlt (hfirst other hother)
    · subst heq
      exact List.pairwise_cons.mpr ⟨hfirst, hrest⟩
    · refine List.pairwise_cons.mpr ⟨fun other hother => ?_, ih hrest⟩
      obtain ⟨entry, hentry, rfl⟩ := List.mem_map.mp hother
      rcases Entries.mem_insert hentry with rfl | hentry
      · exact Std.lt_of_le_of_ne (String.not_lt.mp hlt) heq
      · exact hfirst _ (List.mem_map_of_mem hentry)

/-- Inserting what stands under a key changes nothing. -/
theorem Entries.Ascending.insert_eq_self (h : Entries.Ascending entries)
    (hlookup : entries.lookup key = some value) : Entries.insert key value entries = entries := by
  induction entries with
  | nil => cases hlookup
  | cons first rest ih =>
    obtain ⟨k, v⟩ := first
    obtain ⟨hfirst, hrest⟩ := List.pairwise_cons.mp h
    by_cases hk : k = key
    · subst hk
      obtain rfl : v = value := by simpa using hlookup
      rw [Entries.insert, if_neg (String.lt_irrefl k), if_pos rfl]
    · have hne : (key == k) = false := by simpa using fun e => hk e.symm
      rw [List.lookup_cons, hne] at hlookup
      have hlt : k < key := hfirst key (List.mem_map_of_mem (Entries.mem_of_lookup hlookup))
      rw [Entries.insert, if_neg (String.lt_asymm hlt), if_neg hk, ih hrest hlookup]

/-- Sorted entries are in order. -/
theorem Entries.ascending_sorted (entries : Entries α) :
    Entries.Ascending (Entries.sorted entries) :=
  List.foldlRecOn (motive := Entries.Ascending) entries _ .nil fun _ h entry _ =>
    h.insert entry.1 entry.2

/-- Sorting entries makes no new ones. -/
theorem Entries.mem_sorted {entry : String × α} (h : entry ∈ Entries.sorted entries) :
    entry ∈ entries := by
  refine List.foldlRecOn (motive := fun acc : Entries α => ∀ e ∈ acc, e ∈ entries) entries _
    (List.forall_mem_nil _) (fun acc hacc first hfirst e he => ?_) entry h
  rcases Entries.mem_insert he with rfl | he
  · exact hfirst
  · exact hacc e he

/-- Sorting entries loses no keys. -/
theorem Entries.mem_keys_sorted (h : key ∈ Entries.keys entries) :
    key ∈ Entries.keys (Entries.sorted entries) := by
  have hrun : ∀ acc : Entries α, key ∈ Entries.keys entries ∨ key ∈ Entries.keys acc →
      key ∈ Entries.keys (entries.foldl (fun acc e => Entries.insert e.1 e.2 acc) acc) := by
    clear h
    induction entries with
    | nil => exact fun acc hmem => hmem.resolve_left List.not_mem_nil
    | cons first rest ih =>
      intro acc hmem
      refine ih _ ?_
      rcases hmem with hmem | hmem
      · rcases List.mem_cons.mp hmem with rfl | hmem
        · exact Or.inr (Entries.mem_keys_insert.mpr (Or.inl rfl))
        · exact Or.inl hmem
      · exact Or.inr (Entries.mem_keys_insert.mpr (Or.inr hmem))
  exact hrun [] (Or.inl h)

/-- Sorting keeps entries, if none of them have a key in common. -/
theorem Entries.mem_sorted_iff (h : ∀ e ∈ entries, ∀ e' ∈ entries, e.1 = e'.1 → e = e')
    {entry : String × α} : entry ∈ Entries.sorted entries ↔ entry ∈ entries := by
  refine ⟨Entries.mem_sorted, fun hentry => ?_⟩
  obtain ⟨other, hother, heq⟩ :=
    List.mem_map.mp (Entries.mem_keys_sorted (List.mem_map_of_mem hentry))
  rwa [← h other (Entries.mem_sorted hother) entry hentry heq]

end Ascending

namespace PatternMap

variable {α : Type}

/-! ### Nodes -/

/-- The node that a path of pattern segments leads to. -/
def node? : List String → PatternMap α → Option (PatternMap α)
  | [], m => some m
  | segment :: path, m => (m.child? segment).bind (node? path)

/-- Whether a value is bound in the map. -/
def Bears (m : PatternMap α) : Prop := ∃ path value, m.find? path = some value

/-- Whether the literal children of every node come once, in ascending order and not under the
wildcard, and a value is bound below every child. -/
inductive Orderly : PatternMap α → Prop where
  | node {bound : Option α} {literals : List (String × PatternMap α)}
      {any : Option (PatternMap α)} (ascending : Entries.Ascending literals)
      (plain : wildcard ∉ Entries.keys literals)
      (below : ∀ segment child, (segment, child) ∈ literals → Orderly child)
      (bears : ∀ segment child, (segment, child) ∈ literals → child.Bears)
      (under : ∀ child, any = some child → Orderly child)
      (bears_any : ∀ child, any = some child → child.Bears) : Orderly (.node bound literals any)

theorem orderly_empty : (empty : PatternMap α).Orderly :=
  .node List.Pairwise.nil List.not_mem_nil (by simp) (by simp) (by simp) (by simp)

/-- A map in which a value has been bound bears it. -/
theorem bears_of_insertAt {value : α} {path : List String} {m m' : PatternMap α}
    (h : insertAt value path m = some m') : m'.Bears :=
  ⟨path, value, by rw [find?_insertAt h, if_pos rfl]⟩

/-- **Binding keeps a map orderly**: the nodes on the path of the new value bear it. -/
theorem Orderly.insertAt {value : α} {path : List String} {m m' : PatternMap α} (hm : m.Orderly)
    (h : insertAt value path m = some m') : m'.Orderly := by
  induction path generalizing m m' with
  | nil =>
    obtain @⟨b, lits, wild, ascending, plain, below, bears, under, bears_any⟩ := hm
    cases b with
    | some b => simp [PatternMap.insertAt] at h
    | none =>
      obtain rfl : PatternMap.node (some value) lits wild = m' := by
        simpa [PatternMap.insertAt] using h
      exact .node ascending plain below bears under bears_any
  | cons segment path ih =>
    obtain @⟨b, lits, wild, ascending, plain, below, bears, under, bears_any⟩ := hm
    rw [PatternMap.insertAt] at h
    split_ifs at h with hw
    · obtain ⟨child, hchild, rfl⟩ := Option.map_eq_some_iff.mp h
      have hwild : (wild.getD empty).Orderly := by
        cases wild with
        | none => exact orderly_empty
        | some child => exact under child rfl
      refine .node ascending plain below bears (fun other hother => ?_) fun other hother => ?_
      · obtain rfl := Option.some.inj hother
        exact ih hwild hchild
      · obtain rfl := Option.some.inj hother
        exact bears_of_insertAt hchild
    · obtain ⟨child, hchild, rfl⟩ := Option.map_eq_some_iff.mp h
      have hlit : ((lits.lookup segment).getD empty).Orderly := by
        cases hl : lits.lookup segment with
        | none => exact orderly_empty
        | some child => exact below segment child (Entries.mem_of_lookup hl)
      refine .node (ascending.insert segment child) (fun hmem => ?_) (fun other child' hother => ?_)
        (fun other child' hother => ?_) under bears_any
      · obtain ⟨entry, hentry, hkey⟩ := List.mem_map.mp hmem
        rcases Entries.mem_insert hentry with rfl | hentry
        · exact hw hkey
        · exact plain (hkey ▸ List.mem_map_of_mem hentry)
      · rcases Entries.mem_insert hother with heq | hother
        · obtain ⟨rfl, rfl⟩ := Prod.mk.inj heq
          exact ih hlit hchild
        · exact below other child' hother
      · rcases Entries.mem_insert hother with heq | hother
        · obtain ⟨rfl, rfl⟩ := Prod.mk.inj heq
          exact bears_of_insertAt hchild
        · exact bears other child' hother

section Nodes

variable {m n child : PatternMap α} {segment : String} {path : List String} {value : α}

/-- The children of an orderly map are orderly and bear values. -/
theorem Orderly.of_child? (h : m.Orderly) (hchild : m.child? segment = some child) :
    child.Orderly ∧ child.Bears := by
  obtain @⟨b, lits, wild, ascending, plain, below, bears, under, bears_any⟩ := h
  rw [child?] at hchild
  split_ifs at hchild with hw
  · exact ⟨under child hchild, bears_any child hchild⟩
  · have hmem := Entries.mem_of_lookup hchild
    exact ⟨below segment child hmem, bears segment child hmem⟩

/-- All nodes of an orderly map are orderly. -/
theorem Orderly.of_node? (h : m.Orderly) (hnode : m.node? path = some n) : n.Orderly := by
  induction path generalizing m with
  | nil =>
    obtain rfl := Option.some.inj hnode
    exact h
  | cons segment path ih =>
    obtain ⟨child, hchild, hrest⟩ := Option.bind_eq_some_iff.mp hnode
    exact ih (h.of_child? hchild).1 hrest

/-- **No node is dead**: every node of an orderly map but the top one is on the path of a bound
value. -/
theorem Orderly.exists_find? (h : m.Orderly) (hnode : m.node? path = some n) (hne : path ≠ []) :
    ∃ rest value, m.find? (path ++ rest) = some value := by
  induction path generalizing m with
  | nil => exact absurd rfl hne
  | cons segment path ih =>
    obtain ⟨child, hchild, hrest⟩ := Option.bind_eq_some_iff.mp hnode
    obtain ⟨horderly, hbears⟩ := h.of_child? hchild
    have hbelow : ∃ rest value, child.find? (path ++ rest) = some value := by
      cases path with
      | nil => exact hbears
      | cons next path => exact ih horderly hrest (List.cons_ne_nil _ _)
    obtain ⟨rest, value, hfind⟩ := hbelow
    exact ⟨rest, value, by rw [List.cons_append, find?_cons, hchild, Option.bind_some, hfind]⟩

/-- The names of the children of an orderly map come once. -/
theorem Orderly.childNames_nodup (h : m.Orderly) : m.childNames.Nodup := by
  obtain @⟨b, lits, wild, ascending, plain, below, bears, under, bears_any⟩ := h
  refine List.nodup_append.mpr ⟨ascending.nodup, ?_, fun name hname other hother heq => ?_⟩
  · split <;> simp
  · split at hother
    · obtain rfl := List.mem_singleton.mp hother
      exact plain (heq ▸ hname)
    · cases hother

/-- The names of the children of an orderly map are those that lead to one. -/
theorem Orderly.mem_childNames_iff (h : m.Orderly) :
    segment ∈ m.childNames ↔ (m.child? segment).isSome := by
  obtain @⟨b, lits, wild, ascending, plain, below, bears, under, bears_any⟩ := h
  have hkeys : segment ∈ childNames (.node b lits wild) ↔
      segment ∈ Entries.keys lits ∨ wild.isSome ∧ segment = wildcard := by
    rw [childNames, List.mem_append]
    refine or_congr Iff.rfl ?_
    cases wild <;> simp [any]
  rw [hkeys, child?]
  split_ifs with hw
  · subst hw
    simp [plain, any]
  · rw [literals, Entries.isSome_lookup_iff]
    simp [hw]

end Nodes

/-! ### Visiting the bound values -/

mutual

/-- The bound values, each with its path: the node's own value, then those under the literal
children in ascending order, then those under the wildcard child. -/
def bindings : PatternMap α → List (List String × α)
  | .node bound literals any =>
    (bound.map fun value => ([], value)).toList ++ literalBindings literals ++ anyBindings any

/-- The bound values under literal children. -/
def literalBindings : List (String × PatternMap α) → List (List String × α)
  | [] => []
  | (segment, child) :: rest =>
    child.bindings.map (fun b => (segment :: b.1, b.2)) ++ literalBindings rest

/-- The bound values under the wildcard child. -/
def anyBindings : Option (PatternMap α) → List (List String × α)
  | none => []
  | some child => child.bindings.map fun b => (wildcard :: b.1, b.2)

end

mutual

/-- **Behind the visited patterns stand the paths**: each pattern is the one that the traversal set
out with, extended by the segments of a path. -/
theorem entriesFrom_eq : (m : PatternMap α) → ∀ pattern : String,
    m.entriesFrom pattern = m.bindings.map fun b => (b.1.foldl extend pattern, b.2)
  | .node bound literals any, pattern => by
    rw [entriesFrom, bindings, List.map_append, List.map_append, literalEntries_eq literals,
      anyEntries_eq any]
    cases bound <;> rfl

/-- Behind the patterns under literal children stand the paths. -/
theorem literalEntries_eq : (literals : List (String × PatternMap α)) → ∀ pattern : String,
    literalEntries pattern literals =
      (literalBindings literals).map fun b => (b.1.foldl extend pattern, b.2)
  | [], pattern => by rw [literalEntries, literalBindings]; rfl
  | (segment, child) :: rest, pattern => by
    rw [literalEntries, literalBindings, List.map_append, List.map_map, entriesFrom_eq child,
      literalEntries_eq rest]
    rfl

/-- Behind the patterns under the wildcard child stand the paths. -/
theorem anyEntries_eq : (any : Option (PatternMap α)) → ∀ pattern : String,
    anyEntries pattern any = (anyBindings any).map fun b => (b.1.foldl extend pattern, b.2)
  | none, pattern => by rw [anyEntries, anyBindings]; rfl
  | some child, pattern => by
    rw [anyEntries, anyBindings, List.map_map, entriesFrom_eq child]
    rfl

end

/-- The bound values under literal children, child by child. -/
theorem literalBindings_eq (literals : List (String × PatternMap α)) :
    literalBindings literals = literals.flatMap fun entry =>
      entry.2.bindings.map fun b => (entry.1 :: b.1, b.2) := by
  induction literals with
  | nil => rw [literalBindings]; rfl
  | cons entry rest ih => rw [literalBindings, ih, List.flatMap_cons]

/-- What is bound below a child. -/
def bindingsBelow (m : PatternMap α) (segment : String) : List (List String × α) :=
  ((m.child? segment).map fun child =>
    child.bindings.map fun b => (segment :: b.1, b.2)).getD []

section Bindings

variable {m : PatternMap α} {path : List String} {value : α}

/-- A traversal of an orderly map is one by the names of the children. -/
theorem Orderly.bindings_eq (h : m.Orderly) :
    m.bindings = (m.bound.map fun value => ([], value)).toList ++
      m.childNames.flatMap m.bindingsBelow := by
  obtain @⟨b, lits, wild, ascending, plain, below, bears, under, bears_any⟩ := h
  have hlits : literalBindings lits =
      (Entries.keys lits).flatMap (bindingsBelow (.node b lits wild)) := by
    rw [literalBindings_eq, Entries.keys, List.flatMap_map]
    refine List.flatMap_congr fun entry hentry => ?_
    have hw : entry.1 ≠ wildcard := fun heq => plain (heq ▸ List.mem_map_of_mem hentry)
    rw [bindingsBelow, child?, if_neg hw, literals, Entries.lookup_eq_of_mem ascending.nodup hentry]
    rfl
  have hwild : anyBindings wild =
      (if wild.isSome then [wildcard] else []).flatMap (bindingsBelow (.node b lits wild)) := by
    cases wild with
    | none => rw [anyBindings]; rfl
    | some child => simp [anyBindings, bindingsBelow, child?, any]
  rw [bindings, hlits, hwild, childNames, List.flatMap_append, List.append_assoc]
  rfl

/-- What is bound below a child is bound at a path that begins with the child's segment. -/
theorem mem_bindingsBelow_iff {segment : String} :
    (path, value) ∈ m.bindingsBelow segment ↔ ∃ child rest, m.child? segment = some child ∧
      path = segment :: rest ∧ (rest, value) ∈ child.bindings := by
  rw [bindingsBelow]
  cases m.child? segment with
  | none => simp
  | some child => simp [and_comm, eq_comm]

/-- **The visited paths** of an orderly map are those at which a value is found. -/
theorem Orderly.mem_bindings_iff (h : m.Orderly) :
    (path, value) ∈ m.bindings ↔ m.find? path = some value := by
  induction path generalizing m with
  | nil => simp [h.bindings_eq, mem_bindingsBelow_iff]
  | cons segment path ih =>
    have hown : (segment :: path, value) ∉
        (m.bound.map fun v => (([] : List String), v)).toList := by simp
    rw [h.bindings_eq, List.mem_append, or_iff_right hown, List.mem_flatMap, find?_cons,
      Option.bind_eq_some_iff]
    constructor
    · rintro ⟨name, -, hbelow⟩
      obtain ⟨child, rest, hchild, heq, hmem⟩ := mem_bindingsBelow_iff.mp hbelow
      obtain ⟨rfl, rfl⟩ := List.cons.inj heq
      exact ⟨child, hchild, (ih (h.of_child? hchild).1).mp hmem⟩
    · rintro ⟨child, hchild, hfind⟩
      have hname : segment ∈ m.childNames := h.mem_childNames_iff.mpr (by rw [hchild]; rfl)
      exact ⟨segment, hname, mem_bindingsBelow_iff.mpr
        ⟨child, path, hchild, rfl, (ih (h.of_child? hchild).1).mpr hfind⟩⟩

/-- Every path of an orderly map is visited once, if the paths of its children are. -/
private theorem nodup_paths_of_children (h : m.Orderly)
    (hchildren : ∀ segment child, m.child? segment = some child →
      (child.bindings.map (·.1)).Nodup) : (m.bindings.map (·.1)).Nodup := by
  have hfirst : ∀ segment, ∀ path ∈ (m.bindingsBelow segment).map (·.1),
      path.head? = some segment := by
    intro segment path hpath
    obtain ⟨⟨path, value⟩, hmem, rfl⟩ := List.mem_map.mp hpath
    obtain ⟨child, rest, -, rfl, -⟩ := mem_bindingsBelow_iff.mp hmem
    rfl
  rw [h.bindings_eq, List.map_append, List.map_flatMap, List.nodup_append, List.nodup_flatMap]
  refine ⟨?_, ⟨fun segment _ => ?_, h.childNames_nodup.imp fun hne path hpath hpath' => ?_⟩,
    fun path hpath other hother heq => ?_⟩
  · cases m.bound <;> simp
  · rw [bindingsBelow]
    cases hchild : m.child? segment with
    | none => exact List.nodup_nil
    | some child =>
      rw [Option.map_some, Option.getD_some, List.map_map]
      have hpaths := (hchildren segment child hchild).map (List.cons_injective (a := segment))
      rwa [List.map_map] at hpaths
  · -- Paths below different children begin differently.
    exact hne (Option.some.inj ((hfirst _ _ hpath).symm.trans (hfirst _ _ hpath')))
  · -- The top node's own value has the empty path.
    obtain ⟨segment, -, hbelow⟩ := List.mem_flatMap.mp hother
    have hhead := hfirst segment other hbelow
    rw [← heq] at hhead
    cases hb : m.bound with
    | none => simp [hb] at hpath
    | some value =>
      obtain rfl : path = [] := by simpa [hb] using hpath
      cases hhead

/-- **Every path of an orderly map is visited once.** -/
theorem Orderly.nodup_paths (h : m.Orderly) : (m.bindings.map (·.1)).Nodup := by
  induction h with
  | @node b lits wild ascending plain below bears under bears_any ihbelow ihunder =>
    refine nodup_paths_of_children (.node ascending plain below bears under bears_any)
      fun segment child hchild => ?_
    rw [child?] at hchild
    split_ifs at hchild
    · exact ihunder child hchild
    · exact ihbelow segment child (Entries.mem_of_lookup hchild)

end Bindings

end PatternMap

end PropertyBinding

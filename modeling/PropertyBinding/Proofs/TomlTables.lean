import PropertyBinding.Proofs.Traversal
import PropertyBinding.Toml.Reader

/-!
# Tables of documents

The keys of a document's tables ascend (`Toml.parse?_ordered`), and so every value stands at one
path of keys. A table gets its keys in this order when it is finished. Until then the reader holds
it open, and it must not put a finished table into an open one (`Toml.OpenItem.Open`); scalars and
strings are all that it finishes on the way.
-/

namespace PropertyBinding

/-- What stands among entries after one has been put has been put, or stood there. -/
theorem Entries.mem_put {α : Type} {key : String} {value : α} {entries : Entries α}
    {entry : String × α} (h : entry ∈ Entries.put key value entries) :
    entry = (key, value) ∨ entry ∈ entries := by
  induction entries with
  | nil => exact Or.inl (List.mem_singleton.mp h)
  | cons first rest ih =>
    obtain ⟨k, v⟩ := first
    rw [Entries.put] at h
    split_ifs at h with hk
    · subst hk
      exact (List.mem_cons.mp h).imp_right (List.mem_cons_of_mem _)
    · rcases List.mem_cons.mp h with rfl | h
      · exact Or.inr List.mem_cons_self
      · exact (ih h).imp_right (List.mem_cons_of_mem _)

namespace Toml

/-- Whether the value is a table. -/
def isTable : Toml → Bool
  | .table _ => true
  | _ => false

/-- Whether the keys ascend in a table and in the tables within it, those in arrays apart. -/
inductive Ordered : Toml → Prop where
  | table {entries : List (String × Toml)} (ascending : Entries.Ascending entries)
      (below : ∀ entry ∈ entries, Ordered entry.2) : Ordered (.table entries)
  | other {v : Toml} (noTable : v.isTable = false) : Ordered v

/-! ### Open tables -/

/-- Whether no finished table stands in an item, arrays apart. -/
inductive OpenItem.Open : OpenItem → Prop where
  | value {v : Toml} (noTable : v.isTable = false) : Open (.value v)
  | array (items : List OpenItem) : Open (.array items)
  | inlineTable {t : OpenTable} (below : ∀ entry ∈ t.items, Open entry.2) : Open (.inlineTable t)
  | table {t : OpenTable} (below : ∀ entry ∈ t.items, Open entry.2) : Open (.table t)
  | tables (ts : List OpenTable) : Open (.tables ts)

/-- Whether no finished table stands in an open one. -/
def OpenTable.Open (t : OpenTable) : Prop := ∀ entry ∈ t.items, entry.2.Open

namespace OpenTable

variable {t t' : OpenTable} {item : OpenItem} {key : String}

theorem open_empty : empty.Open := List.forall_mem_nil _

theorem Open.put (h : t.Open) (hitem : item.Open) (key : String) : (t.put key item).Open := by
  intro entry hentry
  rcases Entries.mem_put hentry with rfl | hentry
  · exact hitem
  · exact h entry hentry

theorem Open.putLast (h : t.Open) (hitem : item.Open) (key : String) :
    (t.putLast key item).Open := by
  intro entry hentry
  rcases List.mem_append.mp hentry with hentry | hentry
  · exact h entry (List.mem_filter.mp hentry).1
  · rw [List.mem_singleton.mp hentry]
    exact hitem

theorem Open.lookup (h : t.Open) (hlookup : t.items.lookup key = some item) : item.Open :=
  h (key, item) (Entries.mem_of_lookup hlookup)

/-- A change of the table at the end of a path keeps tables open, if it does so itself. -/
theorem Open.descend {dotted : Bool} {change : OpenTable → Option OpenTable}
    (hchange : ∀ t t', t.Open → change t = some t' → t'.Open) {path : List String} (h : t.Open)
    (hdescend : descend dotted change path t = some t') : t'.Open := by
  induction path generalizing t t' with
  | nil => exact hchange t t' h hdescend
  | cons key path ih =>
    rw [OpenTable.descend] at hdescend
    have hitem : ((t.items.lookup key).getD (.table ⟨true, dotted, []⟩)).Open := by
      cases hlookup : t.items.lookup key with
      | none => exact .table (List.forall_mem_nil _)
      | some item => exact h.lookup hlookup
    revert hdescend hitem
    cases (t.items.lookup key).getD (.table ⟨true, dotted, []⟩) with
    | table child =>
      intro hdescend hitem
      cases hitem with
      | table hchild =>
        simp only at hdescend
        split_ifs at hdescend
        obtain ⟨child', hchild', rfl⟩ := Option.map_eq_some_iff.mp hdescend
        exact h.put (.table (ih hchild hchild')) key
    | tables ts =>
      intro hdescend _
      cases ts with
      | nil => cases hdescend
      | cons last before =>
        obtain ⟨last', -, rfl⟩ := Option.map_eq_some_iff.mp hdescend
        exact h.put (.tables _) key
    | _ => exact fun hdescend _ => nomatch hdescend

theorem Open.insertItem {path : List String} (h : t.Open) (hitem : item.Open)
    (hinsert : t.insertItem path item = some t') : t'.Open := by
  rw [OpenTable.insertItem] at hinsert
  cases hlast : path.getLast? with
  | none =>
    rw [hlast] at hinsert
    cases hinsert
  | some last =>
    rw [hlast] at hinsert
    refine h.descend (fun t t' ht hchange => ?_) hinsert
    split_ifs at hchange
    obtain rfl := Option.some.inj hchange
    exact ht.put hitem last

theorem Open.open? (h : t.Open) (hopen : t.open? key = some t') : t'.Open := by
  rw [OpenTable.open?] at hopen
  split at hopen
  · obtain rfl := Option.some.inj hopen
    exact h.put (.table open_empty) key
  · rename_i child hlookup
    split_ifs at hopen
    obtain rfl := Option.some.inj hopen
    cases h.lookup hlookup with
    | table hchild =>
      exact h.putLast (@OpenItem.Open.table { child with implied := false } hchild) key
  · cases hopen

theorem Open.append? (h : t.Open) (happend : t.append? key = some t') : t'.Open := by
  rw [OpenTable.append?] at happend
  split at happend
  · obtain rfl := Option.some.inj happend
    exact h.put (.tables _) key
  · obtain rfl := Option.some.inj happend
    exact h.put (.tables _) key
  · cases happend

end OpenTable

/-! ### Finishing -/

/-- What finished entries come from. -/
theorem exists_of_mem_closeEntries? {items : List (String × OpenItem)}
    {entries : List (String × Toml)} (h : closeEntries? items = some entries)
    {entry : String × Toml} (hentry : entry ∈ entries) :
    ∃ item, (entry.1, item) ∈ items ∧ item.close? = some entry.2 := by
  induction items generalizing entries with
  | nil =>
    rw [closeEntries?] at h
    obtain rfl := Option.some.inj h
    cases hentry
  | cons first rest ih =>
    obtain ⟨key, item⟩ := first
    rw [closeEntries?] at h
    obtain ⟨v, hv, h⟩ := Option.bind_eq_some_iff.mp h
    obtain ⟨others, hothers, h⟩ := Option.bind_eq_some_iff.mp h
    obtain rfl := Option.some.inj h
    rcases List.mem_cons.mp hentry with rfl | hentry
    · exact ⟨item, List.mem_cons_self, hv⟩
    · obtain ⟨item', hmem, hclose⟩ := ih hothers hentry
      exact ⟨item', List.mem_cons_of_mem _ hmem, hclose⟩

/-- Entries whose items are finished in order are in order. -/
theorem ordered_sorted_of_closeEntries? {items : List (String × OpenItem)}
    {entries : List (String × Toml)} (h : closeEntries? items = some entries)
    (hitems : ∀ entry ∈ items, ∀ v, entry.2.close? = some v → Ordered v) :
    Ordered (.table (Entries.sorted entries)) := by
  refine .table (Entries.ascending_sorted entries) fun entry hentry => ?_
  obtain ⟨item, hmem, hclose⟩ := exists_of_mem_closeEntries? h (Entries.mem_sorted hentry)
  exact hitems _ hmem _ hclose

/-- A table is finished in order if its items are. -/
theorem OpenTable.ordered_of_close? {t : OpenTable} {v : Toml} (h : t.close? = some v)
    (hitems : ∀ entry ∈ t.items, ∀ v, entry.2.close? = some v → Ordered v) : Ordered v := by
  obtain ⟨implied, dotted, items⟩ := t
  rw [close?] at h
  split at h
  · rename_i item _
    cases item with
    | value w =>
      cases w with
      | string s =>
        obtain ⟨d, -, rfl⟩ := Option.map_eq_some_iff.mp h
        exact .other rfl
      | _ => cases h
    | _ => cases h
  · obtain ⟨entries, hentries, rfl⟩ := Option.map_eq_some_iff.mp h
    exact ordered_sorted_of_closeEntries? hentries hitems

/-- Open items are finished in order. -/
theorem OpenItem.Open.ordered {item : OpenItem} (h : item.Open) {v : Toml}
    (hclose : item.close? = some v) : Ordered v := by
  induction h generalizing v with
  | value noTable =>
    rw [close?] at hclose
    obtain rfl := Option.some.inj hclose
    exact .other noTable
  | array items =>
    rw [close?] at hclose
    obtain ⟨vs, -, rfl⟩ := Option.map_eq_some_iff.mp hclose
    exact .other rfl
  | inlineTable _ ih | table _ ih =>
    rw [close?] at hclose
    exact OpenTable.ordered_of_close? hclose fun entry hentry v hv => ih entry hentry hv
  | tables ts =>
    rw [close?] at hclose
    obtain ⟨vs, -, rfl⟩ := Option.map_eq_some_iff.mp hclose
    exact .other rfl

/-! ### Reading -/

/-- Whether what may have been read is no table. -/
def NoTable (found : Option Toml) : Prop := ∀ v, found = some v → v.isTable = false

namespace NoTable

theorem none : NoTable none := fun _ h => nomatch h

theorem pure {v : Toml} (h : v.isTable = false) : NoTable (some v) := by
  rintro _ ⟨⟩
  exact h

theorem bind {α : Type} {found : Option α} {f : α → Option Toml} (h : ∀ a, NoTable (f a)) :
    NoTable (found.bind f) := by
  intro v hv
  obtain ⟨a, -, hv⟩ := Option.bind_eq_some_iff.mp hv
  exact h a v hv

theorem map {α : Type} {found : Option α} {f : α → Toml} (h : ∀ a, (f a).isTable = false) :
    NoTable (found.map f) := by
  intro v hv
  obtain ⟨a, -, rfl⟩ := Option.map_eq_some_iff.mp hv
  exact h a

theorem ite {c : Prop} [Decidable c] {yes no : Option Toml} (hyes : NoTable yes)
    (hno : NoTable no) : NoTable (if c then yes else no) := by
  split_ifs
  · exact hyes
  · exact hno

theorem or {first second : Option Toml} (hfirst : NoTable first) (hsecond : NoTable second) :
    NoTable (first.or second) := by
  intro v hv
  rcases Option.or_eq_some_iff.mp hv with hv | ⟨-, hv⟩
  · exact hfirst v hv
  · exact hsecond v hv

end NoTable

theorem noTable_int64? (n : Int) : NoTable (int64? n) := .ite (.pure rfl) .none

theorem noTable_integer? (cs : List Char) : NoTable (integer? cs) := by
  have hbased : ∀ base cs, NoTable (basedInteger? base cs) := fun base cs =>
    .bind fun digits => .bind fun n => noTable_int64? n
  unfold integer?
  split
  · exact hbased _ _
  · exact hbased _ _
  · exact hbased _ _
  · exact .bind fun digits => noTable_int64? _

theorem noTable_float? (cs : List Char) : NoTable (float? cs) := by
  unfold float?
  refine .ite (.pure rfl) (.ite (.pure rfl) (.ite .none (.bind fun whole => ?_)))
  -- There may be a fraction or not, and then an exponent or not.
  refine .ite (.bind fun fraction => ?_) (.bind fun fraction => ?_)
  all_goals
    refine .ite (.bind fun exponent => ?_) (.bind fun exponent => ?_)
    all_goals exact .ite .none (.pure rfl)

/-- Scalars are no tables. -/
theorem noTable_scalar? (cs : List Char) : NoTable (scalar? cs) :=
  .ite (.pure rfl) (.ite (.pure rfl)
    ((NoTable.map fun _ => rfl).or ((noTable_integer? cs).or (noTable_float? cs))))

/-- **What reading keeps**: values are read as open items, and pairs are put into tables that stay
open. -/
theorem open_of_read (fuel : Nat) :
    (∀ depth cs item rest, readValue fuel depth cs = some (item, rest) → item.Open) ∧
      ∀ depth t cs t' rest, t.Open → readPairs fuel depth t cs = some (t', rest) → t'.Open := by
  induction fuel with
  | zero =>
    constructor
    · intro depth cs item rest h
      rw [readValue] at h
      cases h
    · intro depth t cs t' rest _ h
      rw [readPairs] at h
      cases h
  | succ fuel ih =>
    obtain ⟨ihValue, ihPairs⟩ := ih
    constructor
    · intro depth cs item rest h
      unfold readValue at h
      split at h
      · -- A string, in marks of either kind.
        obtain ⟨found, -, h⟩ := Option.map_eq_some_iff.mp h
        obtain ⟨rfl, -⟩ := Prod.mk.inj h
        exact .value rfl
      · obtain ⟨found, -, h⟩ := Option.map_eq_some_iff.mp h
        obtain ⟨rfl, -⟩ := Prod.mk.inj h
        exact .value rfl
      · -- An array.
        split_ifs at h
        obtain ⟨found, -, h⟩ := Option.map_eq_some_iff.mp h
        obtain ⟨rfl, -⟩ := Prod.mk.inj h
        exact .array _
      · -- An inline table, without and with pairs.
        split_ifs at h
        split at h
        · obtain ⟨rfl, -⟩ := Prod.mk.inj (Option.some.inj h)
          exact .inlineTable OpenTable.open_empty
        · obtain ⟨found, hfound, h⟩ := Option.map_eq_some_iff.mp h
          obtain ⟨rfl, -⟩ := Prod.mk.inj h
          exact .inlineTable (ihPairs _ _ _ _ _ OpenTable.open_empty hfound)
      · -- A scalar.
        obtain ⟨v, hv, h⟩ := Option.map_eq_some_iff.mp h
        obtain ⟨rfl, -⟩ := Prod.mk.inj h
        exact .value (noTable_scalar? _ v hv)
    · intro depth t cs t' rest ht h
      rw [readPairs] at h
      obtain ⟨key, -, h⟩ := Option.bind_eq_some_iff.mp h
      obtain ⟨rest₁, -, h⟩ := Option.bind_eq_some_iff.mp h
      obtain ⟨item, hitem, h⟩ := Option.bind_eq_some_iff.mp h
      obtain ⟨t₁, ht₁, h⟩ := Option.bind_eq_some_iff.mp h
      have hopen : t₁.Open := ht.insertItem (ihValue _ _ _ _ hitem) ht₁
      split at h
      · exact ihPairs _ _ _ _ _ hopen h
      · obtain ⟨rfl, -⟩ := Prod.mk.inj (Option.some.inj h)
        exact hopen
      · cases h

/-- A line keeps the tables of a document open. -/
theorem OpenTable.Open.readLine {root root' : OpenTable} {header header' : List String}
    {cs rest : List Char} (h : root.Open)
    (hread : readLine root header cs = some (root', header', rest)) : root'.Open := by
  unfold Toml.readLine at hread
  split at hread
  · -- The header of one more table in an array.
    obtain ⟨key, -, hread⟩ := Option.bind_eq_some_iff.mp hread
    obtain ⟨rest₁, -, hread⟩ := Option.bind_eq_some_iff.mp hread
    obtain ⟨rest₂, -, hread⟩ := Option.bind_eq_some_iff.mp hread
    obtain ⟨rest₃, -, hread⟩ := Option.bind_eq_some_iff.mp hread
    obtain ⟨last, -, hread⟩ := Option.bind_eq_some_iff.mp hread
    obtain ⟨root₁, hroot, hread⟩ := Option.bind_eq_some_iff.mp hread
    obtain ⟨rfl, -⟩ := Prod.mk.inj (Option.some.inj hread)
    exact h.descend (fun t t' ht hchange => ht.append? hchange) hroot
  · -- The header of a table.
    obtain ⟨key, -, hread⟩ := Option.bind_eq_some_iff.mp hread
    obtain ⟨rest₁, -, hread⟩ := Option.bind_eq_some_iff.mp hread
    obtain ⟨rest₂, -, hread⟩ := Option.bind_eq_some_iff.mp hread
    obtain ⟨last, -, hread⟩ := Option.bind_eq_some_iff.mp hread
    obtain ⟨root₁, hroot, hread⟩ := Option.bind_eq_some_iff.mp hread
    obtain ⟨rfl, -⟩ := Prod.mk.inj (Option.some.inj hread)
    exact h.descend (fun t t' ht hchange => ht.open? hchange) hroot
  · -- A key with a value.
    obtain ⟨key, -, hread⟩ := Option.bind_eq_some_iff.mp hread
    obtain ⟨rest₁, -, hread⟩ := Option.bind_eq_some_iff.mp hread
    obtain ⟨item, hitem, hread⟩ := Option.bind_eq_some_iff.mp hread
    obtain ⟨rest₂, -, hread⟩ := Option.bind_eq_some_iff.mp hread
    obtain ⟨root₁, hroot, hread⟩ := Option.bind_eq_some_iff.mp hread
    obtain ⟨rfl, -⟩ := Prod.mk.inj (Option.some.inj hread)
    have hopen := (open_of_read _).1 _ _ _ _ hitem
    exact h.descend (fun t t' ht hchange => ht.insertItem hopen hchange) hroot

/-- The lines of a document keep its tables open. -/
theorem OpenTable.Open.readLines {fuel : Nat} {root root' : OpenTable} {header : List String}
    {cs : List Char} (h : root.Open) (hread : readLines fuel root header cs = some root') :
    root'.Open := by
  induction fuel generalizing root header cs with
  | zero =>
    rw [Toml.readLines] at hread
    cases hread
  | succ fuel ih =>
    unfold Toml.readLines at hread
    split at hread
    · obtain rfl := Option.some.inj hread
      exact h
    · obtain ⟨rest, -, hread⟩ := Option.bind_eq_some_iff.mp hread
      exact ih h hread
    · split at hread
      · exact ih h hread
      · split at hread
        · rename_i hline
          exact ih (h.readLine hline) hread
        · cases hread

/-- **The tables of a document are in order.** -/
theorem parse?_ordered {text : String} {entries : Entries Toml} (h : parse? text = some entries) :
    Ordered (.table entries) := by
  rw [parse?] at h
  obtain ⟨root, hroot, h⟩ := Option.bind_eq_some_iff.mp h
  obtain ⟨closed, hclosed, rfl⟩ := Option.map_eq_some_iff.mp h
  have hopen : root.Open := OpenTable.open_empty.readLines hroot
  exact ordered_sorted_of_closeEntries? hclosed fun entry hentry _ => (hopen entry hentry).ordered

end Toml

end PropertyBinding

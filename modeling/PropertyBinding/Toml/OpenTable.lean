import PropertyBinding.Toml
import PropertyBinding.Toml.Datetime.Reader

/-!
# Tables under construction

The tables of a document while its lines are read. Headers, dotted keys and inline tables make
tables by different rules, so a table knows how it was made; and its entries stand in the order in
which they were made, because the first one decides what the finished table is: a table that begins
with the datetime key stands for a date or a time.
-/

namespace PropertyBinding.Toml

mutual

/-- A table under construction. -/
structure OpenTable where
  /-- Whether the table has only been passed on the way to another. -/
  implied : Bool
  /-- Whether the table has been made by a dotted key. -/
  dotted : Bool
  items : List (String × OpenItem)

/-- What stands under a key of a table under construction. -/
inductive OpenItem where
  /-- A value that is no array and no table. -/
  | value (v : Toml)
  | array (items : List OpenItem)
  /-- A table between braces, which nothing can be added to. -/
  | inlineTable (t : OpenTable)
  | table (t : OpenTable)
  /-- The tables of an array that headers make, the last one first. -/
  | tables (ts : List OpenTable)

end

namespace OpenTable

/-- A table without entries. -/
def empty : OpenTable := ⟨false, false, []⟩

/-- The table with an item under a key, where what was there before stands. -/
def put (key : String) (item : OpenItem) (t : OpenTable) : OpenTable :=
  { t with items := Entries.put key item t.items }

/-- The table with an item under a key, behind all other entries. -/
def putLast (key : String) (item : OpenItem) (t : OpenTable) : OpenTable :=
  { t with items := t.items.filter (·.1 ≠ key) ++ [(key, item)] }

/-- The table after `change` has been applied to the table at the end of a path. Missing tables are
made on the way; of an array of tables the last one is meant. A dotted key must not lead into a
table that a header has opened. -/
def descend (dotted : Bool) (change : OpenTable → Option OpenTable) :
    List String → OpenTable → Option OpenTable
  | [], t => change t
  | key :: path, t =>
    match (t.items.lookup key).getD (.table ⟨true, dotted, []⟩) with
    | .table child =>
      if dotted && !child.implied then none
      else (descend dotted change path child).map fun child => t.put key (.table child)
    | .tables (last :: before) =>
      (descend dotted change path last).map fun last => t.put key (.tables (last :: before))
    | .value _ | .array _ | .inlineTable _ | .tables [] => none

/-- The table with an item under a key. -/
def insertItem (key : List String) (item : OpenItem) (t : OpenTable) : Option OpenTable :=
  match key.getLast? with
  | none => none
  | some last =>
    let path := key.dropLast
    descend true (fun t =>
      if t.dotted == path.isEmpty ∨ (t.items.lookup last).isSome then none
      else some (t.put last item)) path t

/-- The table with the table that a header opens under a key. It must be new, or have been implied
by another header; it then goes behind the entries that have been made meanwhile. -/
def open? (last : String) (t : OpenTable) : Option OpenTable :=
  match t.items.lookup last with
  | none => some (t.put last (.table empty))
  | some (.table child) =>
    if child.implied && !child.dotted then
      some (t.putLast last (.table { child with implied := false }))
    else none
  | some _ => none

/-- The table with one more table in the array under the key of a header. -/
def append? (last : String) (t : OpenTable) : Option OpenTable :=
  match t.items.lookup last with
  | none => some (t.put last (.tables [empty]))
  | some (.tables ts) => some (t.put last (.tables (empty :: ts)))
  | some _ => none

end OpenTable

/-! ### Finishing -/

/-- The key that marks a table as a date or a time. -/
def datetimeKey : String := "$__toml_private_datetime"

/-- The item under the datetime key, if a table begins with it. -/
def datetimeItem? : List (String × OpenItem) → Option OpenItem
  | (key, item) :: _ => if key = datetimeKey then some item else none
  | [] => none

/-- The date or time that a string stands for. -/
def OpenItem.datetime? : OpenItem → Option Toml
  | .value (.string s) => (Toml.datetime? s.toList).map .datetime
  | _ => none

mutual

/-- The finished form of a table. If it begins with the datetime key, the string there must stand
for a date or a time, and the other entries do not count. -/
def OpenTable.close? : OpenTable → Option Toml
  | ⟨_, _, items⟩ =>
    match datetimeItem? items with
    | some item => item.datetime?
    | none => (closeEntries? items).map fun entries => .table (Entries.sorted entries)

/-- The finished form of an item. -/
def OpenItem.close? : OpenItem → Option Toml
  | .value v => some v
  | .array items => (closeItems? items).map .array
  | .inlineTable t | .table t => t.close?
  | .tables ts => (closeTables? ts).map fun tables => .array tables.reverse

/-- The finished forms of items under keys. -/
def closeEntries? : List (String × OpenItem) → Option (List (String × Toml))
  | [] => some []
  | (key, item) :: rest => do
    let v ← item.close?
    let entries ← closeEntries? rest
    return (key, v) :: entries

/-- The finished forms of items. -/
def closeItems? : List OpenItem → Option (List Toml)
  | [] => some []
  | item :: rest => do
    let v ← item.close?
    let vs ← closeItems? rest
    return v :: vs

/-- The finished forms of tables. -/
def closeTables? : List OpenTable → Option (List Toml)
  | [] => some []
  | t :: rest => do
    let v ← t.close?
    let vs ← closeTables? rest
    return v :: vs

end

/-- The entries of the finished root table of a document, in which no key is special. -/
def OpenTable.closeRoot? (root : OpenTable) : Option (Entries Toml) :=
  (closeEntries? root.items).map Entries.sorted

end PropertyBinding.Toml

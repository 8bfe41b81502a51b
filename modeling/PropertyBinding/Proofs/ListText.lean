import Mathlib.Data.List.Basic
import PropertyBinding.Convert
import PropertyBinding.Text.Split

/-!
# Lists as text

Joining writes a backslash in front of every comma of an item, and reading takes a comma behind a
backslash to its item. So an item is read as it was written over any text that follows, unless it
ends in a backslash and a comma comes next (`Convert.itemsFrom_escapeCommas_append`): then the
backslash counts for this comma, and the item and the next one become one.

Every such item but the last costs one item (`Convert.length_itemsFrom_joined`), and reading drops
the empty ones. A list is therefore read back from its text if and only if it is separable: no item
is empty, and none but the last ends in a backslash (`Convert.splitList_joinItems_iff`). Items
without commas are their own texts (`Text.joinItems_eq_intercalate`).
-/

namespace PropertyBinding

namespace Text

/-- Whether a text ends in a backslash. -/
def EndsInBackslash (cs : List Char) : Prop := cs.getLast? = some '\\'

instance (cs : List Char) : Decidable (EndsInBackslash cs) :=
  inferInstanceAs (Decidable (_ = _))

/-- Whether the commas between items that are joined can be told from those within items: no item
is empty, and none but the last ends in a backslash. -/
def Separable (items : List String) : Prop :=
  (∀ item ∈ items, item ≠ "") ∧ ∀ item ∈ items.dropLast, ¬EndsInBackslash item.toList

instance (items : List String) : Decidable (Separable items) :=
  inferInstanceAs (Decidable (_ ∧ _))

/-! ### Joining -/

/-- An escaped text does not begin with a comma. -/
theorem head?_escapeCommas_ne (cs : List Char) : (escapeCommas cs).head? ≠ some ',' := by
  cases cs with
  | nil => simp [escapeCommas]
  | cons c cs =>
    rw [escapeCommas, List.flatMap_cons]
    split_ifs with hc <;> simp [hc]

theorem escapeCommas_append (as bs : List Char) :
    escapeCommas (as ++ bs) = escapeCommas as ++ escapeCommas bs :=
  List.flatMap_append

theorem escapeCommas_of_not_mem {cs : List Char} (h : ',' ∉ cs) : escapeCommas cs = cs := by
  have hsingle : ∀ c ∈ cs, (if c = ',' then ['\\', ','] else [c]) = [c] := by
    intro c hc
    refine if_neg ?_
    rintro rfl
    exact h hc
  rw [escapeCommas, List.flatMap_congr hsingle, List.flatMap_singleton']

/-- Escaped items with commas between them. -/
def joined (items : List (List Char)) : List Char :=
  [','].intercalate (items.map escapeCommas)

theorem joined_singleton (item : List Char) : joined [item] = escapeCommas item := by
  rw [joined, List.map_singleton, List.intercalate_singleton]

theorem joined_cons_cons (item next : List Char) (items : List (List Char)) :
    joined (item :: next :: items) = escapeCommas item ++ ',' :: joined (next :: items) := by
  simp [joined, List.intercalate]

theorem toList_joinItems (items : List String) :
    (joinItems items).toList = joined (items.map String.toList) := by
  rw [joinItems, joined, String.toList_intercalate, List.map_map, List.map_map]
  simp [Function.comp_def]

/-- Joining gives the empty text for no items, and for one that is empty. -/
theorem joinItems_eq_empty_iff {items : List String} :
    joinItems items = "" ↔ items = [] ∨ items = [""] := by
  rw [← String.toList_eq_nil_iff, toList_joinItems]
  cases items with
  | nil => exact iff_of_true rfl (Or.inl rfl)
  | cons item rest =>
    cases rest with
    | nil =>
      have hescape : escapeCommas item.toList = [] ↔ item.toList = [] := by
        cases item.toList with
        | nil => simp [escapeCommas]
        | cons c cs =>
          rw [escapeCommas, List.flatMap_cons]
          split_ifs <;> simp
      rw [List.map_singleton, joined_singleton, hescape, String.toList_eq_nil_iff]
      simp
    | cons next rest =>
      rw [List.map_cons, List.map_cons, joined_cons_cons]
      simp

/-- Items without commas are joined as they are. -/
theorem joinItems_eq_intercalate {items : List String} (h : ∀ item ∈ items, ',' ∉ item.toList) :
    joinItems items = String.intercalate "," items := by
  have hself : ∀ item ∈ items, String.ofList (escapeCommas item.toList) = item := by
    intro item hitem
    rw [escapeCommas_of_not_mem (h item hitem), String.ofList_toList]
  rw [joinItems, List.map_congr_left hself, List.map_id']

end Text

namespace Convert

open Text

variable {current cs rest : List Char} {items : List (List Char)}

/-! ### One item -/

/-- **An escaped item is read as it was**, over any text in front of which its last character is no
backslash for a comma. -/
theorem itemsFrom_escapeCommas_append (h : EndsInBackslash cs → rest.head? ≠ some ',') :
    itemsFrom current (escapeCommas cs ++ rest) = itemsFrom (current ++ cs) rest := by
  induction cs generalizing current with
  | nil => simp [escapeCommas]
  | cons c cs ih =>
    have hends : EndsInBackslash cs → EndsInBackslash (c :: cs) := by
      intro hcs
      have hne : cs ≠ [] := by
        rintro rfl
        cases hcs
      rwa [EndsInBackslash, List.getLast?_cons_of_ne_nil hne]
    have hrest : ∀ current, itemsFrom current (escapeCommas cs ++ rest) =
        itemsFrom (current ++ cs) rest := fun current => ih fun hcs => h (hends hcs)
    by_cases hc : c = ','
    · subst hc
      have hescape : escapeCommas (',' :: cs) = '\\' :: ',' :: escapeCommas cs := rfl
      rw [hescape, List.cons_append, List.cons_append, itemsFrom, hrest, List.append_assoc,
        List.singleton_append]
    · have hescape : escapeCommas (c :: cs) = c :: escapeCommas cs := by
        rw [escapeCommas, List.flatMap_cons, if_neg hc]
        rfl
      -- What follows the character begins with a comma only if it was the last of the item.
      have hnext : c = '\\' → (escapeCommas cs ++ rest).head? ≠ some ',' := by
        rintro rfl
        cases cs with
        | nil => exact h rfl
        | cons d cs =>
          rw [List.head?_append]
          cases hhead : (escapeCommas (d :: cs)).head? with
          | none =>
            rw [List.head?_eq_none_iff, escapeCommas, List.flatMap_cons] at hhead
            split_ifs at hhead <;> simp at hhead
          | some e =>
            rw [Option.some_or, ← hhead]
            exact head?_escapeCommas_ne _
      rw [hescape, List.cons_append, itemsFrom_cons hc hnext, hrest, List.append_assoc,
        List.singleton_append]

/-- An item that does not end in a backslash is one item in front of a comma. -/
theorem itemsFrom_item (h : ¬EndsInBackslash cs) (rest : List Char) :
    itemsFrom current (escapeCommas cs ++ ',' :: rest) = (current ++ cs) :: itemsFrom [] rest := by
  rw [itemsFrom_escapeCommas_append fun hends => absurd hends h, itemsFrom_comma]

/-- An item that ends in a backslash gives it away for the comma that follows, and goes on. -/
theorem itemsFrom_item_of_endsInBackslash (h : EndsInBackslash cs) (rest : List Char) :
    itemsFrom current (escapeCommas cs ++ ',' :: rest) =
      itemsFrom (current ++ cs.dropLast ++ [',']) rest := by
  have hsplit : cs = cs.dropLast ++ ['\\'] := (List.dropLast_append_getLast? _ h).symm
  have hescape : escapeCommas cs = escapeCommas cs.dropLast ++ ['\\'] := by
    conv_lhs => rw [hsplit, escapeCommas_append]
    rfl
  rw [hescape, List.append_assoc, List.singleton_append,
    itemsFrom_escapeCommas_append fun _ => by simp, itemsFrom]

/-! ### All items -/

theorem itemsFrom_joined_singleton (current item : List Char) :
    itemsFrom current (joined [item]) = [current ++ item] := by
  have happend : itemsFrom current (escapeCommas item ++ []) = itemsFrom (current ++ item) [] :=
    itemsFrom_escapeCommas_append fun _ => by simp
  rw [List.append_nil] at happend
  rw [joined_singleton, happend, itemsFrom]

/-- **Every item but the last that ends in a backslash costs one item.** -/
theorem length_itemsFrom_joined (current : List Char) (hne : items ≠ []) :
    (itemsFrom current (joined items)).length +
      items.dropLast.countP (fun item => decide (EndsInBackslash item)) = items.length := by
  induction items generalizing current with
  | nil => exact absurd rfl hne
  | cons item items ih =>
    cases items with
    | nil => rw [itemsFrom_joined_singleton]; rfl
    | cons next items =>
      rw [joined_cons_cons, List.dropLast_cons_of_ne_nil (List.cons_ne_nil next items),
        List.countP_cons, List.length_cons]
      by_cases hends : EndsInBackslash item
      · rw [itemsFrom_item_of_endsInBackslash hends, if_pos (decide_eq_true hends), ← Nat.add_assoc,
          ih _ (List.cons_ne_nil next items)]
      · rw [itemsFrom_item hends, if_neg (by simpa using hends), Nat.add_zero, List.length_cons,
          Nat.add_right_comm, ih _ (List.cons_ne_nil next items)]

/-- If none but the last ends in a backslash, the items are those that have been joined. -/
theorem itemsFrom_joined (hne : items ≠ []) (h : ∀ item ∈ items.dropLast, ¬EndsInBackslash item) :
    itemsFrom [] (joined items) = items := by
  induction items with
  | nil => exact absurd rfl hne
  | cons item items ih =>
    cases items with
    | nil => rw [itemsFrom_joined_singleton, List.nil_append]
    | cons next items =>
      rw [List.dropLast_cons_of_ne_nil (List.cons_ne_nil next items)] at h
      obtain ⟨hitem, hrest⟩ := List.forall_mem_cons.mp h
      rw [joined_cons_cons, itemsFrom_item hitem, List.nil_append,
        ih (List.cons_ne_nil next items) hrest]

/-- **A list is read back from its text** if and only if it is separable. -/
theorem splitList_joinItems_iff (items : List String) :
    splitList (joinItems items) = items ↔ Separable items := by
  by_cases hnil : items = []
  · subst hnil
    exact iff_of_true (by decide) (by decide)
  have hne : items.map String.toList ≠ [] := by simpa using hnil
  have hdrop : (∀ cs ∈ (items.map String.toList).dropLast, ¬EndsInBackslash cs) ↔
      ∀ item ∈ items.dropLast, ¬EndsInBackslash item.toList := by
    rw [← List.map_dropLast, List.forall_mem_map]
  have hempty : (∀ cs ∈ items.map String.toList, decide (cs ≠ []) = true) ↔
      ∀ item ∈ items, item ≠ "" := by
    simp [String.toList_eq_nil_iff]
  rw [splitList, toList_joinItems]
  constructor
  · intro hread
    -- Nothing has been dropped and nothing has been put together, for want of items otherwise.
    have hcount := length_itemsFrom_joined [] hne
    have hlength := congrArg List.length hread
    have hle := List.length_filter_le (fun cs => decide (cs ≠ []))
      (itemsFrom [] (joined (items.map String.toList)))
    rw [List.length_map] at hlength hcount
    have hzero : (items.map String.toList).dropLast.countP
        (fun item => decide (EndsInBackslash item)) = 0 := by omega
    have hends : ∀ cs ∈ (items.map String.toList).dropLast, ¬EndsInBackslash cs := by
      simpa using List.countP_eq_zero.mp hzero
    have hall := List.length_filter_eq_length_iff.mp (by omega :
      ((itemsFrom [] (joined (items.map String.toList))).filter fun cs =>
        decide (cs ≠ [])).length = _)
    rw [itemsFrom_joined hne hends] at hall
    exact ⟨hempty.mp hall, hdrop.mp hends⟩
  · rintro ⟨hitems, hends⟩
    rw [itemsFrom_joined hne (hdrop.mpr hends), List.filter_eq_self.mpr (hempty.mpr hitems),
      List.map_map]
    simp [Function.comp_def]

/-- No item that is read is empty. -/
theorem ne_empty_of_mem_splitList {raw item : String} (h : item ∈ splitList raw) : item ≠ "" := by
  obtain ⟨cs, hcs, rfl⟩ := List.mem_map.mp h
  rw [ne_eq, ← String.toList_eq_nil_iff, String.toList_ofList]
  exact of_decide_eq_true (List.mem_filter.mp hcs).2

/-! ### List leaves -/

/-- A leaf for lists of strings takes every text, as the items that it is cut into. -/
theorem value_stringList (raw : String) :
    value (.objectList .string) raw = .ok (.list ((splitList raw).map .string)) := by
  have hread : (splitList raw).mapM (scalar .string) = .ok ((splitList raw).map .string) :=
    List.mapM_pure
  rw [value, hread]
  rfl

/-- **A leaf for lists of strings reads joined items as they were** if and only if they are
separable. -/
theorem value_joinItems_iff (items : List String) :
    value (.objectList .string) (joinItems items) = .ok (.list (items.map .string)) ↔
      Separable items := by
  have hinj : Function.Injective Value.string := fun _ _ h => Value.string.inj h
  rw [value_stringList, Except.ok.injEq, Value.list.injEq, hinj.list_map.eq_iff,
    splitList_joinItems_iff]

/-- Joining and reading give the items of a separable list as they were; the text of a list with an
item that ends in a backslash in front of others gives other ones. -/
example : splitList (joinItems ["a,b", "c\\"]) = ["a,b", "c\\"] ∧
    splitList (joinItems ["a\\", "b"]) = ["a,b"] := by decide

end Convert

end PropertyBinding

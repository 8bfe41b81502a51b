import Mathlib.Data.List.Basic
import Mathlib.Data.List.TakeWhile
import PropertyBinding.Proofs.Segments

/-!
# Keys as segments of names

A key that is put into a name gets quotation marks where it needs them (`Name.quoteSegment`). Read
back, it is the segment that it was if no dot comes after a quotation mark in it (`Name.Quotable`):
at such a dot the reading would stop too early. All segments that names can have are of this kind
(`Name.quotable_of_mem_segments`).

So a name that is joined from such keys can be read back, but for one thing: nothing is read behind
the last dot of a name, and an empty key at its end is lost (`Name.segments_joinSegments`). No two
lists of keys have the same name (`Name.joinSegments_inj`). A cursor at the front of a joined name
hands out the keys exactly if they are of this kind and the last one is not empty
(`Cursor.yields_joinSegments`).
-/

namespace PropertyBinding

namespace Name

/-- Whether a key can be read back as one segment: no dot comes after a quotation mark. -/
def Quotable (key : String) : Prop := '.' ∉ key.toList.dropWhile (· ≠ '"')

instance (key : String) : Decidable (Quotable key) :=
  inferInstanceAs (Decidable ('.' ∉ key.toList.dropWhile (· ≠ '"')))

/-- Whether a key is put into a name as it stands. -/
def Unmarked (key : String) : Prop := '.' ∉ key.toList ∧ key.toList.head? ≠ some '"'

variable {key name : String} {keys : List String} {inside after cs rest : List Char}

theorem quoteSegment_of_unmarked (h : Unmarked key) : quoteSegment key = key :=
  if_neg (not_or.mpr h)

theorem toList_quoteSegment (h : ¬Unmarked key) :
    (quoteSegment key).toList = '"' :: (key.toList ++ ['"']) := by
  have hmarks : '.' ∈ key.toList ∨ key.toList.head? = some '"' := by
    rwa [Unmarked, not_and_or, not_not, not_not] at h
  rw [quoteSegment, if_pos hmarks]
  simp [String.toList_append]

theorem Bare.unmarked (h : Bare key) : Unmarked key := ⟨h.no_dot, h.no_mark⟩

/-- A piece that is one segment as it stands is put into a name as it stands. -/
theorem Bare.quoteSegment_eq (h : Bare key) : quoteSegment key = key :=
  quoteSegment_of_unmarked h.unmarked

theorem Unmarked.quotable (h : Unmarked key) : Quotable key :=
  fun hdot => h.1 ((List.dropWhile_sublist _).subset hdot)

/-- Without the text in front of the first mark, the mark and what follows it are left. -/
theorem dropWhile_of_not_mem (h : '"' ∉ inside) (after : List Char) :
    (inside ++ '"' :: after).dropWhile (· ≠ '"') = '"' :: after := by
  have hall : ∀ c ∈ inside, decide (c ≠ '"') = true :=
    fun c hc => decide_eq_true fun heq => h (heq ▸ hc)
  rw [List.dropWhile_append_of_pos hall]
  rfl

/-! ### Reading one key back -/

/-- A segment in quotation marks runs to the second one, and on to the next dot. -/
theorem splitFirst_quoted (h : '"' ∉ inside) (after : List Char) :
    splitFirst ('"' :: (inside ++ '"' :: after)) =
      ('"' :: inside ++ '"' :: after.takeWhile (· ≠ '.'), after.dropWhile (· ≠ '.')) := by
  have hall : ∀ c ∈ inside, decide (c ≠ '"') = true :=
    fun c hc => decide_eq_true fun heq => h (heq ▸ hc)
  have htake : (inside ++ '"' :: after).takeWhile (· ≠ '"') = inside := by
    rw [List.takeWhile_append_of_pos hall, List.takeWhile_cons_of_neg (by simp), List.append_nil]
  rw [splitFirst]
  simp only [dropWhile_of_not_mem h after, htake]

/-- Without a second quotation mark, a segment is all that is left. -/
theorem splitFirst_unclosed (h : '"' ∉ cs) : splitFirst ('"' :: cs) = ('"' :: cs, []) := by
  have hall : cs.dropWhile (· ≠ '"') = [] :=
    List.dropWhile_eq_nil_iff.mpr fun c hc => decide_eq_true fun heq => h (heq ▸ hc)
  rw [splitFirst]
  simp only [hall]

/-- A text without dots is read up to the next dot. -/
theorem takeWhile_dropWhile_of_not_mem (h : '.' ∉ cs) (hrest : ∀ c ∈ rest.head?, c = '.') :
    (cs ++ rest).takeWhile (· ≠ '.') = cs ∧ (cs ++ rest).dropWhile (· ≠ '.') = rest := by
  have hall : ∀ c ∈ cs, decide (c ≠ '.') = true :=
    fun c hc => decide_eq_true fun heq => h (heq ▸ hc)
  rw [List.takeWhile_append_of_pos hall, List.dropWhile_append_of_pos hall]
  cases rest with
  | nil => simp
  | cons c rest =>
    obtain rfl := hrest c rfl
    simp

/-- **A key in front of a dot**, or alone, is the first segment. -/
theorem Quotable.splitFirst_append (h : Quotable key) (hrest : ∀ c ∈ rest.head?, c = '.') :
    splitFirst ((quoteSegment key).toList ++ rest) = ((quoteSegment key).toList, rest) := by
  by_cases hmarks : Unmarked key
  · have hhead : (key.toList ++ rest).head? ≠ some '"' := by
      rw [List.head?_append]
      cases hkey : key.toList.head? with
      | none => exact fun hmark => absurd (hrest _ hmark) (by decide)
      | some c => exact fun hmark => hmarks.2 (hkey.trans hmark)
    obtain ⟨htake, hdrop⟩ := takeWhile_dropWhile_of_not_mem hmarks.1 hrest
    rw [quoteSegment_of_unmarked hmarks, splitFirst_eq hhead, htake, hdrop]
  rw [toList_quoteSegment hmarks, List.cons_append, List.append_assoc, List.singleton_append]
  by_cases hmark : '"' ∈ key.toList
  · -- The segment runs to the first mark of the key, and on over the closing one.
    obtain ⟨inside, after, hkey, hinside⟩ := List.eq_append_cons_of_mem hmark
    have hdots : '.' ∉ after ++ ['"'] := by
      rw [Quotable, hkey, dropWhile_of_not_mem hinside] at h
      simpa using h
    obtain ⟨htake, hdrop⟩ := takeWhile_dropWhile_of_not_mem hdots hrest
    rw [List.append_assoc, List.singleton_append] at htake hdrop
    rw [hkey, List.append_assoc, List.cons_append, splitFirst_quoted hinside, htake, hdrop]
    simp
  · obtain ⟨htake, hdrop⟩ := takeWhile_dropWhile_of_not_mem (@List.not_mem_nil Char '.') hrest
    rw [List.nil_append] at htake hdrop
    rw [splitFirst_quoted hmark, htake, hdrop]
    rfl

/-- Without the marks that it has been given, a key is what it was. -/
theorem unquote_quoteSegment (key : String) :
    String.ofList (unquote (quoteSegment key).toList) = key := by
  suffices h : unquote (quoteSegment key).toList = key.toList by rw [h, String.ofList_toList]
  by_cases h : Unmarked key
  · rw [quoteSegment_of_unmarked h, unquote]
    intro cs hcs
    exact h.2 (by rw [hcs]; rfl)
  · rw [toList_quoteSegment h, unquote, if_pos List.getLast?_concat, List.dropLast_concat]

/-- Taking off marks leaves characters out. -/
theorem unquote_sublist (cs : List Char) : (unquote cs).Sublist cs := by
  unfold unquote
  split
  · split_ifs
    · exact (List.dropLast_sublist _).cons _
    · exact (List.Sublist.refl _).cons _
  · exact List.Sublist.refl _

/-- A quoted key has characters, unless the key is empty. -/
theorem quoteSegment_eq_empty_iff : quoteSegment key = "" ↔ key = "" := by
  constructor
  · intro h
    rw [← unquote_quoteSegment key, h]
    rfl
  · rintro rfl
    rfl

/-! ### Reading names back -/

/-- A key in front of a name adds one segment. -/
theorem Quotable.segments_append (h : Quotable key) (name : String) :
    segments (quoteSegment key ++ "." ++ name) = key :: segments name := by
  have hlist : (quoteSegment key ++ "." ++ name).toList =
      (quoteSegment key).toList ++ '.' :: name.toList := by
    simp [String.toList_append]
  have hne : (quoteSegment key).toList ++ '.' :: name.toList ≠ [] := by simp
  rw [segments, hlist, rawSegments, dif_neg hne, h.splitFirst_append (by simp), List.map_cons,
    unquote_quoteSegment]
  rfl

/-- A key alone is the only segment, unless it is empty. -/
theorem Quotable.segments_quoteSegment (h : Quotable key) :
    segments (quoteSegment key) = if key = "" then [] else [key] := by
  have hsplit : splitFirst ((quoteSegment key).toList ++ []) = ((quoteSegment key).toList, []) :=
    h.splitFirst_append (by simp)
  rw [List.append_nil] at hsplit
  split_ifs with hkey
  · subst hkey
    decide +kernel
  · have hne : (quoteSegment key).toList ≠ [] := fun hnil =>
      hkey (quoteSegment_eq_empty_iff.mp (String.toList_eq_nil_iff.mp hnil))
    rw [segments, rawSegments, dif_neg hne, hsplit, List.map_cons, unquote_quoteSegment]
    simp [rawSegments]

theorem joinSegments_cons_cons (key next : String) (keys : List String) :
    joinSegments (key :: next :: keys) =
      quoteSegment key ++ "." ++ joinSegments (next :: keys) := by
  rw [joinSegments, List.map_cons, List.map_cons, String.intercalate_cons_cons]
  rfl

theorem joinSegments_singleton (key : String) : joinSegments [key] = quoteSegment key :=
  String.intercalate_singleton

/-- **Reading a joined name back** gives the keys, but for an empty key at the end. -/
theorem segments_joinSegments (h : ∀ key ∈ keys, Quotable key) :
    segments (joinSegments keys) = if keys.getLast? = some "" then keys.dropLast else keys := by
  induction keys with
  | nil => decide +kernel
  | cons key keys ih =>
    obtain ⟨hkey, hkeys⟩ := List.forall_mem_cons.mp h
    cases keys with
    | nil =>
      rw [joinSegments_singleton, hkey.segments_quoteSegment]
      simp
    | cons next keys =>
      rw [joinSegments_cons_cons, hkey.segments_append, ih hkeys, List.getLast?_cons_cons,
        List.dropLast_cons_of_ne_nil (List.cons_ne_nil _ _)]
      split_ifs <;> rfl

/-- A joined name is the first key, and then nothing or a dot. -/
theorem exists_toList_joinSegments (key : String) (keys : List String) :
    ∃ rest : List Char, (joinSegments (key :: keys)).toList = (quoteSegment key).toList ++ rest ∧
      (∀ c ∈ rest.head?, c = '.') ∧ (keys = [] ↔ rest = []) ∧
      rest.drop 1 = (joinSegments keys).toList := by
  cases keys with
  | nil => exact ⟨[], by simp [joinSegments_singleton], by simp, by simp, rfl⟩
  | cons next keys =>
    refine ⟨'.' :: (joinSegments (next :: keys)).toList, ?_, by simp, by simp, rfl⟩
    rw [joinSegments_cons_cons]
    simp [String.toList_append]

/-- **Joined names tell the keys**, also those that end in an empty key. -/
theorem joinSegments_inj {keys' : List String} (h : ∀ key ∈ keys, Quotable key)
    (h' : ∀ key ∈ keys', Quotable key) (hne : keys ≠ []) (hne' : keys' ≠ [])
    (heq : joinSegments keys = joinSegments keys') : keys = keys' := by
  induction keys generalizing keys' with
  | nil => exact absurd rfl hne
  | cons key keys ih =>
    cases keys' with
    | nil => exact absurd rfl hne'
    | cons key' keys' =>
      obtain ⟨hkey, hkeys⟩ := List.forall_mem_cons.mp h
      obtain ⟨hkey', hkeys'⟩ := List.forall_mem_cons.mp h'
      obtain ⟨rest, hjoin, hrest, hnil, hdrop⟩ := exists_toList_joinSegments key keys
      obtain ⟨rest', hjoin', hrest', hnil', hdrop'⟩ := exists_toList_joinSegments key' keys'
      -- Both names have the same first segment, and the same text behind it.
      have hfirst := (hkey.splitFirst_append hrest).symm.trans
        ((congrArg splitFirst (hjoin.symm.trans ((congrArg _ heq).trans hjoin'))).trans
          (hkey'.splitFirst_append hrest'))
      obtain ⟨hquote, rfl⟩ := Prod.mk.inj hfirst
      obtain rfl : key = key' := by
        rw [← unquote_quoteSegment key, hquote, unquote_quoteSegment]
      by_cases hempty : keys = []
      · rw [hempty, hnil'.mpr (hnil.mp hempty)]
      · have hempty' : keys' ≠ [] := fun hnil₁ => hempty (hnil.mpr (hnil'.mp hnil₁))
        rw [ih hkeys hkeys' hempty hempty' (String.toList_inj.mp (hdrop.symm.trans hdrop'))]

/-! ### The segments of names -/

/-- The beginning of a text in which no dot comes after a quotation mark. -/
theorem not_mem_dropWhile_of_append (rest : List Char)
    (h : '.' ∉ (cs ++ rest).dropWhile (· ≠ '"')) : '.' ∉ cs.dropWhile (· ≠ '"') := by
  intro hdot
  rw [List.dropWhile_append] at h
  split_ifs at h with hnil
  · rw [List.isEmpty_iff.mp hnil] at hdot
    cases hdot
  · exact h (List.mem_append_left _ hdot)

/-- What is read as one segment can be read back as one. -/
theorem quotable_of_splitFirst (cs : List Char) :
    Quotable (String.ofList (unquote (splitFirst cs).1)) := by
  rw [Quotable, String.toList_ofList]
  by_cases hhead : cs.head? = some '"'
  swap
  · have hdots : '.' ∉ (splitFirst cs).1 := by
      rw [splitFirst_eq hhead]
      exact fun hdot => absurd (List.mem_takeWhile_imp hdot) (by simp)
    exact fun hdot => hdots ((unquote_sublist _).subset ((List.dropWhile_sublist _).subset hdot))
  obtain ⟨cs, rfl⟩ : ∃ rest, cs = '"' :: rest := by
    cases cs with
    | nil => cases hhead
    | cons c rest => exact ⟨rest, by rw [Option.some.inj hhead]⟩
  by_cases hmark : '"' ∈ cs
  · obtain ⟨inside, after, rfl, hinside⟩ := List.eq_append_cons_of_mem hmark
    have hdots : '.' ∉ (inside ++ '"' :: after.takeWhile (· ≠ '.')).dropWhile (· ≠ '"') := by
      rw [dropWhile_of_not_mem hinside]
      simpa using fun hdot => absurd (List.mem_takeWhile_imp hdot) (by simp)
    rw [splitFirst_quoted hinside, List.cons_append, unquote]
    split_ifs with hlast
    · -- The closing mark at the end goes, and what stands in front of it stays as it is.
      refine not_mem_dropWhile_of_append ['"'] ?_
      rwa [List.dropLast_append_getLast?]
      exact hlast
    · exact hdots
  · have hall : cs.dropWhile (· ≠ '"') = [] :=
      List.dropWhile_eq_nil_iff.mpr fun c hc => decide_eq_true fun heq => hmark (heq ▸ hc)
    have hlast : cs.getLast? ≠ some '"' := fun hlast => hmark (List.mem_of_getLast? hlast)
    rw [splitFirst_unclosed hmark, unquote, if_neg hlast, hall]
    exact List.not_mem_nil

/-- **Every segment of a name** can be read back. -/
theorem quotable_of_mem_segments (h : key ∈ segments name) : Quotable key := by
  have hraw : ∀ cs, ∀ raw ∈ rawSegments cs, Quotable (String.ofList (unquote raw)) := by
    intro cs
    induction cs using rawSegments.induct with
    | case1 =>
      rw [rawSegments, dif_pos rfl]
      exact List.forall_mem_nil _
    | case2 cs hne ih =>
      rw [rawSegments, dif_neg hne]
      exact List.forall_mem_cons.mpr ⟨quotable_of_splitFirst cs, ih⟩
  obtain ⟨raw, hmem, rfl⟩ := List.mem_map.mp h
  exact hraw _ raw hmem

/-- Whether a dot comes after a quotation mark in a key. -/
def HasDotAfterMark (key : String) : Prop :=
  ∃ before between after, key.toList = before ++ '"' :: (between ++ '.' :: after)

theorem quotable_iff : Quotable key ↔ ¬HasDotAfterMark key := by
  rw [Quotable, not_iff_not]
  constructor
  · intro hdot
    by_cases hmark : '"' ∈ key.toList
    · obtain ⟨inside, after, hkey, hinside⟩ := List.eq_append_cons_of_mem hmark
      rw [hkey, dropWhile_of_not_mem hinside] at hdot
      obtain ⟨between, rest, rfl⟩ :=
        List.append_of_mem ((List.mem_cons.mp hdot).resolve_left (by decide))
      exact ⟨inside, between, rest, hkey⟩
    · have hnil : key.toList.dropWhile (· ≠ '"') = [] :=
        List.dropWhile_eq_nil_iff.mpr fun c hc => decide_eq_true fun heq => hmark (heq ▸ hc)
      rw [hnil] at hdot
      cases hdot
  · rintro ⟨before, between, after, hkey⟩
    -- The mark may be the first one or a later one.
    rw [hkey, List.dropWhile_append]
    split_ifs <;> simp

/-- **Which keys can be read back** from their joined name. -/
theorem segments_joinSegments_eq_iff : segments (joinSegments keys) = keys ↔
    keys.getLast? ≠ some "" ∧ ∀ key ∈ keys, Quotable key := by
  constructor
  · intro heq
    have hkeys : ∀ key ∈ keys, Quotable key := fun key hkey =>
      quotable_of_mem_segments (heq.symm ▸ hkey)
    refine ⟨fun hlast => ?_, hkeys⟩
    rw [segments_joinSegments hkeys, if_pos hlast] at heq
    have hlength := congrArg List.length heq
    rw [List.length_dropLast] at hlength
    have hpos := List.length_pos_of_mem (List.mem_of_getLast? hlast)
    omega
  · rintro ⟨hlast, hkeys⟩
    rw [segments_joinSegments hkeys, if_neg hlast]

end Name

namespace Cursor

/-- Whether a cursor hands out these segments, one after the other, until there are no more. -/
inductive Yields : Cursor → List String → Prop where
  | done {c : Cursor} (ends : c.next.1 = none) : Yields c []
  | step {c c' : Cursor} {segment : String} {rest : List String}
      (next_eq : c.next = (some segment, c')) (yields : Yields c' rest) :
      Yields c (segment :: rest)

variable {c c' : Cursor} {segment : String} {segments : List String}

/-- A cursor hands out nothing if no segments remain. -/
theorem next_eq_none_iff : c.next.1 = none ↔ c.remaining = [] := by
  have hpeek : c.peek? = none ↔ c.remaining = [] := by
    rw [peek?, segment?, remaining, List.getElem?_eq_none_iff, List.drop_eq_nil_iff]
  rw [← hpeek, next]
  cases c.peek? <;> simp

/-- A step over a segment takes it from those that remain. -/
theorem remaining_of_next (h : c.next = (some segment, c')) :
    c.remaining = segment :: c'.remaining := by
  rw [next] at h
  cases hpeek : c.peek? with
  | none => simp [hpeek] at h
  | some first =>
    simp only [hpeek, Prod.mk.injEq, Option.some.injEq] at h
    obtain ⟨rfl, rfl⟩ := h
    obtain ⟨hlt, rfl⟩ := List.getElem?_eq_some_iff.mp hpeek
    exact List.drop_eq_getElem_cons hlt

/-- A cursor hands out the segments that remain, and nothing else. -/
theorem yields_iff : c.Yields segments ↔ c.remaining = segments := by
  constructor
  · intro h
    induction h with
    | done ends => exact next_eq_none_iff.mp ends
    | step next_eq _ ih => rw [remaining_of_next next_eq, ih]
  · intro h
    induction segments generalizing c with
    | nil => exact .done (next_eq_none_iff.mpr h)
    | cons segment rest ih =>
      cases hnext : c.next with
      | mk first c' =>
        cases first with
        | none =>
          rw [next_eq_none_iff.mp (congrArg Prod.fst hnext)] at h
          cases h
        | some first =>
          rw [remaining_of_next hnext] at h
          obtain ⟨rfl, hrest⟩ := List.cons.inj h
          exact .step hnext (ih hrest)

/-- **Joining and splitting**: a cursor at the front of the name that is joined from keys hands out
these keys exactly if the last one, if there is one, is not empty and none has a dot after a
quotation mark. What it hands out for any name are keys without a dot after a quotation mark, so
joining them and reading them back changes nothing, unless the last one is empty. -/
theorem yields_joinSegments :
    (∀ keys, (ofName (Name.joinSegments keys)).Yields keys ↔
      keys.getLast? ≠ some "" ∧ ∀ key ∈ keys, ¬Name.HasDotAfterMark key) ∧
    ∀ name, ∃ keys, (∀ keys', (ofName name).Yields keys' ↔ keys' = keys) ∧
      (∀ key ∈ keys, ¬Name.HasDotAfterMark key) ∧
      ((ofName (Name.joinSegments keys)).Yields keys ↔ keys.getLast? ≠ some "") := by
  have hjoin : ∀ keys, (ofName (Name.joinSegments keys)).Yields keys ↔
      keys.getLast? ≠ some "" ∧ ∀ key ∈ keys, ¬Name.HasDotAfterMark key := by
    intro keys
    simp only [← Name.quotable_iff]
    exact yields_iff.trans Name.segments_joinSegments_eq_iff
  refine ⟨hjoin, fun name => ?_⟩
  have hkeys : ∀ key ∈ Name.segments name, ¬Name.HasDotAfterMark key := fun key hkey =>
    Name.quotable_iff.mp (Name.quotable_of_mem_segments hkey)
  refine ⟨Name.segments name, fun keys' => yields_iff.trans eq_comm, hkeys, ?_⟩
  rw [hjoin]
  exact and_iff_left hkeys

end Cursor

end PropertyBinding

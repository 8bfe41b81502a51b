import PropertyBinding.Name

/-!
# Segments of names without quotation marks

Reading a name takes off its first segment with the dot behind it (`Name.splitFirst_cases`).

A piece that is not empty, has no dot and does not begin with a quotation mark is one segment
(`Name.Bare`). Joining such pieces with dots gives a name that has them as its segments
(`Name.segments_intercalate`), and such a piece in front of a name adds one segment
(`Name.segments_append`).
-/

namespace PropertyBinding

namespace Name

/-- Whether a piece of a name is one segment as it stands. -/
structure Bare (piece : String) : Prop where
  ne_empty : piece ≠ ""
  no_dot : '.' ∉ piece.toList
  no_mark : piece.toList.head? ≠ some '"'

/-- The first segment of a text that does not begin with a quotation mark ends before the first
dot. -/
theorem splitFirst_eq {cs : List Char} (h : cs.head? ≠ some '"') :
    splitFirst cs = (cs.takeWhile (· ≠ '.'), cs.dropWhile (· ≠ '.')) := by
  unfold splitFirst
  split
  · exact absurd rfl h
  · rfl

/-- Behind the first segment comes a dot, or nothing. -/
theorem head?_splitFirst_snd (cs : List Char) : ∀ c ∈ (splitFirst cs).2.head?, c = '.' := by
  have hdrop : ∀ cs : List Char, ∀ c ∈ (cs.dropWhile (· ≠ '.')).head?, c = '.' := by
    intro cs c hc
    have hstop := List.head?_dropWhile_not (fun c => decide (c ≠ '.')) cs
    rw [Option.mem_def.mp hc] at hstop
    simpa using hstop
  unfold splitFirst
  split
  · split
    · simp
    · exact hdrop _
  · exact hdrop _

/-- The first segment, and what is read behind the dot after it. -/
theorem splitFirst_cases (cs : List Char) :
    (cs = (splitFirst cs).1 ∧ (splitFirst cs).2.drop 1 = []) ∨
      cs = (splitFirst cs).1 ++ '.' :: (splitFirst cs).2.drop 1 := by
  have happend := splitFirst_append cs
  cases hrest : (splitFirst cs).2 with
  | nil =>
    rw [hrest, List.append_nil] at happend
    exact Or.inl ⟨happend.symm, rfl⟩
  | cons c after =>
    obtain rfl := head?_splitFirst_snd cs c (by rw [hrest]; rfl)
    rw [hrest] at happend
    exact Or.inr happend.symm

theorem rawSegments_of_ne_nil {cs : List Char} (h : cs ≠ []) :
    rawSegments cs = (splitFirst cs).1 :: rawSegments ((splitFirst cs).2.drop 1) := by
  rw [rawSegments, dif_neg h]

variable {piece : String}

theorem Bare.toList_ne_nil (h : Bare piece) : piece.toList ≠ [] :=
  fun hnil => h.ne_empty (String.toList_eq_nil_iff.mp hnil)

/-- A piece before a dot, or alone, is the first segment. -/
theorem Bare.splitFirst_append (h : Bare piece) {rest : List Char}
    (hrest : ∀ c ∈ rest.head?, c = '.') :
    splitFirst (piece.toList ++ rest) = (piece.toList, rest) := by
  have hhead : (piece.toList ++ rest).head? ≠ some '"' := by
    rw [List.head?_append, Option.or_of_isSome (List.isSome_head?.mpr h.toList_ne_nil)]
    exact h.no_mark
  have hall : ∀ c ∈ piece.toList, decide (c ≠ '.') = true := by
    intro c hc
    refine decide_eq_true ?_
    rintro rfl
    exact h.no_dot hc
  rw [splitFirst_eq hhead, List.takeWhile_append_of_pos hall, List.dropWhile_append_of_pos hall]
  cases rest with
  | nil => simp
  | cons c cs =>
    obtain rfl := hrest c rfl
    simp

/-- A segment that does not begin with a quotation mark is handed out as it is. -/
theorem Bare.unquote_eq (h : Bare piece) : unquote piece.toList = piece.toList := by
  unfold unquote
  split
  · rename_i cs hcs
    exact absurd (by rw [hcs]; rfl) h.no_mark
  · rfl

/-- A piece alone is the only segment. -/
theorem Bare.segments_eq (h : Bare piece) : segments piece = [piece] := by
  have hsplit : splitFirst (piece.toList ++ []) = (piece.toList, []) :=
    h.splitFirst_append (by simp)
  rw [List.append_nil] at hsplit
  rw [segments, rawSegments, dif_neg h.toList_ne_nil, hsplit]
  simp [rawSegments, h.unquote_eq]

/-- A piece in front of a name adds one segment. -/
theorem Bare.segments_append (h : Bare piece) (name : String) :
    segments (piece ++ "." ++ name) = piece :: segments name := by
  have hlist : (piece ++ "." ++ name).toList = piece.toList ++ '.' :: name.toList := by
    simp [String.toList_append]
  have hne : piece.toList ++ '.' :: name.toList ≠ [] := by simp
  rw [segments, hlist, rawSegments, dif_neg hne, h.splitFirst_append (by simp)]
  simp [segments, h.unquote_eq]

/-- **Pieces joined with dots** are the segments of the name. -/
theorem segments_intercalate {pieces : List String} (h : ∀ piece ∈ pieces, Bare piece) :
    segments (String.intercalate "." pieces) = pieces := by
  induction pieces with
  | nil => simp [segments, rawSegments]
  | cons piece rest ih =>
    obtain ⟨hpiece, hrest⟩ := List.forall_mem_cons.mp h
    cases rest with
    | nil => rw [String.intercalate_singleton, hpiece.segments_eq]
    | cons next rest => rw [String.intercalate_cons_cons, hpiece.segments_append, ih hrest]

end Name

namespace Cursor

/-- Behind the namespace of a name, the cursor stands at its second segment. -/
theorem next_ofName {name namespaceName : String}
    (h : (Cursor.ofName name).peek? = some namespaceName) :
    (Cursor.ofName name).next.2 = ⟨name, 1⟩ := by
  rw [next, h]
  rfl

/-- What remains of a name behind its namespace. -/
theorem remaining_append {namespaceName : String} (hns : Name.Bare namespaceName) (name : String) :
    (⟨namespaceName ++ "." ++ name, 1⟩ : Cursor).remaining = Name.segments name := by
  rw [remaining, hns.segments_append, List.drop_succ_cons, List.drop_zero]

/-- The segments after a cursor are counted from it. -/
theorem remaining_getElem? (c : Cursor) (segment : Nat) :
    c.remaining[segment]? = c.segment? (c.position + segment) :=
  List.getElem?_drop

end Cursor

end PropertyBinding

import Mathlib.Data.List.Basic
import PropertyBinding.Proofs.ByteSpans

/-!
# Names tiled by their segments

In front of a raw segment stand the raw segments before it, each with its dot, and a dot or nothing
comes behind it (`Name.exists_getElem?_spansFrom`). So the spans of a name tile it
(`Name.tiles_spans`): they lie one behind the other with a dot between two of them, and nothing is
left out but a dot at the end.

A cursor over the name cannot leave it, however it is moved (`Cursor.KeepsTo.run`), and what it has
consumed is the text up to the last segment in front of it (`Cursor.consumed_eq`).
-/

namespace PropertyBinding

namespace Name

/-! ### Raw segments -/

section Raw

variable {cs raw : List Char} {start k : Nat} {raws : List (List Char)}

/-- Joining the raw segments of a text gives the text back, but for a dot at its end. -/
theorem intercalate_rawSegments (cs : List Char) : ['.'].intercalate (rawSegments cs) = cs ∨
    ['.'].intercalate (rawSegments cs) ++ ['.'] = cs := by
  induction cs using rawSegments.induct with
  | case1 => exact Or.inl (by rw [rawSegments, dif_pos rfl]; rfl)
  | case2 cs hne ih =>
    rw [rawSegments_of_ne_nil hne]
    by_cases hafter : (splitFirst cs).2.drop 1 = []
    · rw [hafter, rawSegments, dif_pos rfl, List.intercalate_singleton]
      refine (splitFirst_cases cs).imp (fun h => h.1.symm) fun h => ?_
      rw [hafter] at h
      exact h.symm
    · have hcs := (splitFirst_cases cs).resolve_left fun h => hafter h.2
      have hrest : rawSegments ((splitFirst cs).2.drop 1) ≠ [] := by
        rw [rawSegments_of_ne_nil hafter]
        exact List.cons_ne_nil _ _
      rw [List.intercalate_cons_of_ne_nil hrest]
      refine ih.imp (fun h => ?_) fun h => ?_
      · rw [h, List.append_assoc]
        exact hcs.symm
      · rw [List.append_assoc, h, List.append_assoc]
        exact hcs.symm

/-- No text has more raw segments than characters. -/
theorem length_rawSegments_le (cs : List Char) : (rawSegments cs).length ≤ cs.length := by
  induction cs using rawSegments.induct with
  | case1 => simp [rawSegments]
  | case2 cs hne ih =>
    have hlength := congrArg List.length (splitFirst_append cs)
    have hpos := List.length_pos_iff.mpr hne
    rw [List.length_append] at hlength
    rw [rawSegments_of_ne_nil hne, List.length_cons]
    rw [List.length_drop] at ih
    omega

/-- **A raw segment within its text**: in front of it stand the raw segments before it, each with
its dot, and a dot or nothing comes behind it. Its span says where it is. -/
theorem exists_getElem?_spansFrom (h : (rawSegments cs)[k]? = some raw) (start : Nat) :
    ∃ front rest, cs = front ++ (raw ++ rest) ∧ (∀ c ∈ rest.head?, c = '.') ∧
      front ++ raw = ['.'].intercalate ((rawSegments cs).take (k + 1)) ∧
      (spansFrom start (rawSegments cs))[k]? =
        some ⟨start + front.length, start + front.length + raw.length⟩ := by
  induction k generalizing cs start with
  | zero =>
    have hne : cs ≠ [] := by
      rintro rfl
      rw [rawSegments, dif_pos rfl] at h
      cases h
    rw [rawSegments_of_ne_nil hne] at h ⊢
    obtain rfl := Option.some.inj h
    exact ⟨[], (splitFirst cs).2, (splitFirst_append cs).symm, head?_splitFirst_snd cs, by simp,
      rfl⟩
  | succ k ih =>
    have hne : cs ≠ [] := by
      rintro rfl
      rw [rawSegments, dif_pos rfl] at h
      cases h
    rw [rawSegments_of_ne_nil hne] at h ⊢
    obtain ⟨front, rest, hafter, hrest, hjoin, hspan⟩ :=
      ih h (start + (splitFirst cs).1.length + 1)
    have hcs : cs = (splitFirst cs).1 ++ '.' :: (splitFirst cs).2.drop 1 := by
      refine (splitFirst_cases cs).resolve_left fun hend => ?_
      rw [List.getElem?_cons_succ, hend.2, rawSegments, dif_pos rfl] at h
      cases h
    refine ⟨(splitFirst cs).1 ++ '.' :: front, rest, ?_, hrest, ?_, ?_⟩
    · conv_lhs => rw [hcs, hafter]
      simp
    · have hne : (rawSegments ((splitFirst cs).2.drop 1)).take (k + 1) ≠ [] := by
        rw [ne_eq, List.take_eq_nil_iff, not_or]
        refine ⟨Nat.succ_ne_zero k, fun hnil => ?_⟩
        rw [hnil] at h
        cases h
      rw [List.take_succ_cons, List.intercalate_cons_of_ne_nil hne, ← hjoin]
      simp
    · rw [spansFrom, List.getElem?_cons_succ, hspan, List.length_append, List.length_cons]
      congr 2 <;> omega

end Raw

/-! ### The tiling -/

/-- Joining texts with dots joins their characters. -/
theorem intercalate_map_ofList (raws : List (List Char)) :
    String.intercalate "." (raws.map String.ofList) = String.ofList (['.'].intercalate raws) := by
  refine String.toList_inj.mp ?_
  rw [String.toList_intercalate, List.map_map, String.toList_ofList]
  simp [Function.comp_def]

/-- The text that a span of a name covers. -/
def Span.text (name : String) (span : Span) : String :=
  String.ofList ((name.toList.take span.stop).drop span.start)

/-- The spans of a name tile it: there are no more of them than characters, they lie within the name
one behind the other, a dot or nothing comes behind each one, and their texts joined with dots are
the name, but for a dot at its end. -/
structure Tiles (name : String) (spans : List Span) : Prop where
  few : spans.length ≤ name.length
  inside : ∀ span ∈ spans, span.start ≤ span.stop ∧ span.stop ≤ name.length
  apart : spans.Pairwise fun span later => span.stop < later.start
  followed : ∀ span ∈ spans, span.stop = name.length ∨ name.toList[span.stop]? = some '.'
  joined : String.intercalate "." (spans.map (Span.text name)) = name ∨
    String.intercalate "." (spans.map (Span.text name)) ++ "." = name

theorem length_spansFrom (start : Nat) (raws : List (List Char)) :
    (spansFrom start raws).length = raws.length := by
  induction raws generalizing start with
  | nil => rfl
  | cons raw rest ih => rw [spansFrom, List.length_cons, List.length_cons, ih]

/-- Consecutive spans begin where they are told to, or later. -/
theorem le_start_of_mem_spansFrom {start : Nat} {raws : List (List Char)} {span : Span}
    (h : span ∈ spansFrom start raws) : start ≤ span.start := by
  induction raws generalizing start with
  | nil => cases h
  | cons raw rest ih =>
    rcases List.mem_cons.mp h with rfl | h
    · exact le_rfl
    · have := ih h
      omega

/-- Consecutive spans lie one behind the other, with a character between two of them. -/
theorem pairwise_spansFrom (start : Nat) (raws : List (List Char)) :
    (spansFrom start raws).Pairwise fun span later => span.stop < later.start := by
  induction raws generalizing start with
  | nil => exact List.Pairwise.nil
  | cons raw rest ih =>
    exact List.pairwise_cons.mpr ⟨fun later h => le_start_of_mem_spansFrom h, ih _⟩

section Spans

variable {name : String} {span : Span}

/-- A span of a name stands for a raw segment. -/
theorem exists_of_mem_spans (h : span ∈ spans name) : ∃ raw front rest,
    name.toList = front ++ (raw ++ rest) ∧ (∀ c ∈ rest.head?, c = '.') ∧
      span = ⟨front.length, front.length + raw.length⟩ := by
  obtain ⟨k, hk⟩ := List.mem_iff_getElem?.mp h
  have hlt : k < (rawSegments name.toList).length := by
    rw [← length_spansFrom 0]
    exact (List.getElem?_eq_some_iff.mp hk).1
  obtain ⟨front, rest, hname, hrest, -, hspan⟩ :=
    exists_getElem?_spansFrom (List.getElem?_eq_getElem hlt) 0
  rw [Nat.zero_add] at hspan
  exact ⟨_, front, rest, hname, hrest, Option.some.inj (hk.symm.trans hspan)⟩

/-- The texts of the spans are the raw segments. -/
theorem map_text_spans (name : String) :
    (spans name).map (Span.text name) = (rawSegments name.toList).map String.ofList := by
  refine List.ext_getElem? fun k => ?_
  rw [List.getElem?_map, List.getElem?_map]
  cases hraw : (rawSegments name.toList)[k]? with
  | none =>
    rw [List.getElem?_eq_none_iff, ← length_spansFrom 0, ← List.getElem?_eq_none_iff] at hraw
    rw [spans, hraw]
    rfl
  | some raw =>
    obtain ⟨front, rest, hname, -, -, hspan⟩ := exists_getElem?_spansFrom hraw 0
    rw [spans, hspan, Option.map_some, Option.map_some, Nat.zero_add, Span.text, hname,
      ← List.append_assoc, ← List.length_append, List.take_left, List.drop_left]

/-- **The spans of a name** tile it. -/
theorem tiles_spans (name : String) : Tiles name (spans name) where
  few := by
    rw [spans, length_spansFrom, ← String.length_toList]
    exact length_rawSegments_le _
  inside := by
    intro span h
    obtain ⟨raw, front, rest, hname, -, rfl⟩ := exists_of_mem_spans h
    refine ⟨Nat.le_add_right _ _, ?_⟩
    rw [← String.length_toList, hname, ← List.append_assoc, List.length_append,
      List.length_append]
    exact Nat.le_add_right _ _
  apart := pairwise_spansFrom _ _
  followed := by
    intro span h
    obtain ⟨raw, front, rest, hname, hrest, rfl⟩ := exists_of_mem_spans h
    rw [← String.length_toList, hname, ← List.append_assoc, ← List.length_append,
      List.getElem?_append_right le_rfl, Nat.sub_self, ← List.head?_eq_getElem?]
    cases hdot : rest.head? with
    | none =>
      rw [List.head?_eq_none_iff.mp hdot, List.append_nil]
      exact Or.inl rfl
    | some c => exact Or.inr (by rw [hrest c hdot])
  joined := by
    rw [map_text_spans, intercalate_map_ofList]
    refine (intercalate_rawSegments name.toList).imp (fun h => ?_) fun h => ?_
    · rw [h, String.ofList_toList]
    · refine String.toList_inj.mp ?_
      rw [String.toList_append, String.toList_ofList]
      exact h

end Spans

end Name

/-! ### Moving a cursor -/

namespace Cursor

/-- What can be done to a cursor. -/
inductive Move where
  | next
  | previous
  | toEnd
  | toStart
  deriving DecidableEq, Repr

/-- The cursor after a move. -/
def move (c : Cursor) : Move → Cursor
  | .next => c.next.2
  | .previous => c.previous.2
  | .toEnd => c.toEnd
  | .toStart => c.toStart

/-- The cursor after moves, one after the other. -/
def run (c : Cursor) (moves : List Move) : Cursor := moves.foldl move c

/-- Whether a cursor stands between the segments of a name, in front of them or behind them. -/
structure KeepsTo (c : Cursor) (name : String) : Prop where
  name_eq : c.name = name
  position_le : c.position ≤ c.segmentCount

variable {c c' : Cursor} {name segment : String}

/-- Stepping over a segment hands out the one after the cursor. -/
theorem next_eq_some_iff : c.next = (some segment, c') ↔
    c.peek? = some segment ∧ c' = { c with position := c.position + 1 } := by
  rw [next]
  split
  · rename_i h
    simp [h]
  · rename_i h
    simp [h, eq_comm]

/-- No move leaves the name. -/
theorem KeepsTo.move (h : c.KeepsTo name) (m : Move) : (c.move m).KeepsTo name := by
  obtain ⟨rfl, hle⟩ := h
  cases m with
  | next =>
    cases hpeek : c.peek? with
    | none =>
      rw [Cursor.move, next, hpeek]
      exact ⟨rfl, hle⟩
    | some segment =>
      have hlt : c.position < c.segmentCount := (List.getElem?_eq_some_iff.mp hpeek).1
      rw [Cursor.move, next, hpeek]
      exact ⟨rfl, hlt⟩
  | previous =>
    rw [Cursor.move, previous]
    split
    · exact ⟨rfl, hle⟩
    · rename_i before hbefore
      exact ⟨rfl, by rw [hbefore] at hle; exact (Nat.le_succ _).trans hle⟩
  | toEnd => exact ⟨rfl, le_rfl⟩
  | toStart => exact ⟨rfl, Nat.zero_le _⟩

/-- **Moves, one after the other,** do not leave the name. -/
theorem KeepsTo.run (h : c.KeepsTo name) (moves : List Move) : (c.run moves).KeepsTo name := by
  induction moves generalizing c with
  | nil => exact h
  | cons m moves ih => exact ih (h.move m)

/-- Stepping back undoes stepping over a segment. -/
theorem previous_of_next (h : c.next = (some segment, c')) : c'.previous = (some segment, c) := by
  obtain ⟨hpeek, rfl⟩ := next_eq_some_iff.mp h
  rw [previous]
  exact Prod.ext hpeek rfl

/-- **What a cursor has consumed** are the raw segments in front of it, joined with dots. The name
begins with it. -/
theorem consumed_eq (h : c.position ≤ c.segmentCount) :
    c.consumed = String.intercalate "."
      (((Name.spans c.name).map (Name.Span.text c.name)).take c.position) ∧
      ∃ rest, c.consumed ++ rest = c.name := by
  rw [Name.map_text_spans, consumed]
  cases hposition : c.position with
  | zero => exact ⟨by rw [List.take_zero, String.intercalate_nil], c.name, String.empty_append⟩
  | succ before =>
    have hlt : before < (Name.rawSegments c.name.toList).length := by
      rw [hposition, segmentCount, Name.segments, List.length_map] at h
      omega
    obtain ⟨front, rest, hname, -, hjoin, hspan⟩ :=
      Name.exists_getElem?_spansFrom (List.getElem?_eq_getElem hlt) 0
    generalize (Name.rawSegments c.name.toList)[before] = raw at hname hjoin hspan
    have htake : c.name.toList.take (front.length + raw.length) = front ++ raw := by
      rw [hname, ← List.append_assoc, ← List.length_append, List.take_left]
    simp only [Name.spans, hspan, Nat.zero_add, htake]
    refine ⟨?_, String.ofList rest, ?_⟩
    · rw [hjoin, ← List.map_take, Name.intercalate_map_ofList]
    · rw [← String.ofList_append, List.append_assoc, ← hname, String.ofList_toList]

end Cursor

namespace Name

/-- **Names are tiled by their segments.** The spans of a name tile it, and scanning the bytes finds
the same spans, in order, apart and at the boundaries of characters. However a cursor is moved over
the name, it stays between the segments, it has consumed the text of those in front of it, and
stepping back undoes stepping over a segment. -/
theorem spans_tile_and_cursor_keeps (name : String) :
    Tiles name (spans name) ∧
      byteSpans name = (spans name).map (Span.inBytes name) ∧
      (byteSpans name).Pairwise (fun span later => span.stop < later.start) ∧
      (∀ span ∈ byteSpans name,
        (⟨span.start⟩ : String.Pos.Raw).IsValid name ∧
          (⟨span.stop⟩ : String.Pos.Raw).IsValid name) ∧
      ∀ moves : List Cursor.Move,
        let c := (Cursor.ofName name).run moves
        c.name = name ∧ c.position ≤ c.segmentCount ∧
          (∀ segment c', c.next = (some segment, c') → c'.previous = (some segment, c)) ∧
          c.consumed =
            String.intercalate "." (((spans name).map (Span.text name)).take c.position) ∧
          ∃ rest, c.consumed ++ rest = name := by
  have htiles := tiles_spans name
  have hbytes := byteSpans_eq name
  refine ⟨htiles, hbytes, ?_, ?_, fun moves => ?_⟩
  · rw [hbytes, List.pairwise_map]
    refine htiles.apart.imp_of_mem fun hspan hlater hlt => utf8ByteSize_take_lt hlt ?_
    exact (htiles.inside _ hlater).1.trans (htiles.inside _ hlater).2
  · intro span h
    rw [hbytes] at h
    obtain ⟨span, -, rfl⟩ := List.mem_map.mp h
    exact ⟨String.Pos.Raw.isValid_iff_exists_take_toList.mpr ⟨_, rfl⟩,
      String.Pos.Raw.isValid_iff_exists_take_toList.mpr ⟨_, rfl⟩⟩
  · have hfirst : (Cursor.ofName name).KeepsTo name := ⟨rfl, Nat.zero_le _⟩
    obtain ⟨hname, hle⟩ := hfirst.run moves
    have hconsumed := Cursor.consumed_eq hle
    rw [hname] at hconsumed
    exact ⟨hname, hle, fun _ _ => Cursor.previous_of_next, hconsumed.1, hconsumed.2⟩

/-- A quoted segment with a dot and a character of two bytes in it, and a dot at the end. -/
example : byteSpans "a.\"é.\"b." = [⟨0, 1⟩, ⟨2, 8⟩] := by decide +kernel

end Name

end PropertyBinding

import Mathlib.Data.List.Basic
import PropertyBinding.Proofs.Quoting

/-!
# Names as bytes

The spans of a name can be found in its bytes (`Name.byteSpans`): from the first byte of a segment,
search for the closing mark if the segment is quoted, then for the dot, and go on behind it. The
search knows nothing of characters. It works because a byte below 128 belongs to no longer character
(`Name.toNat_eq_of_mem_utf8EncodeChar`), so the search for a mark or a dot stops where reading the
characters stops (`Name.byteStop_bytes`).

So what is found are the spans of the characters, counted in bytes (`Name.byteSpans_eq`). The search
ends because each step begins behind the byte where the last one stopped.
-/

namespace PropertyBinding

namespace Name

/-! ### Bytes of texts -/

/-- A byte below 128 is a character by itself, and no byte of another one. -/
theorem toNat_eq_of_mem_utf8EncodeChar {c : Char} {b : UInt8} (h : b ∈ String.utf8EncodeChar c)
    (hascii : b.toNat < 128) : c.toNat = b.toNat := by
  -- Of a character with several bytes, each one is at least 128.
  have hhigh : ∀ n : Nat, 128 ≤ n → n < 256 → b ≠ UInt8.ofNat n := by
    rintro n hlow hn rfl
    rw [UInt8.toNat_ofNat', Nat.mod_eq_of_lt hn] at hascii
    omega
  rw [String.utf8EncodeChar] at h
  change b ∈ ite (c.toNat ≤ 0x7f) _ _ at h
  split_ifs at h
  · rw [List.mem_singleton.mp h]
    exact (UInt8.toNat_ofNat_of_lt' (by simp [UInt8.size]; omega)).symm
  all_goals
    simp only [List.mem_cons, List.not_mem_nil, or_false] at h
  · rcases h with h | h <;> exact absurd h (hhigh _ (by omega) (by omega))
  · rcases h with h | h | h <;> exact absurd h (hhigh _ (by omega) (by omega))
  · rcases h with h | h | h | h <;> exact absurd h (hhigh _ (by omega) (by omega))

/-- The bytes of a text. -/
def bytes (cs : List Char) : List UInt8 := cs.flatMap String.utf8EncodeChar

theorem bytes_append (cs ds : List Char) : bytes (cs ++ ds) = bytes cs ++ bytes ds :=
  List.flatMap_append

/-- The bytes of a name are those of its characters, one after the other. -/
theorem toUTF8_eq (name : String) : name.toUTF8.data.toList = bytes name.toList := by
  rw [String.toUTF8_eq_toByteArray, ← String.utf8Encode_toList, List.utf8Encode,
    List.data_toByteArray]
  rfl

/-- The size of a text is the number of its bytes. -/
theorem utf8ByteSize_ofList (cs : List Char) :
    (String.ofList cs).utf8ByteSize = (bytes cs).length := by
  rw [← String.size_toByteArray, String.toByteArray_ofList, List.utf8Encode, List.size_toByteArray]
  rfl

/-- An ASCII character that a text does not have is not among the bytes of the text. -/
theorem not_mem_bytes {mark : Char} {b : UInt8} {cs : List Char} (hb : b.toNat = mark.toNat)
    (hascii : mark.toNat < 128) (h : mark ∉ cs) : b ∉ bytes cs := by
  intro hmem
  obtain ⟨c, hc, hbyte⟩ := List.mem_flatMap.mp hmem
  have heq := toNat_eq_of_mem_utf8EncodeChar hbyte (hb ▸ hascii)
  have : c = mark := Char.toNat_inj.mp (heq.trans hb)
  exact h (this ▸ hc)

/-! ### Scanning bytes -/

/-- Where the next dot is, from a position on. If there is none, it is the end of the bytes. -/
def nextDot (bytes : List UInt8) (position : Nat) : Nat :=
  match (bytes.drop position).idxOf? 0x2E with
  | some offset => position + offset
  | none => bytes.length

/-- Where the segment that begins at byte `start` ends. If it begins with a quotation mark, the dot
is searched behind the next one. -/
def byteStop (bytes : List UInt8) (start : Nat) : Nat :=
  if bytes[start]? = some 0x22 then
    match (bytes.drop (start + 1)).idxOf? 0x22 with
    | some offset => nextDot bytes (start + 1 + offset + 1)
    | none => bytes.length
  else nextDot bytes start

theorem le_nextDot {bytes : List UInt8} {position : Nat} (h : position ≤ bytes.length) :
    position ≤ nextDot bytes position := by
  rw [nextDot]
  split <;> omega

theorem le_byteStop {bytes : List UInt8} {start : Nat} (h : start < bytes.length) :
    start ≤ byteStop bytes start := by
  rw [byteStop]
  split_ifs
  · split
    · rename_i offset hoffset
      obtain ⟨hlt, -⟩ := List.idxOf?_eq_some_iff.mp hoffset
      rw [List.length_drop] at hlt
      have := @le_nextDot bytes (start + 1 + offset + 1) (by omega)
      omega
    · omega
  · exact le_nextDot h.le

/-- The spans of the segments from byte `start` on, found byte by byte. -/
def byteSpansFrom (bytes : List UInt8) (start : Nat) : List Span :=
  if _ : start < bytes.length then
    ⟨start, byteStop bytes start⟩ :: byteSpansFrom bytes (byteStop bytes start + 1)
  else []
termination_by bytes.length - start
decreasing_by
  have := le_byteStop ‹start < bytes.length›
  omega

/-- The spans of the segments of a name, counted in bytes and found byte by byte. -/
def byteSpans (name : String) : List Span := byteSpansFrom name.toUTF8.data.toList 0

/-! ### Scanning and reading -/

/-- A byte is found behind those that differ from it. -/
theorem idxOf?_append_cons {b : UInt8} {front : List UInt8} (h : b ∉ front) (back : List UInt8) :
    (front ++ b :: back).idxOf? b = some front.length := by
  refine List.idxOf?_eq_some_iff.mpr ⟨by simp, by simp, fun j hj heq => h ?_⟩
  rw [List.getElem_append_left hj] at heq
  exact heq ▸ List.getElem_mem hj

/-- Scanning for a dot, byte by byte, stops where reading up to one does. -/
theorem nextDot_bytes (before cs : List Char) :
    nextDot (bytes (before ++ cs)) (bytes before).length =
      (bytes (before ++ cs.takeWhile (· ≠ '.'))).length := by
  have hdots : '.' ∉ cs.takeWhile (· ≠ '.') := fun hdot => by
    simpa using List.mem_takeWhile_imp hdot
  have hnone := not_mem_bytes (b := 0x2E) rfl (by decide) hdots
  have hcs := List.takeWhile_append_dropWhile (p := (· ≠ '.')) (l := cs)
  rw [nextDot, bytes_append, List.drop_left, bytes_append, List.length_append, List.length_append]
  cases hrest : cs.dropWhile (· ≠ '.') with
  | nil =>
    rw [hrest, List.append_nil] at hcs
    rw [hcs] at hnone ⊢
    simp only [List.idxOf?_eq_none_iff.mpr hnone]
  | cons c rest =>
    obtain rfl : c = '.' := by
      have hstop := List.head?_dropWhile_not (fun c => decide (c ≠ '.')) cs
      rw [hrest] at hstop
      simpa using hstop
    rw [hrest] at hcs
    have hbytes : bytes cs = bytes (cs.takeWhile (· ≠ '.')) ++ 0x2E :: bytes rest := by
      conv_lhs => rw [← hcs, bytes_append]
      rfl
    simp only [hbytes, idxOf?_append_cons hnone]

/-- The bytes of a text begin with the byte of a quotation mark if the text begins with one. -/
theorem head?_bytes {cs : List Char} : (bytes cs).head? = some 0x22 ↔ cs.head? = some '"' := by
  cases cs with
  | nil => exact iff_of_false nofun nofun
  | cons c cs =>
    constructor
    · intro h
      have hmem : 0x22 ∈ String.utf8EncodeChar c := by
        refine List.mem_of_mem_head? ?_
        rwa [bytes, List.flatMap_cons,
          List.head?_append_of_ne_nil _ String.utf8EncodeChar_ne_nil] at h
      have : c = '"' := Char.toNat_inj.mp (toNat_eq_of_mem_utf8EncodeChar hmem (by decide))
      rw [this]
      rfl
    · intro h
      rw [Option.some.inj h]
      rfl

/-- **Scanning for the end of a segment**, byte by byte, stops where reading the segment does. -/
theorem byteStop_bytes (before cs : List Char) :
    byteStop (bytes (before ++ cs)) (bytes before).length =
      (bytes (before ++ (splitFirst cs).1)).length := by
  have hhead : (bytes (before ++ cs))[(bytes before).length]? = (bytes cs).head? := by
    rw [bytes_append, List.getElem?_append_right le_rfl, Nat.sub_self, List.head?_eq_getElem?]
  rw [byteStop, hhead]
  by_cases hmark : cs.head? = some '"'
  swap
  · rw [if_neg (mt head?_bytes.mp hmark), nextDot_bytes, splitFirst_eq hmark]
  rw [if_pos (head?_bytes.mpr hmark)]
  obtain ⟨cs, rfl⟩ : ∃ rest, cs = '"' :: rest := by
    cases cs with
    | nil => cases hmark
    | cons c rest => exact ⟨rest, by rw [Option.some.inj hmark]⟩
  have hbehind : ∀ inside : List Char,
      (bytes (before ++ '"' :: inside)).length =
        (bytes before).length + 1 + (bytes inside).length := by
    intro inside
    rw [bytes_append, List.length_append, Nat.add_assoc, Nat.add_comm 1]
    rfl
  have hdrop : (bytes (before ++ '"' :: cs)).drop ((bytes before).length + 1) = bytes cs := by
    rw [bytes_append, ← List.drop_drop, List.drop_left]
    rfl
  rw [hdrop]
  by_cases hclosed : '"' ∈ cs
  · obtain ⟨inside, after, rfl, hinside⟩ := List.eq_append_cons_of_mem hclosed
    have hbytes : bytes (inside ++ '"' :: after) = bytes inside ++ 0x22 :: bytes after := by
      rw [bytes_append]
      rfl
    have hnone := not_mem_bytes (b := 0x22) rfl (by decide) hinside
    rw [hbytes, idxOf?_append_cons hnone, splitFirst_quoted hinside]
    have hnext := nextDot_bytes (before ++ '"' :: (inside ++ ['"'])) after
    simp only [List.append_assoc, List.cons_append, List.nil_append, hbehind, bytes_append inside,
      List.length_append] at hnext ⊢
    exact hnext
  · have hnone := not_mem_bytes (b := 0x22) rfl (by decide) hclosed
    rw [List.idxOf?_eq_none_iff.mpr hnone, splitFirst_unclosed hclosed]

/-! ### Spans in bytes -/

/-- A span of a name, counted in bytes. -/
def Span.inBytes (name : String) (span : Span) : Span where
  start := (String.ofList (name.toList.take span.start)).utf8ByteSize
  stop := (String.ofList (name.toList.take span.stop)).utf8ByteSize

/-- Scanning the bytes behind a text finds the spans of the segments that come behind it. -/
theorem byteSpansFrom_bytes (before cs : List Char) :
    byteSpansFrom (bytes (before ++ cs)) (bytes before).length =
      (spansFrom before.length (rawSegments cs)).map
        (Span.inBytes (String.ofList (before ++ cs))) := by
  induction cs using rawSegments.induct generalizing before with
  | case1 =>
    rw [byteSpansFrom, dif_neg (by simp), rawSegments, dif_pos rfl]
    rfl
  | case2 cs hne ih =>
    have hlt : (bytes before).length < (bytes (before ++ cs)).length := by
      obtain ⟨c, rest, rfl⟩ := List.exists_cons_of_ne_nil hne
      have := List.length_pos_iff.mpr (String.utf8EncodeChar_ne_nil (c := c))
      rw [bytes_append, List.length_append, bytes, bytes, List.flatMap_cons, List.length_append]
      omega
    rw [byteSpansFrom, dif_pos hlt, byteStop_bytes, rawSegments_of_ne_nil hne, spansFrom,
      List.map_cons]
    congr 1
    · have htake : (before ++ cs).take (before.length + (splitFirst cs).1.length) =
          before ++ (splitFirst cs).1 := by
        have hfirst : before ++ cs = before ++ (splitFirst cs).1 ++ (splitFirst cs).2 := by
          rw [List.append_assoc, splitFirst_append]
        rw [hfirst, ← List.length_append, List.take_left]
      rw [Span.inBytes, String.toList_ofList, List.take_left, htake, utf8ByteSize_ofList,
        utf8ByteSize_ofList]
    · rcases splitFirst_cases cs with ⟨hfirst, hafter⟩ | hcs
      · rw [hafter, rawSegments, dif_pos rfl, ← hfirst, byteSpansFrom, dif_neg (by omega)]
        rfl
      · have hbefore : before ++ cs =
            (before ++ ((splitFirst cs).1 ++ ['.'])) ++ (splitFirst cs).2.drop 1 := by
          conv_lhs => rw [hcs]
          simp
        have hstart : (bytes (before ++ (splitFirst cs).1)).length + 1 =
            (bytes (before ++ ((splitFirst cs).1 ++ ['.']))).length := by
          rw [← List.append_assoc, bytes_append _ ['.'], List.length_append]
          rfl
        have hlength : before.length + (splitFirst cs).1.length + 1 =
            (before ++ ((splitFirst cs).1 ++ ['.'])).length := by
          rw [← List.append_assoc, List.length_append, List.length_append]
          rfl
        rw [hstart, hlength, hbefore]
        exact ih (before ++ ((splitFirst cs).1 ++ ['.']))

/-- **Scanning a name byte by byte** finds the spans of its segments. -/
theorem byteSpans_eq (name : String) : byteSpans name = (spans name).map (Span.inBytes name) := by
  have hscan := byteSpansFrom_bytes [] name.toList
  rw [List.nil_append, String.ofList_toList] at hscan
  rw [byteSpans, toUTF8_eq]
  exact hscan

variable {name : String}

/-- More characters take more bytes. -/
theorem utf8ByteSize_take_lt {i j : Nat} (hij : i < j) (hj : j ≤ name.length) :
    (String.ofList (name.toList.take i)).utf8ByteSize <
      (String.ofList (name.toList.take j)).utf8ByteSize := by
  have hmore : name.toList.take j = name.toList.take i ++ (name.toList.take j).drop i := by
    nth_rewrite 1 [← List.take_append_drop i (name.toList.take j)]
    rw [List.take_take, Nat.min_eq_left hij.le]
  have hne : (name.toList.take j).drop i ≠ [] := by
    rw [ne_eq, List.drop_eq_nil_iff, List.length_take, String.length_toList]
    omega
  rw [hmore, String.ofList_append, String.utf8ByteSize_append, Nat.lt_add_right_iff_pos]
  refine Nat.pos_of_ne_zero fun hzero => hne ?_
  rw [String.utf8ByteSize_eq_zero_iff] at hzero
  rw [← String.toList_ofList (l := (name.toList.take j).drop i), hzero]
  rfl

end Name

end PropertyBinding

import Mathlib.Data.List.Chain
import PropertyBinding.Source.Environment
import PropertyBinding.Proofs.DerivedNames
import PropertyBinding.Proofs.Freezing

/-!
# Names of environment variables

A segment of lower-case words with hyphens between them stands in the name of a variable as its
words in upper case with underscores between them (`Properties.variableSegment`). It has no two
underscores in a row and none at its end, so cutting the name of a variable at two underscores gives
the label and the segments back (`Properties.piecesAtDouble_variableName`), and every segment is
decoded to itself (`Properties.environmentSegment_variableSegment`).

Attributes get their segments from identifiers. The hyphenated form of an identifier whose words are
in lower case replaces each underscore by a hyphen (`Naming.hyphenate_eq`), so its variable segment
is the identifier in upper case (`Properties.variableSegment_hyphenate`).

It follows that every leaf whose pattern consists of such segments can be set by a variable, the one
that is named for the segments (`Properties.variableName_reaches`).
-/

namespace PropertyBinding

/-! ### Pieces between single and doubled marks -/

namespace Text

variable {mark sep : Char} {c : Char} {cs piece rest : List Char}

theorem pieces_cons (h : c ≠ sep) (cs : List Char) :
    pieces sep (c :: cs) = (pieces sep cs).modifyHead (c :: ·) := by
  obtain ⟨piece, rest, hpieces⟩ := List.exists_cons_of_ne_nil (pieces_ne_nil sep cs)
  rw [pieces, if_neg h, hpieces]
  rfl

theorem mem_of_mem_pieces (hpiece : piece ∈ pieces sep cs) (hc : c ∈ piece) : c ∈ cs := by
  induction cs generalizing piece with
  | nil =>
    obtain rfl := List.mem_singleton.mp hpiece
    cases hc
  | cons d cs ih =>
    by_cases hd : d = sep
    · rw [pieces, if_pos hd] at hpiece
      rcases List.mem_cons.mp hpiece with rfl | hpiece
      · cases hc
      · exact List.mem_cons_of_mem d (ih hpiece hc)
    · obtain ⟨first, others, hpieces⟩ := List.exists_cons_of_ne_nil (pieces_ne_nil sep cs)
      rw [pieces_cons hd, hpieces] at hpiece
      rw [hpieces] at ih
      rcases List.mem_cons.mp hpiece with rfl | hpiece
      · rcases List.mem_cons.mp hc with rfl | hc
        · exact List.mem_cons_self
        · exact List.mem_cons_of_mem d (ih List.mem_cons_self hc)
      · exact List.mem_cons_of_mem d (ih (List.mem_cons_of_mem first hpiece) hc)

/-- Replacing characters keeps the pieces if it keeps the separators. -/
theorem pieces_map {f : Char → Char} (h : ∀ c ∈ cs, f c = mark ↔ c = sep) :
    pieces mark (cs.map f) = (pieces sep cs).map (List.map f) := by
  induction cs with
  | nil => rfl
  | cons c cs ih =>
    obtain ⟨hc, hcs⟩ := List.forall_mem_cons.mp h
    rw [List.map_cons]
    by_cases hsep : c = sep
    · rw [pieces, if_pos (hc.mpr hsep), ih hcs, pieces, if_pos hsep, List.map_cons, List.map_nil]
    · obtain ⟨piece, rest, hpieces⟩ := List.exists_cons_of_ne_nil (pieces_ne_nil sep cs)
      rw [pieces_cons (mt hc.mp hsep), ih hcs, pieces_cons hsep, hpieces]
      rfl

/-- Joining the pieces with a mark puts it in place of the separators. -/
theorem intercalate_pieces (mark sep : Char) (cs : List Char) :
    [mark].intercalate (pieces sep cs) = cs.map fun c => if c = sep then mark else c := by
  induction cs with
  | nil => rfl
  | cons c cs ih =>
    obtain ⟨piece, rest, hpieces⟩ := List.exists_cons_of_ne_nil (pieces_ne_nil sep cs)
    rw [hpieces] at ih
    rw [List.map_cons, ← ih]
    by_cases hsep : c = sep
    · rw [pieces, if_pos hsep, if_pos hsep, hpieces, List.intercalate_cons_cons]
      rfl
    · rw [pieces_cons hsep, if_neg hsep, hpieces, List.modifyHead_cons]
      cases rest with
      | nil => rw [List.intercalate_singleton, List.intercalate_singleton]
      | cons next rest => simp only [List.intercalate_cons_cons, List.cons_append]

/-- Joining the pieces with dots gives a text back that has been cut at its dots. -/
theorem intercalate_split (text : String) : String.intercalate "." (split '.' text) = text := by
  refine String.toList_inj.mp ?_
  have hlists : ((split '.' text).map String.toList) = pieces '.' text.toList := by
    rw [split, List.map_map]
    simp [Function.comp_def]
  have hself : (fun c => if c = '.' then '.' else c) = id := funext fun c => by
    split_ifs with hdot
    · exact hdot.symm
    · rfl
  rw [String.toList_intercalate, hlists, show ".".toList = ['.'] from rfl, intercalate_pieces,
    hself, List.map_id]

/-- Whether a text has no two marks in a row and none at its end. -/
def Undoubled (mark : Char) (cs : List Char) : Prop :=
  (cs ++ [mark]).IsChain fun c d => c = mark → d ≠ mark

/-- If only the first piece may be empty, there are no two separators in a row and none at the
end. -/
theorem undoubled_of_pieces (h : ∀ piece ∈ (pieces sep cs).tail, piece ≠ []) :
    Undoubled sep cs := by
  induction cs with
  | nil => exact List.isChain_singleton _
  | cons c cs ih =>
    by_cases hsep : c = sep
    · rw [pieces, if_pos hsep, List.tail_cons] at h
      refine List.isChain_cons.mpr
        ⟨fun d hd _ hmark => ?_, ih fun piece hpiece => h piece (List.mem_of_mem_tail hpiece)⟩
      subst hmark
      -- A separator behind a separator would leave an empty piece in between.
      have hempty : [] ∈ pieces d cs := by
        cases cs with
        | nil => exact List.mem_singleton_self _
        | cons first cs =>
          obtain rfl : first = d := by simpa using hd
          rw [pieces, if_pos rfl]
          exact List.mem_cons_self
      exact h [] hempty rfl
    · rw [pieces_cons hsep, List.tail_modifyHead] at h
      exact List.isChain_cons.mpr ⟨fun d _ hmark => absurd hmark hsep, ih h⟩

theorem piecesAtDouble_cons (h : c = mark → cs.head? ≠ some mark) :
    piecesAtDouble mark (c :: cs) = (piecesAtDouble mark cs).modifyHead (c :: ·) := by
  cases cs with
  | nil => rfl
  | cons d cs =>
    obtain ⟨piece, rest, hpieces⟩ :=
      List.exists_cons_of_ne_nil (piecesAtDouble_ne_nil mark (d :: cs))
    rw [piecesAtDouble, if_neg fun hmarks => h hmarks.1 (by rw [hmarks.2]; rfl), hpieces]
    rfl

/-- A text with neither two marks in a row nor one at its end is the only piece. -/
theorem Undoubled.piecesAtDouble_eq (h : Undoubled mark cs) : piecesAtDouble mark cs = [cs] := by
  induction cs with
  | nil => rfl
  | cons c cs ih =>
    obtain ⟨hc, hcs⟩ := List.isChain_cons.mp h
    have hnext : c = mark → cs.head? ≠ some mark := fun hmark hhead =>
      hc mark (by simp [hhead]) hmark rfl
    rw [piecesAtDouble_cons hnext, ih hcs, List.modifyHead_cons]

/-- In front of two marks, it is the first piece. -/
theorem Undoubled.piecesAtDouble_append (h : Undoubled mark cs) (rest : List Char) :
    piecesAtDouble mark (cs ++ mark :: mark :: rest) = cs :: piecesAtDouble mark rest := by
  induction cs with
  | nil => rw [List.nil_append, piecesAtDouble, if_pos ⟨rfl, rfl⟩]
  | cons c cs ih =>
    obtain ⟨hc, hcs⟩ := List.isChain_cons.mp h
    have hnext : c = mark → (cs ++ mark :: mark :: rest).head? ≠ some mark := fun hmark hhead =>
      hc mark (by simpa using hhead) hmark rfl
    rw [List.cons_append, piecesAtDouble_cons hnext, ih hcs, List.modifyHead_cons]

/-- **Cutting at two marks** gives texts back that have been joined with two marks. -/
theorem piecesAtDouble_flatMap {texts : List (List Char)} (hcs : Undoubled mark cs)
    (h : ∀ text ∈ texts, Undoubled mark text) :
    piecesAtDouble mark (cs ++ texts.flatMap fun text => mark :: mark :: text) = cs :: texts := by
  induction texts generalizing cs with
  | nil => rw [List.flatMap_nil, List.append_nil, hcs.piecesAtDouble_eq]
  | cons text texts ih =>
    obtain ⟨htext, htexts⟩ := List.forall_mem_cons.mp h
    rw [List.flatMap_cons, List.cons_append, List.cons_append, hcs.piecesAtDouble_append,
      ih htext htexts]

end Text

/-! ### Words in lower case -/

section Spaced

variable {mark : Char} {c : Char} {text : String}

/-- Whether a text consists of words of lower-case ASCII letters and digits with single marks
between them. -/
structure IsSpaced (mark : Char) (text : String) : Prop where
  chars : ∀ c ∈ text.toList, c = mark ∨ c.isLower = true ∨ c.isDigit = true
  words : ∀ word ∈ Text.pieces mark text.toList, word ≠ []

instance (mark : Char) (text : String) : Decidable (IsSpaced mark text) :=
  decidable_of_iff (text.toList.all (fun c => c = mark ∨ c.isLower = true ∨ c.isDigit = true) ∧
      (Text.pieces mark text.toList).all (· ≠ [])) (by
    simp only [List.all_eq_true, decide_eq_true_eq]
    exact ⟨fun h => ⟨h.1, h.2⟩, fun h => ⟨h.chars, h.words⟩⟩)

theorem ne_of_letter {d : Char} (h : c.isLower = true ∨ c.isDigit = true)
    (hd : ¬(d.isLower = true ∨ d.isDigit = true)) : c ≠ d := by
  rintro rfl
  exact hd h

/-- A lower-case letter or digit of ASCII is no capital, and it is the lower case of its upper case,
which is an ASCII character too. -/
theorem upper_of_letter (h : c.isLower = true ∨ c.isDigit = true) :
    c.toNat < 128 ∧ Text.isUpper c = false ∧ c.toUpper.toNat < 128 ∧ c.toUpper.toLower = c := by
  have halphanum : c.isAlphanum = ((c.isUpper || c.isLower) || c.isDigit) := rfl
  have hlt : c.toNat < 128 := Naming.toNat_lt_of_isAlphanum (by
    rcases h with h | h <;> simp [halphanum, h])
  have hascii : ∀ n < 128, (Char.ofNat n).isLower = true ∨ (Char.ofNat n).isDigit = true →
      Text.isUpper (Char.ofNat n) = false ∧ (Char.ofNat n).toUpper.toNat < 128 ∧
        (Char.ofNat n).toUpper.toLower = Char.ofNat n := by decide +kernel
  exact ⟨hlt, Naming.forall_ascii (p := fun c => c.isLower = true ∨ c.isDigit = true →
    Text.isUpper c = false ∧ c.toUpper.toNat < 128 ∧ c.toUpper.toLower = c) hascii hlt h⟩

/-- What is true of the mark and of all lower-case letters and digits is true of the characters of
the text. -/
theorem IsSpaced.forall_chars {p : Char → Prop} (h : IsSpaced mark text) (hmark : p mark)
    (hletter : ∀ c, c.isLower = true ∨ c.isDigit = true → p c) : ∀ c ∈ text.toList, p c := by
  intro c hc
  rcases h.chars c hc with rfl | hc
  · exact hmark
  · exact hletter c hc

/-- The words have no dots, quotation marks or wildcards in them. -/
theorem IsSpaced.bare (h : IsSpaced '-' text) : Name.Bare text ∧ text ≠ wildcard := by
  have hnot : ∀ c ∈ text.toList, c ≠ '.' ∧ c ≠ '"' ∧ c ≠ '*' :=
    h.forall_chars (by decide) fun c hc => ⟨ne_of_letter hc (by decide),
      ne_of_letter hc (by decide), ne_of_letter hc (by decide)⟩
  refine ⟨⟨?_, fun hdot => (hnot _ hdot).1 rfl,
    fun hmark => (hnot _ (List.mem_of_head? hmark)).2.1 rfl⟩, ?_⟩
  · rintro rfl
    exact h.words [] (List.mem_singleton_self _) rfl
  · rintro rfl
    exact (hnot '*' (by decide)).2.2 rfl

end Spaced

/-! ### Identifiers -/

namespace Naming

variable {mark before : Char} {current cs : List Char} {ident : String}

/-- The humps of a text without capitals, in which only one kind of mark separates humps, are what
stands between the marks, as far as it is not empty. -/
theorem humpsFrom_eq (hmark : mark = '_' ∨ mark = '-')
    (h : ∀ c ∈ cs, Text.isUpper c = false ∧ (c = '_' ∨ c = '-' → c = mark)) :
    humpsFrom before current cs =
      ((Text.pieces mark cs).modifyHead (current ++ ·)).filter (· ≠ []) := by
  induction cs generalizing before current with
  | nil =>
    rw [humpsFrom, Text.pieces, List.modifyHead_cons, List.append_nil]
    split_ifs with hnil <;> simp [hnil]
  | cons c cs ih =>
    obtain ⟨⟨hupper, hseparator⟩, hcs⟩ := List.forall_mem_cons.mp h
    rw [humpsFrom]
    by_cases hcut : c = mark
    · have hrest : humpsFrom c [] cs = (Text.pieces mark cs).filter (· ≠ []) := by
        rw [ih hcs]
        cases Text.pieces mark cs <;> rfl
      rw [if_pos (hcut ▸ hmark), hrest, Text.pieces, if_pos hcut, List.modifyHead_cons,
        List.append_nil]
      split_ifs with hnil <;> simp [hnil]
    · rw [if_neg (mt hseparator hcut), if_neg fun hbegins => by simp [hupper] at hbegins, ih hcs,
        Text.pieces_cons hcut]
      cases Text.pieces mark cs <;> simp

/-- Of ASCII characters, only the capitals have another lower case. -/
theorem toLower_of_not_isUpper {c : Char} (hlt : c.toNat < 128) (h : Text.isUpper c = false) :
    c.toLower = c := by
  have hascii : ∀ n < 128, Text.isUpper (Char.ofNat n) = false →
      (Char.ofNat n).toLower = Char.ofNat n := by decide +kernel
  exact forall_ascii (p := fun c => Text.isUpper c = false → c.toLower = c) hascii hlt h

/-- Words in lower case between single marks of one kind are the humps, and the hyphenated form has
hyphens between them. -/
theorem toList_hyphenate (hmark : mark = '_' ∨ mark = '-')
    (hchars : ∀ c ∈ ident.toList, c.toNat < 128 ∧ Text.isUpper c = false ∧
      (c = '_' ∨ c = '-' → c = mark))
    (hwords : ∀ word ∈ Text.pieces mark ident.toList, word ≠ []) :
    (hyphenate ident).toList = ['-'].intercalate (Text.pieces mark ident.toList) := by
  have hhumps : humps ident.toList = Text.pieces mark ident.toList := by
    have hself : (Text.pieces mark ident.toList).modifyHead ([] ++ ·) =
        Text.pieces mark ident.toList := by
      cases Text.pieces mark ident.toList <;> rfl
    rw [humps, humpsFrom_eq hmark fun c hc => (hchars c hc).2, hself, List.filter_eq_self]
    simpa using hwords
  have hlower : ∀ hump ∈ Text.pieces mark ident.toList, Text.lower hump = hump := by
    intro hump hhump
    have hascii := fun c hc => hchars c (Text.mem_of_mem_pieces hhump hc)
    rw [lower_of_ascii fun c hc => (hascii c hc).1]
    refine (List.map_congr_left fun c hc => ?_).trans (List.map_id _)
    obtain ⟨hlt, hupper, -⟩ := hascii c hc
    exact toLower_of_not_isUpper hlt hupper
  rw [hyphenate, toList_hyphenateHumps, hhumps]
  exact congrArg _ ((List.map_congr_left hlower).trans (List.map_id _))

/-- **The hyphenated form of an identifier** of lower-case words has hyphens in place of the
underscores. -/
theorem hyphenate_eq (h : IsSpaced '_' ident) :
    hyphenate ident = String.ofList (ident.toList.map fun c => if c = '_' then '-' else c) := by
  have hchars : ∀ c ∈ ident.toList, c.toNat < 128 ∧ Text.isUpper c = false ∧
      (c = '_' ∨ c = '-' → c = '_') := by
    refine h.forall_chars (by decide) fun c hc => ?_
    obtain ⟨hlt, hupper, -⟩ := upper_of_letter hc
    exact ⟨hlt, hupper, fun hmark => hmark.resolve_right (ne_of_letter hc (by decide))⟩
  refine String.toList_inj.mp ?_
  rw [toList_hyphenate (Or.inl rfl) hchars h.words, Text.intercalate_pieces, String.toList_ofList]

/-- The hyphenated form consists of the same words. -/
theorem isSpaced_hyphenate (h : IsSpaced '_' ident) : IsSpaced '-' (hyphenate ident) := by
  have hmarks : ∀ c ∈ ident.toList, (if c = '_' then '-' else c) = '-' ↔ c = '_' := by
    refine h.forall_chars (by decide) fun c hc => ?_
    have hunderscore : c ≠ '_' := ne_of_letter hc (by decide)
    rw [if_neg hunderscore]
    exact iff_of_false (ne_of_letter hc (by decide)) hunderscore
  rw [hyphenate_eq h]
  refine ⟨fun c hc => ?_, fun word hword => ?_⟩
  · rw [String.toList_ofList] at hc
    obtain ⟨d, hd, rfl⟩ := List.mem_map.mp hc
    split_ifs with hmark
    · exact Or.inl rfl
    · exact Or.inr ((h.chars d hd).resolve_left hmark)
  · rw [String.toList_ofList, Text.pieces_map hmarks] at hword
    obtain ⟨piece, hpiece, rfl⟩ := List.mem_map.mp hword
    simpa using h.words piece hpiece

end Naming

/-! ### Variables -/

namespace Properties

variable {label label' segment ident : String} {segments segments' : List String}

/-- A segment as it stands in the name of a variable: in upper case, with underscores in place of
the hyphens. -/
def variableSegment (segment : String) : List Char :=
  segment.toList.map fun c => if c = '-' then '_' else c.toUpper

/-- The name of the variable for the segments of a property name behind the label. -/
def variableName (label : String) (segments : List String) : String :=
  String.ofList (label.toList ++ (segments.map variableSegment).flatMap fun piece =>
    '_' :: '_' :: piece)

/-- **A variable segment is decoded** to the segment. -/
theorem environmentSegment_variableSegment (h : IsSpaced '-' segment) :
    environmentSegment (variableSegment segment) = segment := by
  have hchars : ∀ c ∈ segment.toList, (if c = '-' then '_' else c.toUpper).toNat < 128 ∧
      (if (if c = '-' then '_' else c.toUpper).toLower = '_' then '-' else
        (if c = '-' then '_' else c.toUpper).toLower) = c := by
    refine h.forall_chars (by decide) fun c hc => ?_
    obtain ⟨-, -, hlt, hlower⟩ := upper_of_letter hc
    rw [if_neg (ne_of_letter hc (by decide)), hlower, if_neg (ne_of_letter hc (by decide))]
    exact ⟨hlt, rfl⟩
  have hascii : ∀ c ∈ variableSegment segment, c.toNat < 128 :=
    List.forall_mem_map.mpr fun c hc => (hchars c hc).1
  refine String.toList_inj.mp ?_
  rw [environmentSegment, String.toList_ofList, Naming.lower_of_ascii hascii, variableSegment,
    List.map_map, List.map_map]
  exact (List.map_congr_left fun c hc => (hchars c hc).2).trans (List.map_id _)

/-- The variable segment of an attribute is its identifier in upper case. -/
theorem variableSegment_hyphenate (h : IsSpaced '_' ident) :
    variableSegment (Naming.hyphenate ident) = ident.toList.map Char.toUpper := by
  rw [Naming.hyphenate_eq h, variableSegment, String.toList_ofList, List.map_map]
  refine List.map_congr_left (h.forall_chars (by decide) fun c hc => ?_)
  rw [Function.comp_apply, if_neg (ne_of_letter hc (by decide)),
    if_neg (ne_of_letter hc (by decide))]

theorem undoubled_variableSegment (h : IsSpaced '-' segment) :
    Text.Undoubled '_' (variableSegment segment) := by
  have hmarks : ∀ c ∈ segment.toList, (if c = '-' then '_' else c.toUpper) = '_' ↔ c = '-' := by
    refine h.forall_chars (by decide) fun c hc => ?_
    have hhyphen : c ≠ '-' := ne_of_letter hc (by decide)
    rw [if_neg hhyphen]
    refine iff_of_false (fun hupper => ?_) hhyphen
    -- The lower case of an underscore is the underscore, and no letter.
    have hlower := (upper_of_letter hc).2.2.2
    rw [hupper] at hlower
    exact ne_of_letter hc (by decide) hlower.symm
  refine Text.undoubled_of_pieces fun piece hpiece => ?_
  rw [variableSegment, Text.pieces_map hmarks] at hpiece
  obtain ⟨word, hword, rfl⟩ := List.mem_map.mp (List.mem_of_mem_tail hpiece)
  simpa using h.words word hword

/-- **Cutting the name of a variable** at two underscores gives the label and the segments back. -/
theorem piecesAtDouble_variableName (hlabel : Naming.IsWord label.toList)
    (h : ∀ segment ∈ segments, IsSpaced '-' segment) :
    Text.piecesAtDouble '_' (variableName label segments).toList =
      label.toList :: segments.map variableSegment := by
  have hmark : '_' ∉ label.toList := fun hmem => absurd (hlabel.chars '_' hmem) (by decide)
  have hpieces : ∀ piece ∈ (Text.pieces '_' label.toList).tail, piece ≠ [] := by
    rw [Text.pieces_of_not_mem hmark]
    exact List.forall_mem_nil _
  rw [variableName, String.toList_ofList]
  exact Text.piecesAtDouble_flatMap (Text.undoubled_of_pieces hpieces)
    (List.forall_mem_map.mpr fun segment hsegment => undoubled_variableSegment (h segment hsegment))

theorem map_environmentSegment (h : ∀ segment ∈ segments, IsSpaced '-' segment) :
    (segments.map variableSegment).map environmentSegment = segments := by
  rw [List.map_map]
  exact (List.map_congr_left fun segment hsegment =>
    environmentSegment_variableSegment (h segment hsegment)).trans (List.map_id _)

/-- Names of variables tell labels and segments. -/
theorem variableName_inj (hlabel : Naming.IsWord label.toList)
    (hlabel' : Naming.IsWord label'.toList)
    (h : ∀ segment ∈ segments, IsSpaced '-' segment)
    (h' : ∀ segment ∈ segments', IsSpaced '-' segment)
    (heq : variableName label segments = variableName label' segments') :
    label = label' ∧ segments = segments' := by
  have hpieces := piecesAtDouble_variableName hlabel h
  rw [heq, piecesAtDouble_variableName hlabel' h'] at hpieces
  obtain ⟨hlist, hsegments⟩ := List.cons.inj hpieces
  refine ⟨String.toList_inj.mp hlist.symm, ?_⟩
  rw [← map_environmentSegment h, ← map_environmentSegment h', hsegments]

theorem behind?_append (word cs : List Char) : behind? word (word ++ cs) = some cs := by
  rw [behind?, if_pos (List.isPrefixOf_iff_prefix.mpr (List.prefix_append word cs)),
    List.drop_left]

/-- **The property of a variable** that is named for segments has the segments behind the label. -/
theorem environmentName?_variableName (hne : segments ≠ [])
    (h : ∀ segment ∈ segments, IsSpaced '-' segment) :
    environmentName? label (variableName label segments) =
      some (Text.lowercased label ++ "." ++ String.intercalate "." segments) := by
  cases segments with
  | nil => exact absurd rfl hne
  | cons first rest =>
    have hundoubled : ∀ piece ∈ (first :: rest).map variableSegment, Text.Undoubled '_' piece :=
      List.forall_mem_map.mpr fun segment hsegment => undoubled_variableSegment (h segment hsegment)
    obtain ⟨hfirst, hrest⟩ := List.forall_mem_cons.mp hundoubled
    have hlist : (variableName label (first :: rest)).toList = (label.toList ++ ['_', '_']) ++
        (variableSegment first ++
          (rest.map variableSegment).flatMap fun piece => '_' :: '_' :: piece) := by
      simp [variableName]
    have hfull : ((first :: rest).map variableSegment).any (·.isEmpty) = false := by
      rw [List.any_eq_false]
      refine List.forall_mem_map.mpr fun segment hsegment => ?_
      simpa [variableSegment] using (h segment hsegment).bare.1.ne_empty
    rw [environmentName?, hlist, behind?_append]
    simp only [Option.bind_eq_bind, Option.bind_some]
    rw [Text.piecesAtDouble_flatMap hfirst hrest, ← List.map_cons, hfull,
      map_environmentSegment h]
    rw [String.intercalate_cons_cons]
    rfl

/-- The properties of one variable that is named for segments. -/
theorem ofEnvironment_variableName (hne : segments ≠ [])
    (h : ∀ segment ∈ segments, IsSpaced '-' segment) (value : String) :
    ofEnvironment label [(variableName label segments, value)] =
      [(Text.lowercased label ++ "." ++ String.intercalate "." segments, value)] := by
  simp only [ofEnvironment, List.filterMap_cons, environmentName?_variableName hne h]
  rfl

end Properties

/-! ### Leaves -/

section Leaves

variable {good : RootDecl → Prop} {d : Definition} {id : Nat} {leaf : Leaf} {label : String}

/-- A label of letters and digits is a namespace of one segment. -/
theorem Naming.IsWord.bare (h : Naming.IsWord label.toList) :
    Name.Bare (Text.lowercased label) := by
  have hword : Naming.IsWord (Text.lowercased label).toList := by
    rw [Text.lowercased, String.toList_ofList]
    exact h.lower
  refine ⟨fun hempty => hword.ne_nil (by rw [hempty]; rfl), fun hdot => ?_, fun hmark => ?_⟩
  · exact absurd (hword.chars '.' hdot) (by decide)
  · exact absurd (hword.chars '"' (List.mem_of_head? hmark)) (by decide)

/-- A pattern whose pieces are spaced words has them as its segments. -/
theorem segments_of_isSpaced {pattern : String}
    (h : ∀ segment ∈ Text.split '.' pattern, IsSpaced '-' segment) :
    Name.segments pattern = Text.split '.' pattern := by
  have hsegments := Name.segments_intercalate fun segment hsegment => (h segment hsegment).bare.1
  rwa [Text.intercalate_split] at hsegments

/-- A name without wildcards that is the pattern of a leaf leads to the leaf. -/
theorem Built.matchLeaf_pattern (h : Built good d) (hleaf : d.leaf? id = some leaf)
    (hplain : ∀ segment ∈ Name.segments leaf.pattern, segment ≠ wildcard) {cursor : Cursor}
    (hremaining : cursor.remaining = Name.segments leaf.pattern) :
    d.matchLeaf cursor = some (id, leaf) := by
  refine h.sound_any.matchLeaf_iff.mpr ⟨hleaf, ?_, fun i hi => ?_⟩
  · rw [hremaining]
    exact List.forall₂_same.mpr fun segment _ => Or.inr rfl
  · exact absurd rfl (hplain _ (List.mem_of_getElem? hi))

/-- Whether a variable sets a leaf: in an environment that has it alone, it gives the property under
the leaf's pattern behind the label in lower case, and every loader for that namespace finds the
leaf by the name of this property. -/
structure Properties.SetsLeaf (d : Definition) (id : Nat) (leaf : Leaf)
    (label variableName value : String) : Prop where
  property : ofEnvironment label [(variableName, value)] =
    [(Text.lowercased label ++ "." ++ leaf.pattern, value)]
  owned : ∀ l : Loader, l.namespaceName = Text.lowercased label →
    l.Owns (Text.lowercased label ++ "." ++ leaf.pattern)
  matched : d.matchLeaf (Cursor.ofName (Text.lowercased label ++ "." ++ leaf.pattern)).next.2 =
    some (id, leaf)

/-- A leaf is set by the variable that is named for the pieces of its pattern. -/
theorem Built.setsLeaf_variableName (h : Built good d) (hlabel : Naming.IsWord label.toList)
    (hleaf : d.leaf? id = some leaf)
    (hpattern : ∀ segment ∈ Text.split '.' leaf.pattern, IsSpaced '-' segment) (value : String) :
    Properties.SetsLeaf d id leaf label
      (Properties.variableName label (Text.split '.' leaf.pattern)) value := by
  have hne : Text.split '.' leaf.pattern ≠ [] :=
    fun hnil => Text.pieces_ne_nil _ _ (List.map_eq_nil_iff.mp hnil)
  have hplain : ∀ segment ∈ Name.segments leaf.pattern, segment ≠ wildcard := by
    rw [segments_of_isSpaced hpattern]
    exact fun segment hsegment => (hpattern segment hsegment).bare.2
  let l := Loader.ofNamespace (Text.lowercased label)
  have hns : Name.Bare l.namespaceName := hlabel.bare
  refine ⟨?_, fun l' heq => ?_, h.matchLeaf_pattern hleaf hplain (l.remaining_append hns _)⟩
  · rw [Properties.ofEnvironment_variableName hne hpattern, Text.intercalate_split]
  · rw [← heq]
    exact l'.owns_append (heq ▸ hns) _

/-- **Variables reach every leaf of spaced words.** Under a label of letters and digits, every leaf
of a definition built by accepted declarations whose pattern consists of words with hyphens between
them is set by the variable that is named for its pieces. Variables are decoded as attributes are
named: an identifier in upper case becomes its hyphenated form. And the name of a variable tells its
label and its segments. -/
theorem Properties.variableName_reaches :
    (∀ (good : RootDecl → Prop) (label : String) (d : Definition) (id : Nat) (leaf : Leaf)
        (value : String), Naming.IsWord label.toList → Built good d → d.leaf? id = some leaf →
      (∀ segment ∈ Text.split '.' leaf.pattern, IsSpaced '-' segment) →
      SetsLeaf d id leaf label (variableName label (Text.split '.' leaf.pattern)) value) ∧
    (∀ ident : String, IsSpaced '_' ident →
      environmentSegment (ident.toList.map Char.toUpper) = Naming.hyphenate ident) ∧
    ∀ (label label' : String) (segments segments' : List String),
      Naming.IsWord label.toList → Naming.IsWord label'.toList →
      (∀ segment ∈ segments, IsSpaced '-' segment) →
      (∀ segment ∈ segments', IsSpaced '-' segment) →
      variableName label segments = variableName label' segments' →
      label = label' ∧ segments = segments' := by
  refine ⟨fun good label d id leaf value hlabel h hleaf hpattern =>
    h.setsLeaf_variableName hlabel hleaf hpattern value, fun ident hident => ?_,
    fun label label' segments segments' hlabel hlabel' h h' heq =>
      variableName_inj hlabel hlabel' h h' heq⟩
  rw [← variableSegment_hyphenate hident,
    environmentSegment_variableSegment (Naming.isSpaced_hyphenate hident)]

/-- A root with an attribute of which the name has several words. -/
def poolDecl : RootDecl where
  group := ⟨"HttpServerConfig", false,
    [⟨"max_http2_threads", .hyphenated, some "1", .object .integer, false, none⟩]⟩
  name := .hyphenated
  phase := .runTime

theorem built_poolDecl : Built (fun _ => True) (Definition.empty.registerRoot poolDecl).1 :=
  .register .empty trivial (Prod.ext rfl (by decide +kernel))

/-- The attribute of the root is set by a variable under a label with a capital, the variable is
named by the identifier in upper case, and no other path of words has the same variable. -/
theorem Properties.variableName_reaches_pool :
    let d := (Definition.empty.registerRoot poolDecl).1
    let path := ["http-server", "max-http2-threads"]
    variableName "App1" path = "App1__HTTP_SERVER__MAX_HTTP2_THREADS" ∧
      (∃ leaf, d.leaf? 0 = some leaf ∧ leaf.pattern = "http-server.max-http2-threads" ∧
        SetsLeaf d 0 leaf "App1" (variableName "App1" path) "20") ∧
      environmentSegment "MAX_HTTP2_THREADS".toList = Naming.hyphenate "max_http2_threads" ∧
      variableName "App1" path ≠ variableName "App1" ["http", "server", "max-http2-threads"] := by
  intro d path
  have hlabel : Naming.IsWord "App1".toList := ⟨by decide, List.all_eq_true.mp (by decide)⟩
  have hpath : ∀ segment ∈ path, IsSpaced '-' segment := by decide +kernel
  have hpattern : (d.leaf? 0).map (fun leaf => Text.split '.' leaf.pattern) = some path ∧
      (d.leaf? 0).map (·.pattern) = some "http-server.max-http2-threads" := by decide +kernel
  obtain ⟨leaf, hleaf, hsplit⟩ := Option.map_eq_some_iff.mp hpattern.1
  have hspelled : leaf.pattern = "http-server.max-http2-threads" := by
    simpa [hleaf] using hpattern.2
  refine ⟨by decide +kernel, ⟨leaf, hleaf, hspelled, ?_⟩, ?_, fun heq => ?_⟩
  · rw [← hsplit] at hpath ⊢
    exact variableName_reaches.1 _ "App1" d 0 leaf "20" hlabel built_poolDecl hleaf hpath
  · exact variableName_reaches.2.1 "max_http2_threads" (by decide +kernel)
  · have hsame := variableName_reaches.2.2 "App1" "App1" _ _ hlabel hlabel hpath
      (by decide) heq
    exact absurd hsame.2 (by decide)

end Leaves

end PropertyBinding

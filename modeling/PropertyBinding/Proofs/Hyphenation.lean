import Mathlib.Data.List.Chain
import PropertyBinding.Proofs.VariableNames

/-!
# The hyphenated form is a normal form

Cutting an identifier into humps loses nothing but the separators, and no hump is empty
(`Naming.flatten_humpsFrom`, `Naming.ne_nil_of_mem_humpsFrom`). So the hyphenated form of an ASCII
text consists of words in lower case with single hyphens between them
(`Naming.isHyphenated_hyphenate`). In a text that is of this form already, the words are the humps,
and hyphenating changes nothing (`Naming.hyphenate_eq_self`).

Both together say that the texts of this form are those that hyphenating leaves as they are
(`Naming.hyphenate_eq_self_iff`).
-/

namespace PropertyBinding

namespace Text

variable {mark sep : Char} {cs : List Char}

/-- What it means to have no two marks in a row and none at the end. -/
theorem undoubled_iff : Undoubled mark cs ↔
    cs.getLast? ≠ some mark ∧ ∀ front back, cs ≠ front ++ mark :: mark :: back := by
  rw [Undoubled, List.isChain_append, List.isChain_iff_forall_rel_of_append_cons_cons]
  constructor
  · rintro ⟨hchain, -, hlast⟩
    refine ⟨fun hmark => ?_, fun front back hcs => ?_⟩
    · exact hlast mark hmark mark rfl rfl rfl
    · exact hchain hcs rfl rfl
  · rintro ⟨hlast, hapart⟩
    refine ⟨?_, List.isChain_singleton _, ?_⟩
    · rintro c d front back hcs rfl rfl
      exact hapart front back hcs
    · rintro c hc d hd rfl rfl
      exact hlast hc

/-- With no two separators in a row and none at the end, only the first piece may be empty. -/
theorem Undoubled.ne_nil_of_mem_tail (h : Undoubled sep cs) :
    ∀ piece ∈ (pieces sep cs).tail, piece ≠ [] := by
  induction cs with
  | nil => simp [pieces]
  | cons c cs ih =>
    obtain ⟨hc, hcs⟩ := List.isChain_cons.mp h
    by_cases hsep : c = sep
    · rw [pieces, if_pos hsep, List.tail_cons]
      -- Behind a separator comes a character that is none, so the next piece begins with it.
      cases cs with
      | nil => exact absurd rfl (hc sep rfl hsep)
      | cons d cs =>
        have hd : d ≠ sep := hc d rfl hsep
        obtain ⟨first, others, hpieces⟩ := List.exists_cons_of_ne_nil (pieces_ne_nil sep cs)
        have hothers := ih hcs
        rw [pieces_cons hd, hpieces, List.modifyHead_cons, List.tail_cons] at hothers
        rw [pieces_cons hd, hpieces, List.modifyHead_cons]
        exact List.forall_mem_cons.mpr ⟨List.cons_ne_nil _ _, hothers⟩
    · rw [pieces_cons hsep, List.tail_modifyHead]
      exact ih hcs

end Text

namespace Naming

/-- Whether a text is in hyphenated form: it has no capitals and no underscores, it neither begins
nor ends with a hyphen, and no two hyphens stand in a row. -/
structure IsHyphenated (text : String) : Prop where
  no_capital : ∀ c ∈ text.toList, Text.isUpper c = false
  no_underscore : '_' ∉ text.toList
  head : text.toList.head? ≠ some '-'
  last : text.toList.getLast? ≠ some '-'
  apart : ∀ front back, text.toList ≠ front ++ '-' :: '-' :: back

variable {text ident : String}

/-- A text without capitals and underscores is in hyphenated form if hyphens separate words in
it. -/
theorem IsHyphenated.of_pieces (hchars : ∀ c ∈ text.toList, Text.isUpper c = false ∧ c ≠ '_')
    (hwords : ∀ word ∈ Text.pieces '-' text.toList, word ≠ []) : IsHyphenated text := by
  obtain ⟨hlast, hapart⟩ := Text.undoubled_iff.mp
    (Text.undoubled_of_pieces fun word hword => hwords word (List.mem_of_mem_tail hword))
  refine ⟨fun c hc => (hchars c hc).1, fun hmem => (hchars _ hmem).2 rfl, fun hhead => ?_, hlast,
    hapart⟩
  obtain ⟨rest, hrest⟩ := List.head?_eq_some_iff.mp hhead
  refine hwords [] ?_ rfl
  rw [hrest, Text.pieces, if_pos rfl]
  exact List.mem_cons_self

/-- The hyphens of a text in hyphenated form separate words. -/
theorem IsHyphenated.pieces_ne_nil (h : IsHyphenated text) (hne : text ≠ "") :
    ∀ word ∈ Text.pieces '-' text.toList, word ≠ [] := by
  have htail := (Text.undoubled_iff.mpr ⟨h.last, h.apart⟩).ne_nil_of_mem_tail
  obtain ⟨c, cs, hcs⟩ := List.exists_cons_of_ne_nil (mt String.toList_eq_nil_iff.mp hne)
  have hc : c ≠ '-' := by
    rintro rfl
    exact h.head (by rw [hcs]; rfl)
  obtain ⟨first, others, hpieces⟩ := List.exists_cons_of_ne_nil (Text.pieces_ne_nil '-' cs)
  rw [hcs, Text.pieces_cons hc, hpieces, List.modifyHead_cons] at htail ⊢
  exact List.forall_mem_cons.mpr ⟨List.cons_ne_nil _ _, htail⟩

/-- **Hyphenating a text in hyphenated form** changes nothing. -/
theorem hyphenate_eq_self (hascii : ∀ c ∈ text.toList, c.toNat < 128) (h : IsHyphenated text) :
    hyphenate text = text := by
  by_cases hne : text = ""
  · rw [hne]
    rfl
  have hchars : ∀ c ∈ text.toList, c.toNat < 128 ∧ Text.isUpper c = false ∧
      (c = '_' ∨ c = '-' → c = '-') := fun c hc =>
    ⟨hascii c hc, h.no_capital c hc, fun hmark => hmark.resolve_left fun heq =>
      h.no_underscore (heq ▸ hc)⟩
  refine String.toList_inj.mp ?_
  rw [toList_hyphenate (Or.inr rfl) hchars (h.pieces_ne_nil hne), Text.intercalate_pieces]
  refine (List.map_congr_left fun c _ => ?_).trans (List.map_id _)
  split_ifs with hmark
  · exact hmark.symm
  · rfl

/-- Whether a character of ASCII may stand in a word of a hyphenated form. -/
def IsWordChar (c : Char) : Prop :=
  c.toNat < 128 ∧ Text.isUpper c = false ∧ c ≠ '_' ∧ c ≠ '-'

instance (c : Char) : Decidable (IsWordChar c) :=
  inferInstanceAs (Decidable (c.toNat < 128 ∧ Text.isUpper c = false ∧ c ≠ '_' ∧ c ≠ '-'))

/-- The humps of an ASCII text, in lower case, are words without capitals. -/
theorem isWordChar_of_mem_lower {hump : List Char} (hascii : ∀ c ∈ ident.toList, c.toNat < 128)
    (h : hump ∈ humps ident.toList) :
    Text.lower hump ≠ [] ∧ ∀ c ∈ Text.lower hump, IsWordChar c := by
  have hchars : ∀ c ∈ hump, c.toNat < 128 ∧ c ≠ '_' ∧ c ≠ '-' := fun c hc => by
    obtain ⟨hmem, hmarks⟩ := (mem_of_mem_humpsFrom h hc).resolve_left List.not_mem_nil
    exact ⟨hascii c hmem, hmarks⟩
  have hlower : ∀ n < 128, Char.ofNat n ≠ '_' ∧ Char.ofNat n ≠ '-' →
      IsWordChar (Char.ofNat n).toLower := by decide +kernel
  rw [lower_of_ascii fun c hc => (hchars c hc).1]
  refine ⟨by simpa using ne_nil_of_mem_humpsFrom h, List.forall_mem_map.mpr fun c hc => ?_⟩
  exact forall_ascii (p := fun c => c ≠ '_' ∧ c ≠ '-' → IsWordChar c.toLower) hlower (hchars c hc).1
    (hchars c hc).2

/-- **The hyphenated form of an ASCII text** is in hyphenated form, and an ASCII text. -/
theorem isHyphenated_hyphenate (hascii : ∀ c ∈ ident.toList, c.toNat < 128) :
    IsHyphenated (hyphenate ident) ∧ ∀ c ∈ (hyphenate ident).toList, c.toNat < 128 := by
  have hwords : ∀ word ∈ (humps ident.toList).map Text.lower,
      word ≠ [] ∧ ∀ c ∈ word, IsWordChar c :=
    List.forall_mem_map.mpr fun hump hmem => isWordChar_of_mem_lower hascii hmem
  have hlist := toList_hyphenateHumps (humps ident.toList)
  rw [← hyphenate] at hlist
  have hchars : ∀ c ∈ (hyphenate ident).toList, c = '-' ∨ IsWordChar c := by
    intro c hc
    rw [hlist] at hc
    refine (mem_of_mem_intercalate hc).imp_right fun hword => ?_
    obtain ⟨word, hword, hc⟩ := hword
    exact (hwords word hword).2 c hc
  refine ⟨?_, fun c hc => (hchars c hc).elim (fun h => h ▸ by decide) fun h => h.1⟩
  by_cases hnil : (humps ident.toList).map Text.lower = []
  · rw [hnil] at hlist
    rw [String.toList_eq_nil_iff.mp hlist]
    exact ⟨by simp, by simp, by simp, by simp, by simp⟩
  · refine IsHyphenated.of_pieces (fun c hc => ?_) ?_
    · exact (hchars c hc).elim (fun h => h ▸ by decide) fun h => ⟨h.2.1, h.2.2.1⟩
    · rw [hlist, Text.pieces_intercalate (fun word hword hhyphen =>
        ((hwords word hword).2 _ hhyphen).2.2.2 rfl) hnil]
      exact fun word hword => (hwords word hword).1

/-- **The texts in hyphenated form** are those that hyphenating leaves as they are. -/
theorem hyphenate_eq_self_iff (hascii : ∀ c ∈ text.toList, c.toNat < 128) :
    hyphenate text = text ↔ IsHyphenated text :=
  ⟨fun h => h ▸ (isHyphenated_hyphenate hascii).1, hyphenate_eq_self hascii⟩

/-- **Humps and hyphenated forms.** No hump of a text is empty, and the humps together are the text
without its underscores and hyphens. Of an ASCII text, the hyphenated form is in hyphenated form,
and hyphenating it once more changes nothing. -/
theorem humps_lossless_and_hyphenate_normal (ident : String) :
    (∀ hump ∈ camelHumps ident, hump ≠ "") ∧
      String.join (camelHumps ident) =
        String.ofList (ident.toList.filter fun c => c ≠ '_' ∧ c ≠ '-') ∧
      ((∀ c ∈ ident.toList, c.toNat < 128) →
        hyphenate (hyphenate ident) = hyphenate ident ∧ IsHyphenated (hyphenate ident)) := by
  refine ⟨?_, ?_, fun hascii => ?_⟩
  · refine List.forall_mem_map.mpr fun hump hmem hempty => ne_nil_of_mem_humpsFrom hmem ?_
    rw [← String.toList_ofList (l := hump), hempty]
    rfl
  · refine String.toList_inj.mp ?_
    rw [String.toList_join, String.toList_ofList, camelHumps, List.flatMap_map]
    simp only [String.toList_ofList]
    rw [List.flatMap_id', humps, flatten_humpsFrom, List.nil_append]
  · obtain ⟨hform, hlow⟩ := isHyphenated_hyphenate hascii
    exact ⟨hyphenate_eq_self hlow hform, hform⟩

/-- A run of capitals, two kinds of separators and a digit. -/
theorem humps_lossless_httpServer :
    camelHumps "_HTTPServer-max__Index2" = ["HTTP", "Server", "max", "Index2"] ∧
      (∀ c ∈ "_HTTPServer-max__Index2".toList, c.toNat < 128) ∧
      hyphenate (hyphenate "_HTTPServer-max__Index2") = "http-server-max-index2" := by
  have hascii : ∀ c ∈ "_HTTPServer-max__Index2".toList, c.toNat < 128 := by simp
  have hform : hyphenate "_HTTPServer-max__Index2" = "http-server-max-index2" := by decide +kernel
  refine ⟨by decide +kernel, hascii, ?_⟩
  rw [((humps_lossless_and_hyphenate_normal _).2.2 hascii).1, hform]

end Naming

end PropertyBinding

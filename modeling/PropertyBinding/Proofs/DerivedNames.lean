import Mathlib.Data.List.Basic
import PropertyBinding.Naming
import PropertyBinding.Proofs.PlainLoading

/-!
# Names derived from identifiers

The humps of a text are not empty, and put together they are the text but for its underscores and
hyphens (`Naming.flatten_humpsFrom`). So an identifier of ASCII letters, digits and underscores is
cut into words of letters and digits, of which there is one at least if the identifier does not
consist of underscores alone (`Naming.IsIdentifier.rootHumps`). The external name that a root gets
from such a type name is one plain name piece (`Naming.plainPiece_hyphenatedRootName`).
-/

namespace PropertyBinding

namespace Naming

/-- Whether a name has ASCII letters, digits and underscores only, and not underscores alone. -/
structure IsIdentifier (name : String) : Prop where
  chars : ∀ c ∈ name.toList, c.isAlphanum = true ∨ c = '_'
  word : ∃ c ∈ name.toList, c.isAlphanum = true

instance (name : String) : Decidable (IsIdentifier name) :=
  decidable_of_iff (name.toList.all (fun c => c.isAlphanum || decide (c = '_')) = true ∧
      name.toList.any Char.isAlphanum = true) (by
    simp only [List.all_eq_true, List.any_eq_true, Bool.or_eq_true, decide_eq_true_eq]
    exact ⟨fun h => ⟨h.1, h.2⟩, fun h => ⟨h.chars, h.word⟩⟩)

/-- Whether a text is not empty and has ASCII letters and digits only. -/
structure IsWord (cs : List Char) : Prop where
  ne_nil : cs ≠ []
  chars : ∀ c ∈ cs, c.isAlphanum = true

/-! ### Letters and digits -/

theorem toNat_lt_of_isAlphanum {c : Char} (h : c.isAlphanum = true) : c.toNat < 128 := by
  have hranges : c.isAlphanum = (decide (65 ≤ c.val ∧ c.val ≤ 90) ||
      decide (97 ≤ c.val) && decide (c.val ≤ 122) ||
        decide (48 ≤ c.val) && decide (c.val ≤ 57)) := rfl
  simp only [hranges, Bool.or_eq_true, Bool.and_eq_true, decide_eq_true_eq,
    UInt32.le_iff_toNat_le] at h
  change ((65 ≤ c.toNat ∧ c.toNat ≤ 90) ∨ 97 ≤ c.toNat ∧ c.toNat ≤ 122) ∨
    48 ≤ c.toNat ∧ c.toNat ≤ 57 at h
  omega

/-- What is true of ASCII characters can be checked one by one. -/
theorem forall_ascii {p : Char → Prop} (h : ∀ n < 128, p (Char.ofNat n)) {c : Char}
    (hc : c.toNat < 128) : p c := by
  have hp := h c.toNat hc
  rwa [Char.ofNat_toNat] at hp

theorem isAlphanum_toLower {c : Char} (h : c.isAlphanum = true) : c.toLower.isAlphanum = true := by
  have hascii : ∀ n < 128, (Char.ofNat n).isAlphanum = true →
      (Char.ofNat n).toLower.isAlphanum = true := by decide +kernel
  exact forall_ascii (p := fun c => c.isAlphanum = true → c.toLower.isAlphanum = true) hascii
    (toNat_lt_of_isAlphanum h) h

/-- Of ASCII characters, each one is put into lower case for itself. -/
theorem lower_of_ascii {cs : List Char} (h : ∀ c ∈ cs, c.toNat < 128) :
    Text.lower cs = cs.map Char.toLower := by
  have hafter : ∀ (before cs : List Char), (∀ c ∈ cs, c.toNat < 128) →
      Text.lowerAfter before cs = cs.map Char.toLower := by
    intro before cs
    induction cs generalizing before with
    | nil => exact fun _ => rfl
    | cons c cs ih =>
      intro h
      obtain ⟨hlt, hcs⟩ := List.forall_mem_cons.mp h
      have hsigma : ¬c.toNat = 0x3A3 := by omega
      rw [Text.lowerAfter, if_neg hsigma, Text.lowerChar, if_pos hlt, ih _ hcs]
      rfl
  exact hafter [] cs h

theorem IsWord.lower {cs : List Char} (h : IsWord cs) : IsWord (Text.lower cs) := by
  rw [lower_of_ascii fun c hc => toNat_lt_of_isAlphanum (h.chars c hc)]
  refine ⟨by simpa using h.ne_nil, fun c hc => ?_⟩
  obtain ⟨d, hd, rfl⟩ := List.mem_map.mp hc
  exact isAlphanum_toLower (h.chars d hd)

/-! ### Humps -/

section Humps

variable {before : Char} {current cs hump : List Char}

/-- No hump is empty. -/
theorem ne_nil_of_mem_humpsFrom (h : hump ∈ humpsFrom before current cs) : hump ≠ [] := by
  induction cs generalizing before current with
  | nil =>
    rw [humpsFrom] at h
    split_ifs at h with hnil
    · cases h
    · obtain rfl := List.mem_singleton.mp h
      exact hnil
  | cons c cs ih =>
    rw [humpsFrom] at h
    split_ifs at h with hcut hnil hbegins
    · exact ih h
    · rcases List.mem_cons.mp h with rfl | h
      · exact hnil
      · exact ih h
    · rcases List.mem_cons.mp h with rfl | h
      · exact hbegins.2.1
      · exact ih h
    · exact ih h

/-- **The humps put together** are what has been read of the current one, and what is to come but
for the underscores and hyphens. -/
theorem flatten_humpsFrom (before : Char) (current cs : List Char) :
    (humpsFrom before current cs).flatten = current ++ cs.filter fun c => c ≠ '_' ∧ c ≠ '-' := by
  induction cs generalizing before current with
  | nil =>
    rw [humpsFrom]
    split_ifs with hnil
    · rw [hnil]
      rfl
    · rw [List.flatten_singleton]
      exact (List.append_nil current).symm
  | cons c cs ih =>
    rw [humpsFrom]
    split_ifs with hcut hnil hbegins
    · rw [ih, hnil, List.filter_cons_of_neg (by simpa using fun h => hcut.resolve_left h)]
    · rw [List.flatten_cons, ih, List.nil_append,
        List.filter_cons_of_neg (by simpa using fun h => hcut.resolve_left h)]
    · rw [List.flatten_cons, ih, List.filter_cons_of_pos (by simpa using not_or.mp hcut)]
      rfl
    · rw [ih, List.filter_cons_of_pos (by simpa using not_or.mp hcut), List.append_assoc]
      rfl

/-- A hump has characters of the current one and of those to come, but no underscores and no
hyphens. -/
theorem mem_of_mem_humpsFrom {c : Char} (h : hump ∈ humpsFrom before current cs) (hc : c ∈ hump) :
    c ∈ current ∨ c ∈ cs ∧ c ≠ '_' ∧ c ≠ '-' := by
  have hmem := List.mem_flatten.mpr ⟨hump, h, hc⟩
  rw [flatten_humpsFrom, List.mem_append, List.mem_filter] at hmem
  simpa using hmem

/-- The humps of an identifier, of which letters and digits have been read, are words. -/
theorem isWord_of_mem_humpsFrom (hcurrent : ∀ c ∈ current, c.isAlphanum = true)
    (hcs : ∀ c ∈ cs, c.isAlphanum = true ∨ c = '_') (h : hump ∈ humpsFrom before current cs) :
    IsWord hump := by
  refine ⟨ne_nil_of_mem_humpsFrom h, fun c hc => ?_⟩
  rcases mem_of_mem_humpsFrom h hc with hmem | ⟨hmem, hmark, -⟩
  · exact hcurrent c hmem
  · exact (hcs c hmem).resolve_right hmark

/-- There is a hump if a letter or a digit has been read or is to come. -/
theorem humpsFrom_ne_nil (h : current ≠ [] ∨ ∃ c ∈ cs, c.isAlphanum = true) :
    humpsFrom before current cs ≠ [] := by
  induction cs generalizing before current with
  | nil =>
    rw [humpsFrom, if_neg (h.resolve_right (by simp))]
    exact List.cons_ne_nil _ _
  | cons c cs ih =>
    rw [humpsFrom]
    split_ifs with hcut hnil
    · refine ih (Or.inr ?_)
      obtain ⟨d, hd, hletter⟩ := h.resolve_left (not_not.mpr hnil)
      rcases List.mem_cons.mp hd with rfl | hd
      · rcases hcut with rfl | rfl <;> exact absurd hletter (by decide)
      · exact ⟨d, hd, hletter⟩
    · exact List.cons_ne_nil _ _
    · exact List.cons_ne_nil _ _
    · exact ih (Or.inl (by simp))

end Humps

variable {name : String}

/-- An identifier has no modules in front of it. -/
theorem IsIdentifier.simpleName_eq (h : IsIdentifier name) :
    simpleName name.toList = name.toList := by
  have hnone : ∀ cs : List Char, ':' ∉ cs → afterColons? cs = none := by
    intro cs hcs
    induction cs with
    | nil => rfl
    | cons c cs ih =>
      obtain ⟨hc, hrest⟩ := not_or.mp (mt List.mem_cons.mpr hcs)
      rw [afterColons?, ih hrest, if_neg fun hcolons => hc hcolons.1.symm]
  have hcolon : ':' ∉ name.toList := fun hmem => by
    rcases h.chars ':' hmem with hletter | heq
    · exact absurd hletter (by decide)
    · exact absurd heq (by decide)
  rw [simpleName, hnone _ hcolon, Option.getD_none]

/-- The humps that name a root are words, and there is one at least. -/
theorem IsIdentifier.rootHumps (h : IsIdentifier name) :
    rootHumps name ≠ [] ∧ ∀ hump ∈ rootHumps name, IsWord hump := by
  have hne : humps name.toList ≠ [] := humpsFrom_ne_nil (Or.inr h.word)
  have hwords : ∀ hump ∈ humps name.toList, IsWord hump :=
    fun hump hmem => isWord_of_mem_humpsFrom (by simp) h.chars hmem
  rw [Naming.rootHumps, h.simpleName_eq]
  split_ifs with hdrop
  · refine ⟨fun hnil => ?_, fun hump hmem => hwords hump (List.dropLast_subset _ hmem)⟩
    -- A word for configuration is dropped only behind another one.
    have hlength := congrArg List.length hnil
    rw [List.length_dropLast, List.length_nil] at hlength
    omega
  · exact ⟨hne, hwords⟩

/-- The hyphenated form has the humps in lower case, with hyphens between them. -/
theorem toList_hyphenateHumps (humps : List (List Char)) :
    (hyphenateHumps humps).toList = ['-'].intercalate (humps.map Text.lower) := by
  rw [hyphenateHumps, String.toList_intercalate, List.map_map]
  simp [Function.comp_def]

/-- A character of joined words is the separator, or a word has it. -/
theorem mem_of_mem_intercalate {sep c : Char} {words : List (List Char)}
    (h : c ∈ [sep].intercalate words) : c = sep ∨ ∃ word ∈ words, c ∈ word := by
  induction words with
  | nil => cases h
  | cons word rest ih =>
    cases rest with
    | nil =>
      rw [List.intercalate_singleton] at h
      exact Or.inr ⟨word, List.mem_cons_self, h⟩
    | cons next rest =>
      rw [List.intercalate_cons_cons, List.mem_append, List.mem_append, List.mem_singleton] at h
      rcases h with (h | h) | h
      · exact Or.inr ⟨word, List.mem_cons_self, h⟩
      · exact Or.inl h
      · refine (ih h).imp_right fun hbelow => ?_
        obtain ⟨later, hlater, hc⟩ := hbelow
        exact ⟨later, List.mem_cons_of_mem word hlater, hc⟩

/-- Words with hyphens between them. -/
theorem chars_of_words {words : List (List Char)} (hne : words ≠ [])
    (h : ∀ word ∈ words, IsWord word) : ['-'].intercalate words ≠ [] ∧
      ∀ c ∈ ['-'].intercalate words, c.isAlphanum = true ∨ c = '-' := by
  constructor
  · obtain ⟨word, rest, rfl⟩ := List.exists_cons_of_ne_nil hne
    have hword := (h word List.mem_cons_self).ne_nil
    cases rest with
    | nil => rwa [List.intercalate_singleton]
    | cons next rest =>
      rw [List.intercalate_cons_cons]
      simp
  · intro c hc
    refine (mem_of_mem_intercalate hc).symm.imp_left fun hword => ?_
    obtain ⟨word, hword, hc⟩ := hword
    exact (h word hword).chars c hc

/-- **The external name of a root** whose type name is an identifier is one plain piece. -/
theorem plainPiece_hyphenatedRootName (h : IsIdentifier name) :
    PlainPiece (hyphenatedRootName name) := by
  obtain ⟨hne, hwords⟩ := h.rootHumps
  have hlist : (hyphenatedRootName name).toList =
      ['-'].intercalate ((Naming.rootHumps name).map Text.lower) := toList_hyphenateHumps _
  have hlower : ∀ word ∈ (Naming.rootHumps name).map Text.lower, IsWord word :=
    List.forall_mem_map.mpr fun hump hmem => (hwords hump hmem).lower
  obtain ⟨hnonempty, hchars⟩ := chars_of_words (by simpa using hne) hlower
  rw [← hlist] at hnonempty hchars
  refine ⟨fun hempty => hnonempty (by rw [hempty]; rfl), fun hdot => ?_, fun hmark => ?_, ?_⟩
  · exact absurd (hchars '.' hdot) (by decide)
  · exact absurd (hchars '"' hmark) (by decide)
  · intro hwildcard
    exact absurd (hchars '*' (by rw [hwildcard]; decide)) (by decide)

end Naming

end PropertyBinding

import Mathlib.Data.List.TakeWhile
import PropertyBinding.Convert
import PropertyBinding.Proofs.NumberText

/-!
# The grammar of byte counts

A byte count is written as digits and at most one letter for its unit, with blanks around them
(`ByteCount.Means`). Which digits and which unit a text has can be read off: cutting off the blanks
leaves the digits and the unit (`Text.trim_append`), and the digits end before the first character
that is none (`ByteCount.means_iff`).

A text is read as a byte count exactly if it is written so and the count lies below `2 ^ 64`. Two
bounds are checked on the way, that of the digits and that of their multiple, and the reason that is
given tells which one has been passed (`Convert.memorySize_accepts`).
-/

namespace PropertyBinding

/-! ### Blanks around a text -/

namespace Text

variable {before cs after : List Char}

/-- A text is what is left of it without its blanks, between blanks. -/
theorem exists_trim (cs : List Char) : ∃ before after, cs = before ++ trim cs ++ after ∧
    (∀ c ∈ before, isBlank c = true) ∧ ∀ c ∈ after, isBlank c = true := by
  refine ⟨cs.takeWhile isBlank, ((cs.dropWhile isBlank).reverse.takeWhile isBlank).reverse, ?_,
    fun c hc => List.mem_takeWhile_imp hc,
    fun c hc => List.mem_takeWhile_imp (List.mem_reverse.mp hc)⟩
  rw [trim, List.append_assoc, ← List.reverse_append, List.takeWhile_append_dropWhile,
    List.reverse_reverse, List.takeWhile_append_dropWhile]

/-- Cutting off the blanks around a text without blanks leaves the text. -/
theorem trim_append (hbefore : ∀ c ∈ before, isBlank c = true)
    (hafter : ∀ c ∈ after, isBlank c = true) (hne : cs ≠ [])
    (h : ∀ c ∈ cs, isBlank c = false) : trim (before ++ cs ++ after) = cs := by
  have hdrop : ∀ {cs : List Char}, cs ≠ [] → (∀ c ∈ cs, isBlank c = false) → ∀ rest,
      (cs ++ rest).dropWhile isBlank = cs ++ rest := by
    intro cs hne h rest
    cases cs with
    | nil => exact absurd rfl hne
    | cons c cs => exact List.dropWhile_cons_of_neg (by simp [h c List.mem_cons_self])
  have hlast :=
    hdrop (List.reverse_ne_nil_iff.mpr hne) (fun c hc => h c (List.mem_reverse.mp hc)) []
  rw [List.append_nil] at hlast
  rw [trim, List.append_assoc, List.dropWhile_append_of_pos hbefore, hdrop hne h,
    List.reverse_append,
    List.dropWhile_append_of_pos fun c hc => hafter c (List.mem_reverse.mp hc), hlast,
    List.reverse_reverse]

end Text

/-! ### Units -/

namespace ByteCount

/-- The letters for units in upper case, each with the power of two for which it stands. -/
def unitLetters : List (Char × Nat) :=
  [('B', 0), ('K', 10), ('M', 20), ('G', 30), ('T', 40), ('P', 50), ('E', 60)]

/-- Whether a text is a unit of `2 ^ exponent` bytes: nothing, or a letter in either case. -/
inductive IsUnit : List Char → Nat → Prop where
  | absent : IsUnit [] 0
  | upper {letter : Char} {exponent : Nat} (mem : (letter, exponent) ∈ unitLetters) :
      IsUnit [letter] exponent
  | lower {letter : Char} {exponent : Nat} (mem : (letter, exponent) ∈ unitLetters) :
      IsUnit [letter.toLower] exponent

variable {cs unit : List Char} {count exponent : Nat}

theorem unitExponent?_of_isUnit (h : IsUnit unit exponent) :
    unitExponent? unit = some exponent := by
  have hupper : ∀ entry ∈ unitLetters, unitExponent? [entry.1] = some entry.2 := by decide
  have hlower : ∀ entry ∈ unitLetters, unitExponent? [entry.1.toLower] = some entry.2 := by decide
  cases h with
  | absent => rfl
  | @upper letter _ mem => exact hupper (letter, exponent) mem
  | @lower letter _ mem => exact hlower (letter, exponent) mem

/-- Upper case leaves a character alone, or takes it to the letter 32 code points before it. -/
theorem toUpper_eq_or (c : Char) : c.toUpper = c ∨ c.toUpper.toNat + 32 = c.toNat := by
  delta Char.toUpper
  split
  · rename_i hletter
    have hlow : 97 ≤ c.val.toNat := UInt32.le_iff_toNat_le.mp hletter.1
    have hhigh : c.val.toNat ≤ 122 := UInt32.le_iff_toNat_le.mp hletter.2
    refine Or.inr ?_
    change (c.val + ('A'.val - 'a'.val)).toNat + 32 = c.val.toNat
    rw [UInt32.toNat_add, show ('A'.val - 'a'.val).toNat = 2 ^ 32 - 32 from rfl]
    omega
  · exact Or.inl rfl

/-- A letter that stands for a unit is one of the list, in either case. -/
theorem isUnit_singleton {c : Char} (h : (c.toUpper, exponent) ∈ unitLetters) :
    IsUnit [c] exponent := by
  rcases toUpper_eq_or c with hupper | hupper
  · rw [hupper] at h
    exact .upper h
  · have hlower : ∀ entry ∈ unitLetters, entry.1.toLower.toNat = entry.1.toNat + 32 := by decide
    have hback : c.toUpper.toLower = c := Char.toNat_inj.mp ((hlower _ h).trans hupper)
    rw [← hback]
    exact .lower h

/-- **The units** are those of the list. -/
theorem unitExponent?_eq_some_iff : unitExponent? unit = some exponent ↔ IsUnit unit exponent := by
  refine ⟨fun h => ?_, unitExponent?_of_isUnit⟩
  match unit, h with
  | [], h =>
    obtain rfl := Option.some.inj h
    exact .absent
  | [c], h =>
    refine isUnit_singleton ?_
    rw [unitExponent?] at h
    split at h <;> simp_all [unitLetters]

/-- A unit begins with a character that is neither a digit nor a blank. -/
theorem IsUnit.chars (h : IsUnit unit exponent) :
    ∀ c ∈ unit, c.isDigit = false ∧ Text.isBlank c = false := by
  have hupper : ∀ entry ∈ unitLetters,
      entry.1.isDigit = false ∧ Text.isBlank entry.1 = false := by decide
  have hlower : ∀ entry ∈ unitLetters,
      entry.1.toLower.isDigit = false ∧ Text.isBlank entry.1.toLower = false := by decide
  cases h with
  | absent => exact List.forall_mem_nil _
  | @upper letter _ mem => exact List.forall_mem_singleton.mpr (hupper (letter, exponent) mem)
  | @lower letter _ mem => exact List.forall_mem_singleton.mpr (hlower (letter, exponent) mem)

/-! ### Digits and a unit -/

/-- Whether a text stands for `count` units of `2 ^ exponent` bytes: it is digits, which denote the
count, and a unit, between blanks. -/
inductive Means : List Char → Nat → Nat → Prop where
  | written {before digits unit after : List Char} {exponent : Nat}
      (blank_before : ∀ c ∈ before, Text.isBlank c = true)
      (blank_after : ∀ c ∈ after, Text.isBlank c = true) (ne_nil : digits ≠ [])
      (only_digits : ∀ c ∈ digits, c.isDigit = true) (unit_for : IsUnit unit exponent) :
      Means (before ++ (digits ++ unit) ++ after) (Nat.ofDigitChars 10 digits 0) exponent

/-- **What a text means** is read off the text without its blanks. -/
theorem means_iff : Means cs count exponent ↔
    (Text.trim cs).takeWhile Char.isDigit ≠ [] ∧
      unitExponent? ((Text.trim cs).dropWhile Char.isDigit) = some exponent ∧
      Numeric.foldDigits 0 ((Text.trim cs).takeWhile Char.isDigit) = count := by
  constructor
  · rintro @⟨before, digits, unit, after, _, hbefore, hafter, hne, hdigits, hunit⟩
    have hplain : ∀ c ∈ digits ++ unit, Text.isBlank c = false :=
      List.forall_mem_append.mpr
        ⟨fun c hc => Text.isBlank_eq_false_of_isDigit (hdigits c hc),
          fun c hc => (hunit.chars c hc).2⟩
    have hstop : unit.takeWhile Char.isDigit = [] ∧ unit.dropWhile Char.isDigit = unit := by
      cases unit with
      | nil => exact ⟨rfl, rfl⟩
      | cons c rest =>
        have hc := (hunit.chars c List.mem_cons_self).1
        exact ⟨List.takeWhile_cons_of_neg (by simp [hc]), List.dropWhile_cons_of_neg (by simp [hc])⟩
    rw [Text.trim_append hbefore hafter (List.append_ne_nil_of_left_ne_nil hne unit) hplain,
      List.takeWhile_append_of_pos hdigits, List.dropWhile_append_of_pos hdigits, hstop.1, hstop.2,
      List.append_nil]
    exact ⟨hne, unitExponent?_of_isUnit hunit, rfl⟩
  · rintro ⟨hne, hunit, rfl⟩
    obtain ⟨before, after, hcs, hbefore, hafter⟩ := Text.exists_trim cs
    have hmeans := Means.written hbefore hafter hne (fun c hc => List.mem_takeWhile_imp hc)
      (unitExponent?_eq_some_iff.mp hunit)
    rwa [List.takeWhile_append_dropWhile, ← hcs] at hmeans

/-- A text means one count and one unit. -/
theorem Means.unique {count' exponent' : Nat} (h : Means cs count exponent)
    (h' : Means cs count' exponent') : count' = count ∧ exponent' = exponent := by
  obtain ⟨-, hunit, rfl⟩ := means_iff.mp h
  obtain ⟨-, hunit', rfl⟩ := means_iff.mp h'
  exact ⟨rfl, Option.some.inj (hunit'.symm.trans hunit)⟩

theorem Means.exists_iff (h : Means cs count exponent) {P : Nat → Nat → Prop} :
    (∃ count exponent, Means cs count exponent ∧ P count exponent) ↔ P count exponent := by
  constructor
  · rintro ⟨count', exponent', h', hP⟩
    obtain ⟨rfl, rfl⟩ := h.unique h'
    exact hP
  · exact fun hP => ⟨count, exponent, h, hP⟩

end ByteCount

/-! ### Reading byte counts -/

namespace Convert

variable {raw : String} {count exponent : Nat}

/-- Reading digits and a unit checks the digits, and then their multiple. -/
theorem memorySize_of_means (h : ByteCount.Means raw.toList count exponent) :
    memorySize raw =
      if 2 ^ 64 ≤ count then .error (.memorySize raw)
      else if 2 ^ 64 ≤ count * 2 ^ exponent then .error (.memorySizeRange raw)
      else .ok (UInt64.ofNat (count * 2 ^ exponent)) := by
  obtain ⟨hne, hunit, rfl⟩ := ByteCount.means_iff.mp h
  rw [memorySize, ByteCount.read]
  have hsize : UInt64.size = 2 ^ 64 := rfl
  simp only [if_neg hne, hunit, Nat.shiftLeft_eq, hsize]
  split_ifs <;> rfl

/-- A text of another form is no byte count. -/
theorem memorySize_of_not_means
    (h : ∀ count exponent, ¬ByteCount.Means raw.toList count exponent) :
    memorySize raw = .error (.memorySize raw) := by
  rw [memorySize, ByteCount.read]
  by_cases hne : (Text.trim raw.toList).takeWhile Char.isDigit = []
  · simp only [hne, if_true]
  · cases hunit : ByteCount.unitExponent? ((Text.trim raw.toList).dropWhile Char.isDigit) with
    | none => simp only [if_neg hne]
    | some exponent => exact absurd (ByteCount.means_iff.mpr ⟨hne, hunit, rfl⟩) (h _ _)

/-- **Which texts are byte counts.** A text is read as the count `n` exactly if it is digits and at
most one letter for the unit, between blanks, which mean `n`, and `n` is below `2 ^ 64`. Otherwise
the reason is that the count is out of range exactly if the text has this form and its digits alone
are below `2 ^ 64`; and else that the text is no byte count. -/
theorem memorySize_accepts (raw : String) :
    (∀ n, memorySize raw = .ok n ↔ ∃ count exponent, ByteCount.Means raw.toList count exponent ∧
      count * 2 ^ exponent < 2 ^ 64 ∧ n.toNat = count * 2 ^ exponent) ∧
    ((memorySize raw).mapError ConversionError.message =
        .error ("memory size out of range: '" ++ raw ++ "'") ↔
      ∃ count exponent, ByteCount.Means raw.toList count exponent ∧ count < 2 ^ 64 ∧
        2 ^ 64 ≤ count * 2 ^ exponent) ∧
    ((memorySize raw).mapError ConversionError.message =
        .error ("invalid memory size: '" ++ raw ++ "'") ↔
      ∀ count exponent, ByteCount.Means raw.toList count exponent → 2 ^ 64 ≤ count) := by
  have hne : "invalid memory size: '" ++ raw ++ "'" ≠
      "memory size out of range: '" ++ raw ++ "'" := by
    intro heq
    have hlist := congrArg String.toList heq
    simp [String.toList_append] at hlist
  by_cases hform : ∃ count exponent, ByteCount.Means raw.toList count exponent
  · obtain ⟨count, exponent, hmeans⟩ := hform
    have hlarge : (∀ count exponent, ByteCount.Means raw.toList count exponent → 2 ^ 64 ≤ count) ↔
        2 ^ 64 ≤ count := by
      refine ⟨fun h => h count exponent hmeans, fun h count' exponent' hmeans' => ?_⟩
      rwa [(hmeans.unique hmeans').1]
    have hle : count ≤ count * 2 ^ exponent := Nat.le_mul_of_pos_right _ (Nat.two_pow_pos _)
    rw [memorySize_of_means hmeans, hlarge]
    simp only [hmeans.exists_iff]
    split_ifs with hcount hproduct
    · refine ⟨fun n => iff_of_false nofun fun h => ?_, iff_of_false (fun heq => ?_) fun h => ?_,
        iff_of_true rfl hcount⟩
      · exact absurd (hcount.trans hle) (Nat.not_le.mpr h.1)
      · exact hne (Except.error.inj heq)
      · exact absurd hcount (Nat.not_le.mpr h.1)
    · refine ⟨fun n => iff_of_false nofun fun h => ?_,
        iff_of_true rfl ⟨Nat.lt_of_not_le hcount, hproduct⟩, iff_of_false (fun heq => ?_) hcount⟩
      · exact absurd hproduct (Nat.not_le.mpr h.1)
      · exact hne (Except.error.inj heq).symm
    · have hlt := Nat.lt_of_not_le hproduct
      have htoNat : (UInt64.ofNat (count * 2 ^ exponent)).toNat = count * 2 ^ exponent :=
        UInt64.toNat_ofNat_of_lt hlt
      refine ⟨fun n => ⟨fun h => ⟨hlt, ?_⟩, fun h => ?_⟩, iff_of_false nofun fun h => hproduct h.2,
        iff_of_false nofun hcount⟩
      · rw [← Except.ok.inj h, htoNat]
      · rw [UInt64.toNat_inj.mp (htoNat.trans h.2.symm)]
  · have hnone : ∀ count exponent, ¬ByteCount.Means raw.toList count exponent :=
      fun count exponent hmeans => hform ⟨count, exponent, hmeans⟩
    rw [memorySize_of_not_means hnone]
    refine ⟨fun n => iff_of_false nofun ?_, iff_of_false (fun heq => ?_) ?_,
      iff_of_true rfl fun count exponent hmeans => absurd hmeans (hnone _ _)⟩
    · rintro ⟨count, exponent, hmeans, -⟩
      exact hnone _ _ hmeans
    · exact hne (Except.error.inj heq)
    · rintro ⟨count, exponent, hmeans, -⟩
      exact hnone _ _ hmeans

/-- The largest count, behind zeros, and the least that is out of range. -/
example : memorySize " 0018446744073709551615b" = .ok 18446744073709551615 ∧
    memorySize "16E" = .error (.memorySizeRange "16E") := by
  decide +kernel

end Convert

end PropertyBinding

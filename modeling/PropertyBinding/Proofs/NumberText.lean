import PropertyBinding.Numeric.FloatText
import PropertyBinding.Numeric.Reading
import PropertyBinding.Proofs.JsonText
import PropertyBinding.Text.Characters

/-!
# Numbers as text

The text of an integer is read as this integer (`Numeric.integer?_toString`), and as an integer of
64 bits if and only if it is one (`Numeric.int64?_toString`). The plain text of a floating-point
number is a word or a decimal number behind at most a sign, all of which are read
(`Numeric.exists_floating?_write`). Neither has blanks at its ends, so that both are read as they
stand.
-/

namespace PropertyBinding

/-! ### Blanks -/

namespace Text

variable {cs : List Char}

/-- A text without blanks is left as it is. -/
theorem trim_eq_self (h : ∀ c ∈ cs, isBlank c = false) : trim cs = cs := by
  have hself : ∀ {cs : List Char}, (∀ c ∈ cs, isBlank c = false) → cs.dropWhile isBlank = cs := by
    intro cs h
    cases cs with
    | nil => rfl
    | cons c cs => rw [List.dropWhile_cons_of_neg (by simp [h c List.mem_cons_self])]
  rw [trim, hself h, hself fun c hc => h c (List.mem_reverse.mp hc), List.reverse_reverse]

theorem isBlank_eq_false_of_isDigit {c : Char} (h : c.isDigit = true) : isBlank c = false := by
  rw [Char.isDigit, Bool.and_eq_true, decide_eq_true_iff, decide_eq_true_iff] at h
  have hlow : 48 ≤ c.toNat := h.1
  have hhigh : c.toNat ≤ 57 := h.2
  simp only [isBlank, Bool.or_eq_false_iff, Bool.and_eq_false_iff, decide_eq_false_iff_not,
    beq_eq_false_iff_ne]
  omega

end Text

/-! ### Integers -/

namespace Numeric

theorem natural?_of_digits {cs : List Char} (hne : cs ≠ []) (h : ∀ c ∈ cs, c.isDigit = true) :
    natural? cs = some (foldDigits 0 cs) :=
  if_pos ⟨hne, List.all_eq_true.mpr h⟩

theorem natural?_toDigits (n : Nat) : natural? (Nat.toDigits 10 n) = some n := by
  rw [natural?_of_digits Nat.toDigits_ne_nil fun c => isDigit_of_mem_toDigits]
  exact congrArg some (Nat.ofDigitChars_toDigits (by decide) (by decide))

/-- A text that begins with a digit has no sign. -/
theorem integer?_of_digits {cs : List Char} (h : ∀ c ∈ cs, c.isDigit = true) :
    integer? cs = (natural? cs).map Int.ofNat := by
  cases cs with
  | nil => rfl
  | cons c cs =>
    have hc := h c List.mem_cons_self
    rw [integer?]
    · rintro cs' heq
      obtain ⟨rfl, -⟩ := List.cons.inj heq
      exact absurd hc (by decide)
    · rintro cs' heq
      obtain ⟨rfl, -⟩ := List.cons.inj heq
      exact absurd hc (by decide)

/-- The digits of an integer, behind the sign of a negative one. -/
theorem toList_toString (n : Int) : (toString n).toList =
    if n < 0 then '-' :: Nat.toDigits 10 n.natAbs else Nat.toDigits 10 n.natAbs := by
  cases n with
  | ofNat n =>
    have hneg : ¬Int.ofNat n < 0 := Int.not_lt.mpr (Int.natCast_nonneg n)
    rw [if_neg hneg]
    exact String.toList_ofList
  | negSucc n =>
    rw [if_pos (Int.negSucc_lt_zero n)]
    change ("-" ++ (n + 1).repr).toList = _
    rw [String.toList_append]
    exact congrArg (List.cons '-') String.toList_ofList

/-- **The text of an integer** is read as this integer. -/
theorem integer?_toString (n : Int) : integer? (toString n).toList = some n := by
  rw [toList_toString]
  split_ifs with hneg
  · rw [integer?, natural?_toDigits]
    change some (-(n.natAbs : Int)) = some n
    rw [Option.some.injEq]
    omega
  · rw [integer?_of_digits fun c => isDigit_of_mem_toDigits, natural?_toDigits, Option.map_some,
      Option.some.injEq]
    change (n.natAbs : Int) = n
    omega

/-- The text of an integer has no blanks. -/
theorem trim_toString (n : Int) : Text.trim (toString n).toList = (toString n).toList := by
  refine Text.trim_eq_self ?_
  have hdigits : ∀ c ∈ Nat.toDigits 10 n.natAbs, Text.isBlank c = false :=
    fun c hc => Text.isBlank_eq_false_of_isDigit (isDigit_of_mem_toDigits hc)
  rw [toList_toString]
  split_ifs
  · exact List.forall_mem_cons.mpr ⟨by decide, hdigits⟩
  · exact hdigits

/-- Whether an integer is one of 64 bits. -/
def FitsLong (n : Int) : Prop := Int64.minValue.toInt ≤ n ∧ n ≤ Int64.maxValue.toInt

instance (n : Int) : Decidable (FitsLong n) := inferInstanceAs (Decidable (_ ∧ _))

/-- The text of an integer is one of an integer of 64 bits if the integer is one. -/
theorem int64?_toString (n : Int) : int64? (toString n).toList =
    if FitsLong n then some (Int64.ofInt n) else none := by
  have hiff : Int64.minValue.toInt ≤ n ∧ n ≤ Int64.maxValue.toInt ↔ FitsLong n := Iff.rfl
  rw [int64?, integerWithin?, integer?_toString, Option.filter_some]
  simp only [Bool.and_eq_true, decide_eq_true_eq, hiff]
  by_cases h : FitsLong n
  · rw [if_pos h, if_pos h, Option.map_some]
  · rw [if_neg h, if_neg h, Option.map_none]

/-! ### Floating-point numbers -/

/-- Digits with a point in front of the last ones of them are a decimal number. -/
theorem exists_decimal?_of_digits {whole fraction : List Char} (hne : whole ≠ [])
    (hwhole : ∀ c ∈ whole, c.isDigit = true) (hfraction : ∀ c ∈ fraction, c.isDigit = true) :
    (∃ d, decimal? whole = some d) ∧ ∃ d, decimal? (whole ++ '.' :: fraction) = some d := by
  have hdigits : ∀ {digits : List Char}, (∀ c ∈ digits, c.isDigit = true) →
      digits.takeWhile Char.isDigit = digits ∧ digits.dropWhile Char.isDigit = [] := by
    intro digits h
    have happend := @takeWhile_digits digits [] h (by simp)
    rwa [List.append_nil] at happend
  obtain ⟨htake, hdrop⟩ := hdigits hwhole
  obtain ⟨htake', hdrop'⟩ := @takeWhile_digits whole ('.' :: fraction) hwhole (by simp)
  obtain ⟨htake'', hdrop''⟩ := hdigits hfraction
  constructor
  · exact ⟨_, by simp only [decimal?, htake, hdrop, hne, false_and, if_false]; rfl⟩
  · exact ⟨_, by
      simp only [decimal?, htake', hdrop', htake'', hdrop'', hne, false_and, if_false]
      rfl⟩

theorem exists_unsignedFloating? {f : FloatFormat} (negative : Bool) {cs : List Char}
    (h : ∃ d, decimal? cs = some d) :
    ∃ x : Floating f, unsignedFloating? negative cs = some x := by
  obtain ⟨d, hd⟩ := h
  rw [unsignedFloating?]
  dsimp only
  split_ifs
  · exact ⟨_, rfl⟩
  · exact ⟨_, rfl⟩
  · exact ⟨_, rfl⟩
  · exact ⟨_, by rw [hd, Option.map_some]⟩

/-- A text that begins with no sign is read without one. -/
theorem floating?_of_unsigned {f : FloatFormat} {cs : List Char}
    (h : ∀ c ∈ cs.head?, c ≠ '-' ∧ c ≠ '+') :
    (floating? cs : Option (Floating f)) = unsignedFloating? false cs := by
  rw [floating?]
  · rintro cs' rfl
    exact (h _ rfl).1 rfl
  · rintro cs' rfl
    exact (h _ rfl).2 rfl

/-- The digits of a decimal number written out plainly, with a point among them or without. -/
theorem writeDecimal_plain (d : Decimal) : ∃ whole fraction : List Char, whole ≠ [] ∧
    (∀ c ∈ whole, c.isDigit = true) ∧ (∀ c ∈ fraction, c.isDigit = true) ∧
      (FloatText.plain.writeDecimal d = whole ∨
        FloatText.plain.writeDecimal d = whole ++ '.' :: fraction) := by
  rw [FloatText.writeDecimal]
  dsimp only
  split_ifs with hexponent hfraction
  · cases hfraction
  · refine ⟨_, [], ?_, fun c hc => ?_, by simp, Or.inl (List.append_nil _)⟩
    · simp [Nat.toDigits_ne_nil]
    · rcases List.mem_append.mp hc with hc | hc
      · exact isDigit_of_mem_toDigits hc
      · rw [List.eq_of_mem_replicate hc]
        rfl
  · obtain ⟨hne, hwhole, -, hrest⟩ :=
      @JsonNumber.wellFormed_places false d.digits (-d.exponent).toNat _ rfl
    exact ⟨_, _, hne, hwhole, hrest, Or.inr rfl⟩

section Floating

variable {f g : FloatFormat}

/-- What a decimal number is written as is read, behind a sign and without one. -/
theorem exists_floating?_writeDecimal (d : Decimal) :
    (∃ x : Floating f, floating? (FloatText.plain.writeDecimal d) = some x) ∧
      ∃ x : Floating f, floating? ('-' :: FloatText.plain.writeDecimal d) = some x := by
  obtain ⟨whole, fraction, hne, hwhole, hfraction, htext⟩ := writeDecimal_plain d
  obtain ⟨hdigits, hpoint⟩ := exists_decimal?_of_digits hne hwhole hfraction
  have hdecimal : ∃ d', decimal? (FloatText.plain.writeDecimal d) = some d' := by
    rcases htext with htext | htext
    · rwa [htext]
    · rwa [htext]
  obtain ⟨c, cs, rfl⟩ := List.exists_cons_of_ne_nil hne
  have hhead : (FloatText.plain.writeDecimal d).head? = some c := by
    rcases htext with htext | htext <;> rw [htext] <;> rfl
  have hc := hwhole c List.mem_cons_self
  refine ⟨?_, exists_unsignedFloating? true hdecimal⟩
  rw [floating?_of_unsigned]
  · exact exists_unsignedFloating? false hdecimal
  · intro c' hc'
    obtain rfl := Option.some.inj (hhead.symm.trans hc')
    constructor
    all_goals
      rintro rfl
      exact absurd hc (by decide)

/-- **The plain text of a floating-point number** is read as a number of any format. -/
theorem exists_floating?_write (x : Floating f) :
    ∃ y : Floating g, floating? (FloatText.plain.write x).toList = some y := by
  obtain ⟨hpositive, hnegative⟩ := exists_floating?_writeDecimal (f := g) (x.shortest .upward)
  rw [FloatText.write]
  split_ifs
  · exact ⟨_, rfl⟩
  · exact ⟨_, rfl⟩
  · rw [String.toList_append, String.toList_ofList, String.toList_ofList]
    exact hnegative
  · exact ⟨_, rfl⟩
  · rw [String.toList_ofList]
    exact hpositive

/-- The plain text of a floating-point number has no blanks. -/
theorem trim_write (x : Floating f) :
    Text.trim (FloatText.plain.write x).toList = (FloatText.plain.write x).toList := by
  obtain ⟨whole, fraction, -, hwhole, hfraction, htext⟩ := writeDecimal_plain (x.shortest .upward)
  have hdecimal : ∀ c ∈ FloatText.plain.writeDecimal (x.shortest .upward),
      Text.isBlank c = false := by
    have hdigits : ∀ {digits : List Char}, (∀ c ∈ digits, c.isDigit = true) →
        ∀ c ∈ digits, Text.isBlank c = false :=
      fun h c hc => Text.isBlank_eq_false_of_isDigit (h c hc)
    rcases htext with htext | htext
    · rw [htext]
      exact hdigits hwhole
    · rw [htext]
      exact List.forall_mem_append.mpr
        ⟨hdigits hwhole, List.forall_mem_cons.mpr ⟨by decide, hdigits hfraction⟩⟩
  have hword : ∀ {cs : List Char}, cs.all (fun c => !Text.isBlank c) = true →
      ∀ c ∈ cs, Text.isBlank c = false := by simp
  refine Text.trim_eq_self ?_
  rw [FloatText.write]
  split_ifs
  · exact hword rfl
  · exact hword rfl
  · rw [String.toList_append, List.forall_mem_append]
    refine ⟨hword rfl, ?_⟩
    rwa [String.toList_ofList]
  · exact hword rfl
  · rwa [String.toList_ofList]

end Floating

end Numeric

end PropertyBinding

import PropertyBinding.Json.Number
import PropertyBinding.Json.Reader
import PropertyBinding.Proofs.ShortestDigits

/-!
# Reading compact JSON back

A tree whose strings all have a text and whose numbers all have the digits that JSON asks for is
well-formed (`Json.WellFormed`). Its compact text reads back as the tree (`Json.parse?_compress`):
every part of the text is read up to where the next part begins, with as much fuel as the text is
long (`Json.WellFormed.readsBack`). Integers and floating-point numbers are written with
well-formed digits (`JsonNumber.wellFormed_ofInt`, `JsonNumber.wellFormed_ofFloating`).
-/

namespace PropertyBinding

/-! ### Digits -/

section Digits

/-- Decimal digits are digits. -/
theorem isDigit_of_mem_toDigits {n : Nat} {c : Char} (h : c ∈ Nat.toDigits 10 n) :
    c.isDigit = true :=
  Nat.isDigit_of_mem_toDigits (by decide) (by decide) h

/-- Only zero has a leading zero. -/
theorem eq_zero_of_head?_toDigits {n : Nat} (h : (Nat.toDigits 10 n).head? = some '0') :
    n = 0 := by
  induction n using Nat.strongRecOn with
  | ind n ih =>
    rcases Nat.lt_or_ge n 10 with hlt | hge
    · rw [Nat.toDigits_of_lt_base hlt] at h
      have hdigit : ∀ m < 10, Nat.digitChar m = '0' → m = 0 := by decide
      exact hdigit n hlt (Option.some.inj h)
    · rw [Nat.toDigits_of_base_le (by decide) hge, List.head?_append,
        List.head?_eq_some_head Nat.toDigits_ne_nil, Option.some_or,
        ← List.head?_eq_some_head] at h
      have hrest := ih (n / 10) (by omega) h
      omega

/-- Digits are read up to the first character that is none. -/
theorem takeWhile_digits {digits rest : List Char} (hdigits : ∀ c ∈ digits, c.isDigit = true)
    (hrest : ∀ c ∈ rest.head?, c.isDigit = false) :
    (digits ++ rest).takeWhile Char.isDigit = digits ∧
      (digits ++ rest).dropWhile Char.isDigit = rest := by
  rw [List.takeWhile_append_of_pos hdigits, List.dropWhile_append_of_pos hdigits]
  cases rest with
  | nil => simp
  | cons c rest => simp [hrest c rfl]

end Digits

namespace JsonNumber

/-! ### Well-formed numbers -/

/-- Whether the digits of a number are those of a JSON number: there are some in front of the point,
without a leading zero. -/
structure WellFormed (n : JsonNumber) : Prop where
  whole_ne : n.whole ≠ []
  whole : ∀ c ∈ n.whole, c.isDigit = true
  leading : n.whole.head? = some '0' → n.whole = ['0']
  fraction : ∀ c ∈ n.fraction, c.isDigit = true

theorem wellFormed_ofInt (n : Int) : (ofInt n).WellFormed where
  whole_ne := Nat.toDigits_ne_nil
  whole := fun _ hc => isDigit_of_mem_toDigits hc
  leading := by
    intro h
    rw [ofInt, eq_zero_of_head?_toDigits h]
    rfl
  fraction := by simp [ofInt]

section Decimals

variable (negative : Bool) (n : Nat)

/-- One digit, the others behind the point, and an exponent. -/
theorem wellFormed_exponent (exponent : Int) :
    WellFormed ⟨negative, (Nat.toDigits 10 n).take 1, (Nat.toDigits 10 n).drop 1,
      some exponent⟩ := by
  have hdigits : ∀ c ∈ Nat.toDigits 10 n, c.isDigit = true := fun _ hc => isDigit_of_mem_toDigits hc
  obtain ⟨c, cs, hcons⟩ := List.exists_cons_of_ne_nil (Nat.toDigits_ne_nil : Nat.toDigits 10 n ≠ [])
  rw [hcons] at hdigits ⊢
  refine ⟨List.cons_ne_nil _ _, ?_, ?_, fun c hc => hdigits c (List.mem_cons_of_mem _ hc)⟩
  · simpa using hdigits c List.mem_cons_self
  · simp

/-- All digits in front of the point, and zeros behind them, unless they are those of zero. -/
theorem wellFormed_zeros {count : Nat} (hzero : n = 0 → count = 0) :
    WellFormed ⟨negative, Nat.toDigits 10 n ++ List.replicate count '0', ['0'], none⟩ := by
  refine ⟨by simp [Nat.toDigits_ne_nil], fun c hc => ?_, fun hhead => ?_, by simp⟩
  · rcases List.mem_append.mp hc with hc | hc
    · exact isDigit_of_mem_toDigits hc
    · rw [List.eq_of_mem_replicate hc]
      rfl
  · dsimp only at hhead ⊢
    rw [List.head?_append, List.head?_eq_some_head Nat.toDigits_ne_nil, Option.some_or,
      ← List.head?_eq_some_head] at hhead
    have hnone := eq_zero_of_head?_toDigits hhead
    rw [hnone, hzero hnone]
    rfl

/-- Digits behind the point, and zeros in front of them, so that one digit stands in front of the
point. -/
theorem wellFormed_places {places : Nat} {padded : List Char}
    (hpadded : List.replicate (places + 1 - (Nat.toDigits 10 n).length) '0' ++ Nat.toDigits 10 n =
      padded) :
    WellFormed ⟨negative, padded.take (padded.length - places),
      padded.drop (padded.length - places), none⟩ := by
  have hlength : padded.length =
      places + 1 - (Nat.toDigits 10 n).length + (Nat.toDigits 10 n).length := by
    rw [← hpadded, List.length_append, List.length_replicate]
  have hmem : ∀ c ∈ padded, c.isDigit = true := by
    intro c hc
    rw [← hpadded] at hc
    rcases List.mem_append.mp hc with hc | hc
    · rw [List.eq_of_mem_replicate hc]
      rfl
    · exact isDigit_of_mem_toDigits hc
  refine ⟨fun hnil => ?_, fun c hc => hmem c (List.mem_of_mem_take hc), fun hhead => ?_,
    fun c hc => hmem c (List.mem_of_mem_drop hc)⟩
  · have hnone := congrArg List.length hnil
    rw [List.length_take, List.length_nil] at hnone
    omega
  · have hcount : padded.length - places ≠ 0 := by omega
    rw [List.head?_take, if_neg hcount] at hhead
    rcases Nat.lt_or_ge (Nat.toDigits 10 n).length (places + 1) with hshort | hlong
    · have hone : padded.length - places = 1 := by omega
      rw [hone]
      obtain ⟨c, cs, rfl⟩ := List.exists_cons_of_length_pos (by omega : 0 < padded.length)
      simpa using hhead
    · -- Without padding, a leading zero is the only digit.
      rw [Nat.sub_eq_zero_of_le hlong, List.replicate_zero, List.nil_append] at hpadded
      rw [← hpadded] at hhead ⊢
      obtain rfl := eq_zero_of_head?_toDigits hhead
      have hsingle : (Nat.toDigits 10 0).length = 1 := rfl
      obtain rfl : places = 0 := by omega
      rfl

/-- The digits of a decimal number are well-formed, unless zeros follow those of zero. -/
theorem wellFormed_ofDecimal (layout : Layout) {d : Decimal}
    (hzero : d.digits = 0 → d.exponent ≤ 0) : (ofDecimal layout negative d).WellFormed := by
  rw [ofDecimal]
  split_ifs
  · exact wellFormed_exponent negative d.digits _
  · exact wellFormed_zeros negative d.digits fun hnone => Int.toNat_of_nonpos (hzero hnone)
  · exact wellFormed_places negative d.digits rfl

end Decimals

/-- **Finite numbers are written as JSON numbers.** -/
theorem wellFormed_ofFloating (layout : Layout) {f : FloatFormat} (x : Floating f) :
    (ofFloating layout x).WellFormed := by
  refine wellFormed_ofDecimal _ layout fun hdigits => ?_
  cases hzero : x.isZero with
  | true =>
    rw [Floating.shortest, hzero]
    exact Int.le_refl 0
  | false => exact absurd hdigits (Nat.ne_of_gt (Floating.shortest_digits_pos .toEven hzero))

end JsonNumber

namespace Json

/-! ### Reading numbers -/

/-- Whether a text does not go on with a number in front of it. -/
def EndsNumber (rest : List Char) : Prop :=
  ∀ c ∈ rest.head?, c.isDigit = false ∧ c ≠ '.' ∧ c ≠ 'e' ∧ c ≠ 'E'

/-- The value of the digits of a number is the number. -/
theorem digitsValue_toDigits (n : Nat) : digitsValue (Nat.toDigits 10 n) = n :=
  Nat.ofDigitChars_toDigits (by decide) (by decide)

/-- The digits behind the point as they are written. -/
def fractionText (fraction : List Char) : List Char :=
  if fraction = [] then [] else '.' :: fraction

/-- An exponent as it is written. -/
def exponentText : Option Int → List Char
  | none => []
  | some e => 'e' :: (if e < 0 then '-' else '+') :: Nat.toDigits 10 e.natAbs

theorem writeNumber_eq (n : JsonNumber) :
    writeNumber n = (if n.negative then ['-'] else []) ++
      (n.whole ++ (fractionText n.fraction ++ exponentText n.exponent)) := by
  rw [writeNumber, List.append_assoc, List.append_assoc]
  cases n.exponent <;> rfl

/-- An exponent is read back. -/
theorem readExponent_text (exponent : Option Int) {rest : List Char} (hrest : EndsNumber rest) :
    readExponent (exponentText exponent ++ rest) = some (exponent, rest) := by
  cases exponent with
  | none =>
    rw [exponentText, List.nil_append]
    cases rest with
    | nil => rfl
    | cons c rest =>
      obtain ⟨-, -, he, hE⟩ := hrest c rfl
      rw [readExponent, if_neg (by simp [he, hE])]
  | some e =>
    obtain ⟨htake, hdrop⟩ := takeWhile_digits (fun _ => isDigit_of_mem_toDigits (n := e.natAbs))
      fun c hc => (hrest c hc).1
    rw [exponentText, List.cons_append, List.cons_append, readExponent, if_pos (Or.inl rfl)]
    by_cases hneg : e < 0
    · rw [if_pos hneg, readSign]
      dsimp only
      rw [htake, hdrop, if_neg Nat.toDigits_ne_nil, digitsValue_toDigits, if_pos rfl]
      congr 3
      omega
    · rw [if_neg hneg, readSign]
      dsimp only
      rw [htake, hdrop, if_neg Nat.toDigits_ne_nil, digitsValue_toDigits, if_neg Bool.false_ne_true]
      congr 3
      omega

/-- What is written behind the digits in front of the point begins with none. -/
theorem not_isDigit_head_exponentText (exponent : Option Int) {rest : List Char}
    (hrest : EndsNumber rest) :
    ∀ c ∈ (exponentText exponent ++ rest).head?, c.isDigit = false ∧ c ≠ '.' := by
  cases exponent with
  | none =>
    intro c hc
    exact ⟨(hrest c hc).1, (hrest c hc).2.1⟩
  | some e =>
    intro c hc
    obtain rfl : 'e' = c := by simpa [exponentText] using hc
    decide

/-- The digits behind the point are read back. -/
theorem readFraction_text {fraction : List Char} (hfraction : ∀ c ∈ fraction, c.isDigit = true)
    {rest : List Char} (hrest : ∀ c ∈ rest.head?, c.isDigit = false ∧ c ≠ '.') :
    readFraction (fractionText fraction ++ rest) = some (fraction, rest) := by
  rw [fractionText]
  split_ifs with hnil
  · rw [hnil, List.nil_append]
    cases rest with
    | nil => rfl
    | cons c rest =>
      have hpoint := (hrest c rfl).2
      rw [readFraction]
      simpa using hpoint
  · obtain ⟨htake, hdrop⟩ := takeWhile_digits hfraction fun c hc => (hrest c hc).1
    rw [List.cons_append, readFraction, htake, hdrop, if_neg hnil]

/-- A number without its sign is read back. -/
theorem readUnsigned_text {n : JsonNumber} (h : n.WellFormed) {rest : List Char}
    (hrest : EndsNumber rest) :
    readUnsigned n.negative
        (n.whole ++ (fractionText n.fraction ++ exponentText n.exponent) ++ rest) =
      some (n, rest) := by
  have hbehind := not_isDigit_head_exponentText n.exponent hrest
  have hpoint : ∀ c ∈ (fractionText n.fraction ++ (exponentText n.exponent ++ rest)).head?,
      c.isDigit = false := by
    intro c hc
    rw [fractionText] at hc
    split_ifs at hc
    · exact (hbehind c hc).1
    · obtain rfl : '.' = c := by simpa using hc
      decide
  obtain ⟨htake, hdrop⟩ := takeWhile_digits h.whole hpoint
  have hleading : ¬(n.whole = [] ∨ n.whole.head? = some '0' ∧ n.whole ≠ ['0']) := by
    rintro (hnil | ⟨hhead, hne⟩)
    · exact h.whole_ne hnil
    · exact hne (h.leading hhead)
  rw [List.append_assoc, List.append_assoc, readUnsigned, htake, hdrop]
  dsimp only
  rw [if_neg hleading]
  simp only [readFraction_text h.fraction hbehind, readExponent_text n.exponent hrest,
    Option.bind_eq_bind, Option.bind_some]
  rfl

/-- **A well-formed number is read back.** -/
theorem readNumber_write {n : JsonNumber} (h : n.WellFormed) {rest : List Char}
    (hrest : EndsNumber rest) : readNumber (writeNumber n ++ rest) = some (n, rest) := by
  have hunsigned := readUnsigned_text h hrest
  rw [writeNumber_eq]
  cases hnegative : n.negative with
  | true =>
    rw [hnegative] at hunsigned
    rw [if_pos rfl, List.singleton_append, List.cons_append, readNumber]
    exact hunsigned
  | false =>
    rw [hnegative] at hunsigned
    rw [if_neg Bool.false_ne_true, List.nil_append, readNumber]
    · exact hunsigned
    · -- A digit comes first, and no sign.
      intro digits hsign
      obtain ⟨c, cs, hcons⟩ := List.exists_cons_of_ne_nil h.whole_ne
      have hdigit := h.whole c (by rw [hcons]; exact List.mem_cons_self)
      rw [hcons, List.cons_append, List.cons_append] at hsign
      rw [(List.cons.inj hsign).1] at hdigit
      exact absurd hdigit (by decide)

/-! ### Reading strings -/

section Strings

variable (rest : List Char)

/-- An escape of two characters. -/
theorem readUnits_escape {c e : Char} (hu : e ≠ 'u') (he : simpleEscape? e = some c) :
    readUnits ('\\' :: e :: rest) =
      (readUnits rest).map fun read => (.char c :: read.1, read.2) := by
  rw [readUnits, he]
  · cases readUnits rest <;> rfl
  · intro _ _ _ _ _ heq _
    exact hu heq

/-- An escape of a control character by its number. -/
theorem readUnits_hex {c : Char} (hc : c.toNat < 0x20) :
    readUnits ('\\' :: 'u' :: (hexFour c.toNat ++ rest)) =
      (readUnits rest).map fun read => (.char c :: read.1, read.2) := by
  have hfour : ∀ n < 0x20, hexFour n = ['0', '0', (n / 16).digitChar, (n % 16).digitChar] := by
    decide +kernel
  have hvalue : ∀ n < 16, hexValue? n.digitChar = some n := by decide +kernel
  have hhigh := hvalue (c.toNat / 16) (by omega)
  have hlow := hvalue (c.toNat % 16) (Nat.mod_lt _ (by decide))
  have hzero : hexValue? '0' = some 0 := rfl
  have hunit : StringUnit.ofNat (((0 * 16 + 0) * 16 + c.toNat / 16) * 16 + c.toNat % 16) =
      .char c := by
    have hnumber : ((0 * 16 + 0) * 16 + c.toNat / 16) * 16 + c.toNat % 16 = c.toNat := by omega
    rw [hnumber, StringUnit.ofNat, if_neg (by omega), Char.ofNat_toNat]
  rw [hfour _ hc]
  simp only [List.cons_append, List.nil_append, readUnits, hzero, hhigh, hlow,
    Option.bind_eq_bind, Option.bind_some, hunit]
  cases readUnits rest <;> rfl

/-- A character that stands for itself. -/
theorem readUnits_plain {c : Char} (hquote : c ≠ '"') (hslash : c ≠ '\\')
    (hc : ¬c.toNat < 0x20) :
    readUnits (c :: rest) = (readUnits rest).map fun read => (.char c :: read.1, read.2) := by
  rw [readUnits]
  · rw [if_neg (by simp [hslash, hc])]
    cases readUnits rest <;> rfl
  all_goals
    intros
    simp_all

/-- A character is read back as it is written between quotation marks. -/
theorem readUnits_writeChar (c : Char) :
    readUnits (writeChar c ++ rest) =
      (readUnits rest).map fun read => (.char c :: read.1, read.2) := by
  unfold writeChar
  split
  · refine readUnits_escape rest ?_ rfl; decide
  · refine readUnits_escape rest ?_ rfl; decide
  · refine readUnits_escape rest ?_ rfl; decide
  · refine readUnits_escape rest ?_ rfl; decide
  · refine readUnits_escape rest ?_ rfl; decide
  · refine readUnits_escape rest ?_ rfl; decide
  · refine readUnits_escape rest ?_ rfl; decide
  · rename_i hquote hslash _ _ _ _ _
    split_ifs with hcontrol
    · exact readUnits_hex rest hcontrol
    · exact readUnits_plain rest hquote hslash hcontrol

/-- The characters of a string are its text. -/
theorem assemble_chars (cs : List Char) : assemble (cs.map .char) = some cs := by
  induction cs with
  | nil => rfl
  | cons c cs ih => rw [List.map_cons, assemble, ih, Option.map_some]

/-- **A string is read back.** -/
theorem readString_write (s : String) :
    readString (s.toList.flatMap writeChar ++ '"' :: rest) = some (some s, rest) := by
  have hunits : ∀ cs : List Char,
      readUnits (cs.flatMap writeChar ++ '"' :: rest) = some (cs.map .char, rest) := by
    intro cs
    induction cs with
    | nil => rw [List.flatMap_nil, List.nil_append, readUnits_quote]; rfl
    | cons c cs ih =>
      rw [List.flatMap_cons, List.append_assoc, readUnits_writeChar, ih]
      rfl
  rw [readString, hunits, Option.map_some]
  dsimp only
  rw [assemble_chars, Option.map_some, String.ofList_toList]

end Strings

/-! ### Reading values -/

/-- A tree whose strings all have a text and whose numbers are written as JSON numbers. -/
inductive WellFormed : Json → Prop where
  | null : WellFormed .null
  | bool (b : Bool) : WellFormed (.bool b)
  | number {n : JsonNumber} (h : n.WellFormed) : WellFormed (.number n)
  | string (s : String) : WellFormed (.string (some s))
  | array {items : List Json} (hitems : ∀ item ∈ items, WellFormed item) : WellFormed (.array items)
  | object {members : List (Option String × Json)} (hkeys : ∀ m ∈ members, m.1.isSome = true)
      (hvalues : ∀ m ∈ members, WellFormed m.2) : WellFormed (.object members)

/-- Well-formed trees under keys make a well-formed object. -/
theorem wellFormed_obj {members : List (String × Json)} (h : ∀ m ∈ members, m.2.WellFormed) :
    (obj members).WellFormed := by
  refine .object ?_ ?_ <;> rw [List.forall_mem_map]
  · exact fun _ _ => rfl
  · exact h

/-- Whether the text of a tree is read back, whatever follows it, with as much fuel as it is
long. -/
def ReadsBack (j : Json) : Prop :=
  ∀ {fuel : Nat} {rest : List Char}, (write j).length ≤ fuel → EndsNumber rest →
    readValue fuel (write j ++ rest) = some (j, rest)

section Values

variable {fuel : Nat} {rest : List Char}

/-- A mark that separates or closes ends a number. -/
theorem endsNumber_cons {c : Char} (hc : c = ',' ∨ c = ']' ∨ c = '\x7d') (rest : List Char) :
    EndsNumber (c :: rest) := by
  rintro _ ⟨⟩
  rcases hc with rfl | rfl | rfl <;> decide

/-- Nothing is skipped in front of a token. -/
theorem skipSpace_cons {c : Char} (hc : isSpace c = false) (cs : List Char) :
    skipSpace (c :: cs) = c :: cs := by
  rw [skipSpace, List.dropWhile_cons, hc]
  rfl

/-- What the text of a number begins with. -/
theorem exists_head_writeNumber {n : JsonNumber} (h : n.WellFormed) :
    ∃ c cs, writeNumber n = c :: cs ∧ (c = '-' ∨ c.isDigit = true) := by
  rw [writeNumber_eq]
  cases n.negative with
  | true => exact ⟨'-', _, rfl, Or.inl rfl⟩
  | false =>
    obtain ⟨c, cs, hcons⟩ := List.exists_cons_of_ne_nil h.whole_ne
    refine ⟨c, cs ++ (fractionText n.fraction ++ exponentText n.exponent), ?_,
      Or.inr (h.whole c (by rw [hcons]; exact List.mem_cons_self))⟩
    rw [hcons]
    rfl

/-- A digit is no blank. -/
theorem isSpace_eq_false_of_isDigit {c : Char} (hc : c.isDigit = true) : isSpace c = false := by
  by_contra hspace
  simp only [isSpace, Bool.not_eq_false, Bool.or_eq_true, decide_eq_true_eq] at hspace
  rcases hspace with ((rfl | rfl) | rfl) | rfl <;> exact absurd hc (by decide)

/-- A text that begins like a number is read as one. -/
theorem readValue_number {c : Char} (hc : c = '-' ∨ c.isDigit = true) (cs : List Char) :
    readValue (fuel + 1) (c :: cs) =
      (readNumber (c :: cs)).map fun read => (.number read.1, read.2) := by
  have hspace : isSpace c = false := by
    rcases hc with rfl | hdigit
    · rfl
    · exact isSpace_eq_false_of_isDigit hdigit
  rw [readValue, skipSpace_cons hspace]
  split
  case h_7 => rfl
  all_goals
    rename_i heq
    obtain ⟨rfl, -⟩ := List.cons.inj heq
    rcases hc with hc | hc <;> exact absurd hc (by decide)

/-- A text that begins with a quotation mark is read as a string. -/
theorem readValue_string (cs : List Char) :
    readValue (fuel + 1) ('"' :: cs) =
      (readString cs).map fun read => (.string read.1, read.2) := rfl

/-- What the text of a tree begins with. -/
theorem WellFormed.exists_head_write {j : Json} (h : j.WellFormed) :
    ∃ c cs, write j = c :: cs ∧ isSpace c = false ∧ c ≠ ']' := by
  cases h with
  | null => exact ⟨'n', _, rfl, rfl, by decide⟩
  | bool b => cases b <;> exact ⟨_, _, rfl, rfl, by decide⟩
  | number h =>
    obtain ⟨c, cs, hcons, hc⟩ := exists_head_writeNumber h
    refine ⟨c, cs, by rw [write, hcons], ?_⟩
    rcases hc with rfl | hdigit
    · decide
    · constructor
      · exact isSpace_eq_false_of_isDigit hdigit
      · rintro rfl
        exact absurd hdigit (by decide)
  | string s => exact ⟨'"', _, by rw [write]; rfl, rfl, by decide⟩
  | array _ => exact ⟨'[', _, by rw [write], rfl, by decide⟩
  | object _ _ => exact ⟨'\x7b', _, by rw [write], rfl, by decide⟩

/-- A tree is read back if it is with one step left for it. -/
theorem WellFormed.readsBack_of_succ {j : Json} (hj : j.WellFormed)
    (h : ∀ {fuel : Nat} {rest : List Char}, (write j).length ≤ fuel + 1 → EndsNumber rest →
      readValue (fuel + 1) (write j ++ rest) = some (j, rest)) : j.ReadsBack := by
  intro fuel rest hfuel hrest
  cases fuel with
  | zero =>
    obtain ⟨c, cs, hcons, -⟩ := hj.exists_head_write
    rw [hcons] at hfuel
    cases hfuel
  | succ fuel => exact h hfuel hrest

/-- Items are read back up to the closing bracket. -/
theorem readItems_write {items : List Json} (hne : items ≠ [])
    (hitems : ∀ item ∈ items, item.ReadsBack) (hfuel : (writeItems items).length < fuel) :
    readItems fuel (writeItems items ++ ']' :: rest) = some (items, rest) := by
  induction items generalizing fuel with
  | nil => exact absurd rfl hne
  | cons item items ih =>
    obtain ⟨fuel, rfl⟩ := Nat.exists_eq_add_one_of_ne_zero (Nat.ne_of_gt (Nat.zero_lt_of_lt hfuel))
    have hitem : item.ReadsBack := hitems item List.mem_cons_self
    rw [readItems]
    cases items with
    | nil =>
      rw [writeItems] at hfuel ⊢
      rw [hitem (Nat.le_of_lt_succ hfuel) (endsNumber_cons (by simp) _)]
      rfl
    | cons next items =>
      -- The step that this item takes is paid for by the comma behind it.
      rw [writeItems, List.length_append, List.length_cons] at hfuel
      rw [writeItems, List.append_assoc, List.cons_append,
        hitem (by omega) (endsNumber_cons (by simp) _)]
      simp only [Option.bind_eq_bind, Option.bind_some,
        skipSpace_cons (by decide : isSpace ',' = false)]
      rw [ih (List.cons_ne_nil _ _) (fun j hj => hitems j (List.mem_cons_of_mem _ hj)) (by omega)]
      rfl

/-- A member is read back up to the mark behind it. -/
theorem readMembers_member {key : String} {value : Json} (hvalue : value.ReadsBack)
    (hfuel : (write value).length ≤ fuel) {mark : Char} (hmark : mark = ',' ∨ mark = '\x7d') :
    readMembers (fuel + 1) (writeString (some key) ++ ':' :: (write value ++ mark :: rest)) =
      if mark = ',' then
        (readMembers fuel rest).map fun read => ((some key, value) :: read.1, read.2)
      else some ([(some key, value)], rest) := by
  rw [readMembers, writeString, List.append_assoc, List.cons_append, List.singleton_append,
    skipSpace_cons (by decide)]
  simp only [Option.getD_some, readString_write, Option.bind_eq_bind, Option.bind_some,
    skipSpace_cons (by decide : isSpace ':' = false)]
  rcases hmark with rfl | rfl
  · rw [hvalue hfuel (endsNumber_cons (by simp) _), if_pos rfl]
    simp only [Option.bind_some, skipSpace_cons (by decide : isSpace ',' = false)]
    cases readMembers fuel rest <;> rfl
  · rw [hvalue hfuel (endsNumber_cons (by simp) _), if_neg (by decide)]
    rfl

/-- Members are read back up to the closing brace. -/
theorem readMembers_write {members : List (Option String × Json)} (hne : members ≠ [])
    (hkeys : ∀ m ∈ members, m.1.isSome = true) (hvalues : ∀ m ∈ members, m.2.ReadsBack)
    (hfuel : (writeMembers members).length < fuel) :
    readMembers fuel (writeMembers members ++ '\x7d' :: rest) = some (members, rest) := by
  induction members generalizing fuel with
  | nil => exact absurd rfl hne
  | cons m members ih =>
    obtain ⟨fuel, rfl⟩ := Nat.exists_eq_add_one_of_ne_zero (Nat.ne_of_gt (Nat.zero_lt_of_lt hfuel))
    obtain ⟨key, value⟩ := m
    obtain ⟨hkey, hkeysRest⟩ := List.forall_mem_cons.mp hkeys
    obtain ⟨key, rfl⟩ := Option.isSome_iff_exists.mp hkey
    have hvalue : value.ReadsBack := hvalues _ List.mem_cons_self
    cases members with
    | nil =>
      rw [writeMembers, List.length_append, List.length_cons] at hfuel
      rw [writeMembers, List.append_assoc, List.cons_append,
        readMembers_member hvalue (by omega) (Or.inr rfl), if_neg (by decide)]
    | cons next members =>
      rw [writeMembers, List.length_append, List.length_cons, List.length_append,
        List.length_cons] at hfuel
      rw [writeMembers, List.append_assoc, List.cons_append, List.append_assoc, List.cons_append,
        readMembers_member hvalue (by omega) (Or.inl rfl), if_pos rfl,
        ih (List.cons_ne_nil _ _) hkeysRest (fun m hm => hvalues m (List.mem_cons_of_mem _ hm))
          (by omega)]
      rfl

/-- What the text of members begins with. -/
theorem exists_head_writeMembers {members : List (Option String × Json)} (hne : members ≠ []) :
    ∃ cs, writeMembers members = '"' :: cs := by
  match members, hne with
  | [(key, value)], _ => exact ⟨_, by rw [writeMembers, writeString]; rfl⟩
  | (key, value) :: next :: rest, _ => exact ⟨_, by rw [writeMembers, writeString]; rfl⟩

/-- What the text of items begins with. -/
theorem exists_head_writeItems {items : List Json} (hne : items ≠ [])
    (hitems : ∀ item ∈ items, item.WellFormed) :
    ∃ c cs, writeItems items = c :: cs ∧ isSpace c = false ∧ c ≠ ']' := by
  match items, hne with
  | [item], _ =>
    rw [writeItems]
    exact (hitems item List.mem_cons_self).exists_head_write
  | item :: next :: rest, _ =>
    obtain ⟨c, cs, hcons, hc⟩ := (hitems item List.mem_cons_self).exists_head_write
    exact ⟨c, cs ++ ',' :: writeItems (next :: rest), by rw [writeItems, hcons]; rfl, hc⟩

/-- An array is read back if its items are. -/
theorem readsBack_array {items : List Json} (hitems : ∀ item ∈ items, item.WellFormed)
    (ih : ∀ item ∈ items, item.ReadsBack) : (array items).ReadsBack := by
  refine (WellFormed.array hitems).readsBack_of_succ @fun fuel rest hfuel _ => ?_
  rw [write, List.length_cons, List.length_append, List.length_singleton] at hfuel
  rw [write, List.cons_append, List.append_assoc, List.singleton_append]
  by_cases hne : items = []
  · subst hne
    rfl
  · have hread : readItems fuel (writeItems items ++ ']' :: rest) = some (items, rest) :=
      readItems_write hne ih (by omega)
    obtain ⟨c, cs, hcons, hspace, hclose⟩ := exists_head_writeItems hne hitems
    rw [hcons, List.cons_append] at hread ⊢
    simp only [readValue, skipSpace_cons (by decide : isSpace '[' = false), skipSpace_cons hspace]
    split
    · rename_i heq
      exact absurd (List.cons.inj heq).1 hclose
    · rw [hread]
      rfl

/-- An object is read back if the values of its members are. -/
theorem readsBack_object {members : List (Option String × Json)}
    (hkeys : ∀ m ∈ members, m.1.isSome = true) (hvalues : ∀ m ∈ members, m.2.WellFormed)
    (ih : ∀ m ∈ members, m.2.ReadsBack) : (object members).ReadsBack := by
  refine (WellFormed.object hkeys hvalues).readsBack_of_succ @fun fuel rest hfuel _ => ?_
  rw [write, List.length_cons, List.length_append, List.length_singleton] at hfuel
  rw [write, List.cons_append, List.append_assoc, List.singleton_append]
  by_cases hne : members = []
  · subst hne
    rfl
  · have hread : readMembers fuel (writeMembers members ++ '\x7d' :: rest) =
        some (members, rest) := readMembers_write hne hkeys ih (by omega)
    obtain ⟨cs, hcons⟩ := exists_head_writeMembers hne
    rw [hcons, List.cons_append] at hread ⊢
    simp only [readValue, skipSpace_cons (by decide : isSpace '\x7b' = false),
      skipSpace_cons (by decide : isSpace '"' = false)]
    split
    · rename_i heq
      exact absurd (List.cons.inj heq).1 (by decide)
    · rw [hread]
      rfl

/-- **Every well-formed tree is read back.** -/
theorem WellFormed.readsBack {j : Json} (h : j.WellFormed) : j.ReadsBack := by
  induction h with
  | null => exact WellFormed.null.readsBack_of_succ fun _ _ => rfl
  | bool b => cases b <;> exact (WellFormed.bool _).readsBack_of_succ fun _ _ => rfl
  | number h =>
    refine (WellFormed.number h).readsBack_of_succ @fun fuel rest _ hrest => ?_
    obtain ⟨c, cs, hcons, hc⟩ := exists_head_writeNumber h
    have hread := readNumber_write h hrest
    rw [hcons, List.cons_append] at hread
    rw [write, hcons, List.cons_append, readValue_number hc, hread]
    rfl
  | string s =>
    refine (WellFormed.string s).readsBack_of_succ @fun fuel rest _ _ => ?_
    rw [write, writeString, List.append_assoc, List.cons_append, List.singleton_append,
      readValue_string, Option.getD_some, readString_write]
    rfl
  | array hitems ih => exact readsBack_array hitems ih
  | object hkeys hvalues ih => exact readsBack_object hkeys hvalues ih

end Values

/-- **The compact text of a well-formed tree reads back.** -/
theorem parse?_compress {j : Json} (h : j.WellFormed) : parse? j.compress = some j := by
  have hend : EndsNumber [] := by rintro _ ⟨⟩
  have hread := h.readsBack (Nat.le_succ _) hend
  rw [List.append_nil] at hread
  rw [parse?, compress, String.toList_ofList, hread]
  rfl

end Json

end PropertyBinding

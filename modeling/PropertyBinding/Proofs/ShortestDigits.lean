import Mathlib.Algebra.Group.Nat.Defs
import Mathlib.Data.Nat.Basic
import PropertyBinding.Numeric.Shortest

/-!
# Shortest digits are digits of the number

The search for the shortest digits of a number begins at the grid of the largest power of ten that
the number reaches (`Decimal.reaches_floorLog10`). From there on it meets finer grids only, so that
below the number there is always a multiple other than zero. The digits that come out are therefore
those of zero for zero alone (`Floating.shortest_digits_pos`).
-/

namespace PropertyBinding

namespace Decimal

/-! ### Powers of ten -/

/-- Whether `num / den` is at least `10 ^ exponent`. -/
def Reaches (num den : Nat) (exponent : Int) : Prop :=
  den * (powerOfTen exponent).1 ≤ num * (powerOfTen exponent).2

/-- Both factors are powers of ten, and one of them is one. -/
theorem powerOfTen_eq (exponent : Int) :
    powerOfTen exponent = (10 ^ exponent.toNat, 10 ^ (-exponent).toNat) := by
  rw [powerOfTen]
  split_ifs with h
  · rw [Int.toNat_of_nonpos (by omega : -exponent ≤ 0)]
    rfl
  · rw [Int.toNat_of_nonpos (by omega : exponent ≤ 0)]
    rfl

/-- A number reaches the lower powers of ten, too. -/
theorem Reaches.pred {num den : Nat} {exponent : Int} (h : Reaches num den exponent) :
    Reaches num den (exponent - 1) := by
  rw [Reaches, powerOfTen_eq] at h ⊢
  by_cases hle : exponent ≤ 0
  · have hnum : (-(exponent - 1)).toNat = (-exponent).toNat + 1 := by omega
    have hden : (exponent - 1).toNat = exponent.toNat := by omega
    rw [hnum, hden, Nat.pow_succ, ← Nat.mul_assoc]
    exact Nat.le_trans h (Nat.le_mul_of_pos_right _ (by decide))
  · have hnum : (-(exponent - 1)).toNat = (-exponent).toNat := by omega
    have hden : exponent.toNat = (exponent - 1).toNat + 1 := by omega
    rw [hden, Nat.pow_succ, ← Nat.mul_assoc] at h
    rw [hnum]
    exact Nat.le_trans (Nat.le_mul_of_pos_right _ (by decide)) h

theorem digitCount_pos (n : Nat) : 0 < digitCount n :=
  List.length_pos_iff.mpr Nat.toDigits_ne_nil

theorem lt_pow_digitCount (n : Nat) : n < 10 ^ digitCount n :=
  (Nat.length_toDigits_le_iff (by decide) (digitCount_pos n)).mp (Nat.le_refl _)

theorem pow_digitCount_le {n : Nat} (h : 0 < n) : 10 ^ (digitCount n - 1) ≤ n := by
  rcases Nat.eq_zero_or_pos (digitCount n - 1) with hzero | hpos
  · rw [hzero]
    exact h
  · by_contra hlt
    -- With one digit less the number would be too small for its digits.
    have hfewer := (Nat.length_toDigits_le_iff (by decide) hpos).mpr (Nat.lt_of_not_le hlt)
    have hcount := digitCount_pos n
    rw [digitCount] at hfewer hcount
    omega

/-- A positive number reaches the power of ten that is taken to be the largest. -/
theorem reaches_floorLog10 {num : Nat} (den : Nat) (h : 0 < num) :
    Reaches num den (floorLog10 num den) := by
  rw [floorLog10]
  split_ifs with hguess
  · exact hguess
  -- The guess is at most one too high.
  rw [Reaches, powerOfTen_eq]
  generalize hexponent : (digitCount num : Int) - digitCount den - 1 = exponent
  have hcount := digitCount_pos num
  have hsum : digitCount den + exponent.toNat = digitCount num - 1 + (-exponent).toNat := by omega
  calc den * 10 ^ exponent.toNat
      ≤ 10 ^ digitCount den * 10 ^ exponent.toNat :=
        Nat.mul_le_mul_right _ (Nat.le_of_lt (lt_pow_digitCount den))
    _ = 10 ^ (digitCount num - 1) * 10 ^ (-exponent).toNat := by
        rw [← Nat.pow_add, hsum, Nat.pow_add]
    _ ≤ num * 10 ^ (-exponent).toNat := Nat.mul_le_mul_right _ (pow_digitCount_le h)

/-! ### The search -/

/-- The multiple below a number on a grid that it reaches is not zero. -/
theorem Reaches.below_pos {num den : Nat} {exponent : Int} (h : Reaches num den exponent)
    (hden : 0 < den) : 0 < num * (powerOfTen exponent).2 / (den * (powerOfTen exponent).1) := by
  refine Nat.div_pos h (Nat.mul_pos hden ?_)
  rw [powerOfTen_eq]
  exact Nat.pow_pos (by decide)

/-- A hit on a grid that the number reaches is not zero. -/
theorem Interval.onGrid?_pos {i : Interval} {tie : Tie} {exponent : Int} {digits : Nat}
    (hden : 0 < i.den) (hreaches : Reaches i.value i.den exponent)
    (h : i.onGrid? tie exponent = some digits) : 0 < digits := by
  have hbelow := hreaches.below_pos hden
  unfold onGrid? at h
  dsimp only at h
  split at h
  · cases h
  · exact Option.some.inj h ▸ hbelow
  · exact Option.some.inj h ▸ Nat.succ_pos _
  · split_ifs at h
    · exact Option.some.inj h ▸ hbelow
    · exact Option.some.inj h ▸ Nat.succ_pos _
    · split at h
      · exact Option.some.inj h ▸ Nat.succ_pos _
      · exact Option.some.inj h ▸ Nat.add_pos_left hbelow _

/-- The first hit from a grid on that the number reaches is not zero. -/
theorem Interval.firstHit_pos {i : Interval} {tie : Tie} (hden : 0 < i.den) (fuel : Nat)
    {exponent : Int} (hreaches : Reaches i.value i.den exponent) :
    0 < (i.firstHit tie exponent fuel).digits := by
  induction fuel generalizing exponent with
  | zero => exact hreaches.below_pos hden
  | succ fuel ih =>
    rw [firstHit]
    cases hgrid : i.onGrid? tie exponent with
    | some digits => exact onGrid?_pos hden hreaches hgrid
    | none => exact ih hreaches.pred

/-- Dropping trailing zeros does not make a number zero. -/
theorem normalize_pos (fuel : Nat) {d : Decimal} (h : 0 < d.digits) :
    0 < (d.normalize fuel).digits := by
  induction fuel generalizing d with
  | zero => exact h
  | succ fuel ih =>
    rw [normalize]
    split_ifs with htrailing
    · refine ih ?_
      dsimp only
      omega
    · exact h

end Decimal

namespace Floating

variable {f : FloatFormat}

/-- A number other than zero has a significand. -/
theorem significand_pos {x : Floating f} (h : x.isZero = false) : 0 < x.significand := by
  have hmagnitude : 0 < x.magnitude := Nat.pos_of_ne_zero (by simpa [isZero] using h)
  have hleading : 0 < f.leadingBit := by
    rw [FloatFormat.leadingBit, Nat.one_shiftLeft]
    exact Nat.two_pow_pos _
  rw [significand]
  split_ifs with hlt
  · rwa [Nat.mod_eq_of_lt hlt]
  · exact Nat.add_pos_left hleading _

/-- The interval of a number other than zero lies around a positive number. -/
theorem interval_pos {x : Floating f} (h : x.isZero = false) :
    0 < x.interval.value ∧ 0 < x.interval.den := by
  have hshift : ∀ (c : Prop) [Decidable c] (n : Nat), 0 < (if c then 1 <<< n else 1) ∧
      0 < (if c then 1 else 1 <<< n) := by
    intro c _ n
    have hpow : 0 < 1 <<< n := by
      rw [Nat.one_shiftLeft]
      exact Nat.two_pow_pos n
    split_ifs
    · exact ⟨hpow, Nat.one_pos⟩
    · exact ⟨Nat.one_pos, hpow⟩
  exact ⟨Nat.mul_pos (Nat.mul_pos (by decide) (significand_pos h)) (hshift _ _).1, (hshift _ _).2⟩

/-- **The shortest digits of a number other than zero** are not zero. -/
theorem shortest_digits_pos {x : Floating f} (tie : Tie) (h : x.isZero = false) :
    0 < (x.shortest tie).digits := by
  obtain ⟨hvalue, hden⟩ := interval_pos h
  have hreaches := Decimal.reaches_floorLog10 x.interval.den hvalue
  rw [shortest, h]
  exact Decimal.normalize_pos _ (Decimal.Interval.firstHit_pos hden _ hreaches)

end Floating

end PropertyBinding

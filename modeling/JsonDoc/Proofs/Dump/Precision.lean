import JsonDoc.Proofs.Dump.Written

/-!
# How precise the written digits are

The digits of a magnitude are off by at most half a step of the last one, which with a count of
digits is the part `5 / 10 ^ count` of the value (`Magnitude.abs_sub_significant_le`).  Digits that
are cut off instead are off by up to a step, but only where the value is close to the largest, so
that thirteen digits are within `6e-13` of it in any case (`Magnitude.abs_sub_written_le`).
-/

namespace JsonDoc

variable {m : Magnitude} {s : Significant} {count : ℕ}

/-! ### Digits that are rounded -/

namespace Magnitude

/-- The value in steps is rounded to the nearest whole number of them. -/
theorem abs_sub_steps_le (m : Magnitude) (count : ℕ) :
    |valueAt m.code * 10 ^ (count - 1 - m.leadingExponent) - m.steps count| ≤ 1 / 2 := by
  have hscale := gridScale_pos (count - 1 - m.leadingExponent)
  have hscale' : (0 : ℚ) < (gridScale (count - 1 - m.leadingExponent)).2 := by exact_mod_cast hscale
  obtain ⟨hlow, hhigh⟩ := roundHalfEven_bounds
    (m.units * (gridScale (count - 1 - m.leadingExponent)).1) hscale
  have hvalue := gridScale_eq m.units (count - 1 - m.leadingExponent)
  rw [div_eq_iff hscale'.ne', ← valueAt_code] at hvalue
  rw [← steps] at hlow hhigh
  have hlow' := (@Nat.cast_le ℚ _ _ _ _).mpr hlow
  have hhigh' := (@Nat.cast_le ℚ _ _ _ _).mpr hhigh
  rw [Nat.cast_mul, hvalue] at hlow'
  rw [Nat.cast_add, Nat.cast_mul 2 (_ * _), hvalue] at hhigh'
  push_cast at hlow' hhigh'
  rw [abs_le]
  constructor
  · nlinarith
  · nlinarith

/-- Digits that are rounded are off by a part of the value. -/
theorem abs_sub_significant_le (hm : m.code ≠ 0) (hcount : 0 < count) :
    |valueAt m.code - (m.significant count).value count| ≤ 5 / 10 ^ count * valueAt m.code := by
  have hten : (10 : ℚ) ≠ 0 := by norm_num
  have hstep : (10 : ℚ) ^ (m.leadingExponent + 1 - count) =
      10 / 10 ^ count * 10 ^ m.leadingExponent := by
    rw [zpow_sub₀ hten, zpow_add_one₀ hten, zpow_natCast]
    ring
  have hinverse : (10 : ℚ) ^ (count - 1 - m.leadingExponent) *
      10 ^ (m.leadingExponent + 1 - count) = 1 := by
    rw [← zpow_add₀ hten, show (count - 1 - m.leadingExponent : ℤ) +
      (m.leadingExponent + 1 - count) = 0 by ring, zpow_zero]
  have hlow := (leadingExponent_bounds hm).1
  calc |valueAt m.code - (m.significant count).value count|
      = |valueAt m.code * 10 ^ (count - 1 - m.leadingExponent) - m.steps count| *
          10 ^ (m.leadingExponent + 1 - count) := by
        have hpos : (0 : ℚ) < 10 ^ (m.leadingExponent + 1 - count) := by positivity
        rw [value_significant hcount, ← abs_of_pos hpos, ← abs_mul, sub_mul, mul_assoc,
          abs_of_pos hpos, hinverse, mul_one]
    _ ≤ 1 / 2 * 10 ^ (m.leadingExponent + 1 - count) :=
        mul_le_mul_of_nonneg_right (m.abs_sub_steps_le count) (by positivity)
    _ = 5 / 10 ^ count * 10 ^ m.leadingExponent := by
        rw [hstep]
        ring
    _ ≤ 5 / 10 ^ count * valueAt m.code := mul_le_mul_of_nonneg_left hlow (by positivity)

end Magnitude

/-! ### Digits that are cut off -/

namespace Significant

/-- Digits that overflow stand for a value that is read as an infinity. -/
theorem midpointAt_le_value_of_overflows (h : 10 ^ (count - 1) ≤ s.coefficient) (hpos : 0 < count)
    (hcount : count ≤ mostPrecision) (hover : s.overflows count = true) :
    midpointAt (infinityCode - 1) ≤ s.value count := by
  unfold overflows at hover
  rw [Bool.or_eq_true, Bool.and_eq_true, decide_eq_true_eq, decide_eq_true_eq, decide_eq_true_eq,
    tenPow_eq] at hover
  rcases hover with hexp | ⟨heq, hlast⟩
  · have hexp' : (309 : ℤ) ≤ s.exponent := hexp
    calc midpointAt (infinityCode - 1) ≤ 10 ^ (309 : ℤ) := midpointAt_last_le_pow
      _ ≤ 10 ^ s.exponent := zpow_le_zpow_right₀ (by norm_num) hexp'
      _ ≤ s.value count := pow_exponent_le_value h hpos
  · have hlast' : (largestCoefficient + 1 : ℚ) ≤ s.coefficient * 10 ^ (mostPrecision - count) := by
      exact_mod_cast hlast
    have hpow : (s.exponent + 1 - count : ℤ) = (mostPrecision - count : ℕ) + (292 : ℕ) := by
      rw [heq]
      unfold largestExponent mostPrecision at *
      omega
    rw [value, hpow, zpow_add₀ (by norm_num), zpow_natCast, zpow_natCast, ← mul_assoc]
    exact midpointAt_last_le.trans (mul_le_mul_of_nonneg_right hlast' (by positivity))

theorem lt_value_of_overflows (h : 10 ^ (count - 1) ≤ s.coefficient) (hpos : 0 < count)
    (hcount : count ≤ mostPrecision) (hover : s.overflows count = true) :
    largestWritten < s.value count :=
  largestWritten_lt_midpointAt.trans_le (midpointAt_le_value_of_overflows h hpos hcount hover)

/-- What is cut off of digits is less than one step of the last that is left. -/
theorem value_sub_cut_lt (s : Significant) (count dropped : ℕ) :
    s.value (count + dropped) - value count ⟨s.coefficient / 10 ^ dropped, s.exponent⟩ <
      10 ^ (s.exponent + 1 - count) := by
  have hfloor : (s.coefficient : ℚ) / 10 ^ dropped < (s.coefficient / 10 ^ dropped : ℕ) + 1 := by
    rw [div_lt_iff₀ (by positivity)]
    exact_mod_cast Nat.lt_mul_of_div_lt (Nat.lt_succ_self _) (by positivity)
  rw [value_add, value, ← sub_mul]
  refine mul_lt_of_lt_one_left (by positivity) ?_
  linarith

end Significant

namespace Magnitude

theorem abs_sub_significant_le_of_le (hm : m.code ≠ 0) {least : ℕ} (hleast : 0 < least)
    (h : least ≤ count) :
    |valueAt m.code - (m.significant count).value count| ≤ 5 / 10 ^ least * valueAt m.code := by
  refine (abs_sub_significant_le hm (hleast.trans_le h)).trans ?_
  refine mul_le_mul_of_nonneg_right ?_ (valueAt_pos hm).le
  exact div_le_div_of_nonneg_left (by norm_num) (by positivity)
    (pow_le_pow_right₀ (by norm_num) h)

/-- The digits that are written, at least thirteen, are off by a small part of the value. -/
theorem abs_sub_written_le (hm : m.code ≠ 0) (hlow : 13 ≤ count) (hcount : count ≤ mostPrecision) :
    |valueAt m.code - (m.written count).value count| ≤ 6 / 10 ^ 13 * valueAt m.code := by
  have hpos : 0 < count := by omega
  have hround := abs_sub_significant_le_of_le hm (by decide) hlow
  have hvalue := valueAt_pos hm
  unfold written
  dsimp only
  split
  case isFalse =>
    refine hround.trans (mul_le_mul_of_nonneg_right ?_ hvalue.le)
    norm_num
  case isTrue hover =>
    -- what overflows is so large that one step of thirteen digits is a small part of it
    have hlarge := Significant.lt_value_of_overflows (significant_coefficient hm hpos).1 hpos hcount
      hover
    have hfull := abs_sub_significant_le_of_le hm (by decide) (le_refl mostPrecision)
    have hwritten := isWritten_significant hm (by decide) (value_significant_le hm)
    have hexp : (m.significant mostPrecision).exponent ≤ 308 := hwritten.exponent_le (by decide)
    have hcut := (m.significant mostPrecision).value_cut_le count (mostPrecision - count)
    have hsub := (m.significant mostPrecision).value_sub_cut_lt count (mostPrecision - count)
    rw [Nat.add_sub_cancel' hcount] at hcut hsub
    rw [tenPow_eq]
    have hstep : (10 : ℚ) ^ ((m.significant mostPrecision).exponent + 1 - count) ≤
        10 ^ 4 * 10 ^ 292 := by
      rw [← pow_add, ← zpow_natCast]
      exact zpow_le_zpow_right₀ (by norm_num) (by push_cast; omega)
    have hlarge' : largestWritten = 17976931348623158 * 10 ^ 292 := by
      rw [largestWritten, largestCoefficient, Nat.cast_ofNat]
    rw [hlarge'] at hlarge
    generalize (10 : ℚ) ^ 292 = step at *
    rw [show (mostPrecision : ℕ) = 17 from rfl] at *
    rw [abs_le] at hround hfull ⊢
    constructor <;> linarith

end Magnitude

end JsonDoc

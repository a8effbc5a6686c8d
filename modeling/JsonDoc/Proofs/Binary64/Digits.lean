import JsonDoc.Binary64.Digits
import JsonDoc.Proofs.Decimal.Nearest

/-!
# The digits of a magnitude

The leading exponent of a magnitude is the power of ten of its first digit
(`Magnitude.leadingExponent_bounds`), so that the value, rounded to a count of digits, has exactly
that many (`Magnitude.significant_coefficient`), and is as large as the multiple of the last place
that it was rounded to (`Magnitude.value_significant`).
-/

namespace JsonDoc

/-! ### Rounding between multiples -/

theorem le_roundHalfEven {n d k : ℕ} (hd : 0 < d) (h : k * d ≤ n) : k ≤ roundHalfEven n d := by
  have hlow := (roundHalfEven_bounds n hd).1
  have hmul : 2 * k * d ≤ (2 * roundHalfEven n d + 1) * d := by nlinarith
  have := Nat.le_of_mul_le_mul_right hmul hd
  omega

theorem roundHalfEven_le {n d k : ℕ} (hd : 0 < d) (h : n ≤ k * d) : roundHalfEven n d ≤ k := by
  have hhigh := (roundHalfEven_bounds n hd).2
  have hmul : 2 * roundHalfEven n d * d ≤ (2 * k + 1) * d := by nlinarith
  have := Nat.le_of_mul_le_mul_right hmul hd
  omega

/-! ### Values -/

/-- The value of so many digits of which the first stands for a power of ten. -/
def Significant.value (count : ℕ) (s : Significant) : ℚ :=
  s.coefficient * 10 ^ (s.exponent + 1 - count)

namespace Magnitude

variable {m : Magnitude} {count : ℕ}

theorem gridScale_pos (places : ℤ) : 0 < (gridScale places).2 := by
  have hone : 0 < unitsPerOne := by exact_mod_cast unitsPerOne_pos
  unfold gridScale
  split
  · exact hone
  · exact Nat.mul_pos hone (Nat.pow_pos (by decide))

/-- A count of units in steps of a power of ten. -/
theorem gridScale_eq (units : ℕ) (places : ℤ) :
    ((units * (gridScale places).1 : ℕ) : ℚ) / (gridScale places).2 =
      units / unitsPerOne * 10 ^ places := by
  have hone := unitsPerOne_pos
  unfold gridScale
  split
  case isTrue hpos =>
    obtain ⟨k, rfl⟩ := Int.eq_ofNat_of_zero_le hpos
    simp only [tenPow_eq, Int.toNat_natCast, zpow_natCast]
    generalize unitsPerOne = one at *
    push_cast
    ring
  case isFalse hneg =>
    obtain ⟨k, rfl⟩ : ∃ k : ℕ, places = -k := ⟨(-places).toNat, by omega⟩
    simp only [tenPow_eq, neg_neg, Int.toNat_natCast, zpow_neg, zpow_natCast]
    generalize unitsPerOne = one at *
    push_cast
    field_simp

theorem valueAt_code (m : Magnitude) : valueAt m.code = m.units / unitsPerOne := rfl

theorem units_pos (hm : m.code ≠ 0) : 0 < m.units :=
  Nat.zero_lt_of_lt (unitsAt_lt_unitsAt (Nat.pos_of_ne_zero hm))

theorem valueAt_pos (hm : m.code ≠ 0) : 0 < valueAt m.code :=
  div_pos (by exact_mod_cast units_pos hm) unitsPerOne_pos

/-- The leading exponent is the power of ten of the first digit of the value. -/
theorem leadingExponent_bounds (hm : m.code ≠ 0) :
    (10 : ℚ) ^ m.leadingExponent ≤ valueAt m.code ∧
      valueAt m.code < 10 ^ (m.leadingExponent + 1) := by
  have hone : 0 < unitsPerOne := by exact_mod_cast unitsPerOne_pos
  have hone' := unitsPerOne_pos
  have hsmall : unitsPerOne ≤ 10 ^ 324 := by exact_mod_cast unitsPerOne_le
  have hwhole : 0 < m.units * 10 ^ 324 / unitsPerOne :=
    Nat.div_pos (hsmall.trans (Nat.le_mul_of_pos_left _ (units_pos hm))) hone
  have hlow := pow_decimalLength_le hwhole
  have hhigh := lt_pow_decimalLength (m.units * 10 ^ 324 / unitsPerOne)
  have hlen := decimalLength_pos (m.units * 10 ^ 324 / unitsPerOne)
  rw [leadingExponent, tenPow_eq, valueAt_code]
  rw [Nat.le_div_iff_mul_le hone] at hlow
  rw [Nat.div_lt_iff_lt_mul hone] at hhigh
  generalize decimalLength (m.units * 10 ^ 324 / unitsPerOne) = length at *
  obtain ⟨k, rfl⟩ : ∃ k, length = k + 1 := ⟨length - 1, by omega⟩
  rw [Nat.add_sub_cancel] at hlow
  have hlow' : (10 : ℚ) ^ k * unitsPerOne ≤ m.units * 10 ^ 324 := by exact_mod_cast hlow
  have hhigh' : m.units * 10 ^ 324 < (10 : ℚ) ^ (k + 1) * unitsPerOne := by exact_mod_cast hhigh
  rw [show ((k + 1 : ℕ) : ℤ) - 325 = (k : ℤ) - (324 : ℕ) by omega,
    show (k : ℤ) - (324 : ℕ) + 1 = (k + 1 : ℕ) - (324 : ℕ) by omega, zpow_sub₀ (by norm_num),
    zpow_sub₀ (by norm_num), zpow_natCast, zpow_natCast, zpow_natCast,
    div_le_div_iff₀ (by positivity) hone', div_lt_div_iff₀ hone' (by positivity)]
  exact ⟨hlow', hhigh'⟩

/-! ### Rounding to a count of digits -/

/-- The value in steps of the last digit, rounded to a whole number of them. -/
def steps (count : ℕ) (m : Magnitude) : ℕ :=
  roundHalfEven (m.units * (gridScale (count - 1 - m.leadingExponent)).1)
    (gridScale (count - 1 - m.leadingExponent)).2

theorem le_steps {k : ℕ} (h : k ≤ valueAt m.code * 10 ^ (count - 1 - m.leadingExponent)) :
    k ≤ m.steps count := by
  have hscale := gridScale_pos (count - 1 - m.leadingExponent)
  rw [valueAt_code, ← gridScale_eq, le_div_iff₀ (by exact_mod_cast hscale)] at h
  exact le_roundHalfEven hscale (by exact_mod_cast h)

theorem steps_le {k : ℕ} (h : valueAt m.code * 10 ^ (count - 1 - m.leadingExponent) ≤ k) :
    m.steps count ≤ k := by
  have hscale := gridScale_pos (count - 1 - m.leadingExponent)
  rw [valueAt_code, ← gridScale_eq, div_le_iff₀ (by exact_mod_cast hscale)] at h
  exact roundHalfEven_le hscale (by exact_mod_cast h)

/-- There are as many digits in the steps as asked for, unless rounding carried into one more. -/
theorem steps_bounds (hm : m.code ≠ 0) (hcount : 0 < count) :
    10 ^ (count - 1) ≤ m.steps count ∧ m.steps count ≤ 10 ^ count := by
  obtain ⟨hlow, hhigh⟩ := leadingExponent_bounds hm
  have hpow : (0 : ℚ) < 10 ^ (count - 1 - m.leadingExponent) := by positivity
  constructor
  · refine le_steps ?_
    calc ((10 ^ (count - 1) : ℕ) : ℚ)
        = 10 ^ m.leadingExponent * 10 ^ (count - 1 - m.leadingExponent) := by
          rw [← zpow_add₀ (by norm_num), Nat.cast_pow, ← zpow_natCast]
          congr 1
          omega
      _ ≤ valueAt m.code * 10 ^ (count - 1 - m.leadingExponent) :=
          mul_le_mul_of_nonneg_right hlow hpow.le
  · refine steps_le ?_
    calc valueAt m.code * 10 ^ (count - 1 - m.leadingExponent)
        ≤ 10 ^ (m.leadingExponent + 1) * 10 ^ (count - 1 - m.leadingExponent) :=
          mul_le_mul_of_nonneg_right hhigh.le hpow.le
      _ = ((10 ^ count : ℕ) : ℚ) := by
          rw [← zpow_add₀ (by norm_num), Nat.cast_pow, ← zpow_natCast]
          congr 1
          omega

theorem significant_eq (count : ℕ) (m : Magnitude) :
    m.significant count = if m.steps count = 10 ^ count then
      ⟨10 ^ (count - 1), m.leadingExponent + 1⟩ else ⟨m.steps count, m.leadingExponent⟩ := rfl

/-- A rounded value has as many digits as asked for. -/
theorem significant_coefficient (hm : m.code ≠ 0) (hcount : 0 < count) :
    10 ^ (count - 1) ≤ (m.significant count).coefficient ∧
      (m.significant count).coefficient < 10 ^ count := by
  obtain ⟨hlow, hhigh⟩ := steps_bounds hm hcount
  rw [significant_eq]
  split
  case isTrue => exact ⟨le_rfl, Nat.pow_lt_pow_right (by decide) (by omega)⟩
  case isFalse hne => exact ⟨hlow, lt_of_le_of_ne hhigh hne⟩

theorem leadingExponent_le_significant (count : ℕ) (m : Magnitude) :
    m.leadingExponent ≤ (m.significant count).exponent := by
  rw [significant_eq]
  split
  · exact (Int.lt_succ _).le
  · exact le_rfl

/-- A carry does not change what the digits stand for. -/
theorem value_significant (hcount : 0 < count) (m : Magnitude) :
    (m.significant count).value count =
      m.steps count * 10 ^ (m.leadingExponent + 1 - count) := by
  rw [significant_eq]
  split
  case isTrue hcarry =>
    rw [hcarry, Significant.value, Nat.cast_pow, Nat.cast_pow, ← zpow_natCast, ← zpow_natCast,
      Nat.cast_ofNat, ← zpow_add₀ (by norm_num), ← zpow_add₀ (by norm_num)]
    dsimp only
    congr 1
    omega
  case isFalse => rfl

end Magnitude

end JsonDoc

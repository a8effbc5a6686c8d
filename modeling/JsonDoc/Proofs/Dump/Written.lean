import JsonDoc.Dump.Number
import JsonDoc.Proofs.Binary64.Digits

/-!
# The digits that are written

A magnitude is written with as many digits as asked for, and they stand for a value that is never
rounded to an infinity (`Magnitude.isWritten_written`).
-/

namespace JsonDoc

/-! ### The largest digits -/

/-- The largest value that is written. -/
def largestWritten : ℚ := largestCoefficient * 10 ^ 292

/-- What is written is always closer to a finite number than to an infinity. -/
theorem largestWritten_lt_midpointAt : largestWritten < midpointAt (infinityCode - 1) := by
  have h : largestCoefficient * 10 ^ 292 + 2 ^ 970 < 2 ^ 1024 := by decide +kernel
  rw [← @Nat.cast_lt ℚ, Nat.cast_add, Nat.cast_mul, Nat.cast_pow, Nat.cast_pow, Nat.cast_pow,
    Nat.cast_ofNat, Nat.cast_ofNat] at h
  rw [midpointAt_last, largestWritten]
  exact lt_sub_iff_add_lt.mpr h

/-- With the last digit one larger it would be read as an infinity. -/
theorem midpointAt_last_le :
    midpointAt (infinityCode - 1) ≤ (largestCoefficient + 1) * 10 ^ 292 := by
  have h : 2 ^ 1024 ≤ (largestCoefficient + 1) * 10 ^ 292 + 2 ^ 970 := by decide +kernel
  rw [midpointAt_last]
  exact sub_le_iff_le_add.mpr (by exact_mod_cast h)

theorem pow_le_largestWritten : (10 : ℚ) ^ 308 ≤ largestWritten := by
  have h : (10 : ℚ) ^ 16 ≤ largestCoefficient := by
    unfold largestCoefficient
    norm_num
  calc (10 : ℚ) ^ 308 = 10 ^ 16 * 10 ^ 292 := pow_add 10 16 292
    _ ≤ largestWritten := mul_le_mul_of_nonneg_right h (by positivity)

theorem midpointAt_last_le_pow : midpointAt (infinityCode - 1) ≤ 10 ^ 309 := by
  have h : (largestCoefficient + 1 : ℚ) ≤ 10 ^ 17 := by
    unfold largestCoefficient
    norm_num
  calc midpointAt (infinityCode - 1) ≤ (largestCoefficient + 1) * 10 ^ 292 := midpointAt_last_le
    _ ≤ 10 ^ 17 * 10 ^ 292 := mul_le_mul_of_nonneg_right h (by positivity)
    _ = 10 ^ 309 := (pow_add 10 17 292).symm

theorem largestWritten_lt_pow : largestWritten < 10 ^ 309 :=
  largestWritten_lt_midpointAt.trans_le midpointAt_last_le_pow

/-! ### The digits that are written -/

namespace Significant

variable {s : Significant} {count : ℕ}

/-- The power of ten of the first digit bounds a value. -/
theorem pow_exponent_le_value (h : 10 ^ (count - 1) ≤ s.coefficient) (hcount : 0 < count) :
    10 ^ s.exponent ≤ s.value count := by
  have h' : (10 : ℚ) ^ (count - 1) ≤ s.coefficient := by exact_mod_cast h
  calc (10 : ℚ) ^ s.exponent = 10 ^ (count - 1) * 10 ^ (s.exponent + 1 - count) := by
        rw [← zpow_natCast, ← zpow_add₀ (by norm_num)]
        congr 1
        omega
    _ ≤ s.value count := mul_le_mul_of_nonneg_right h' (by positivity)

theorem value_lt_pow (h : s.coefficient < 10 ^ count) : s.value count < 10 ^ (s.exponent + 1) := by
  have h' : (s.coefficient : ℚ) < 10 ^ count := by exact_mod_cast h
  calc s.value count < 10 ^ count * 10 ^ (s.exponent + 1 - count) :=
        mul_lt_mul_of_pos_right h' (by positivity)
    _ = 10 ^ (s.exponent + 1) := by
        rw [← zpow_natCast, ← zpow_add₀ (by norm_num)]
        congr 1
        omega

theorem value_le_of_exponent_lt (h : s.coefficient ≤ 10 ^ count)
    (hexp : s.exponent < largestExponent) : s.value count ≤ largestWritten := by
  have h' : (s.coefficient : ℚ) ≤ 10 ^ count := by exact_mod_cast h
  have hexp' : s.exponent + 1 ≤ 308 := hexp
  calc s.value count ≤ 10 ^ count * 10 ^ (s.exponent + 1 - count) :=
        mul_le_mul_of_nonneg_right h' (by positivity)
    _ = 10 ^ (s.exponent + 1) := by
        rw [← zpow_natCast, ← zpow_add₀ (by norm_num)]
        congr 1
        omega
    _ ≤ (10 : ℚ) ^ (308 : ℤ) := zpow_le_zpow_right₀ (by norm_num) hexp'
    _ ≤ largestWritten := pow_le_largestWritten

/-- More digits are read as the whole steps of fewer and a part of a step. -/
theorem value_add (s : Significant) (count dropped : ℕ) :
    s.value (count + dropped) = s.coefficient / 10 ^ dropped * 10 ^ (s.exponent + 1 - count) := by
  have hpow : s.exponent + 1 - (count + dropped : ℕ) = s.exponent + 1 - count - dropped := by
    push_cast
    ring
  rw [value, hpow, zpow_sub₀ (by norm_num), zpow_natCast]
  ring

/-- Digits that are cut off make a value no larger. -/
theorem value_cut_le (s : Significant) (count dropped : ℕ) :
    value count ⟨s.coefficient / 10 ^ dropped, s.exponent⟩ ≤ s.value (count + dropped) := by
  rw [value_add, value]
  refine mul_le_mul_of_nonneg_right ?_ (by positivity)
  have hdiv := @Nat.cast_div_le ℚ _ _ _ s.coefficient (10 ^ dropped)
  rwa [Nat.cast_pow, Nat.cast_ofNat] at hdiv

/-- Digits that do not overflow stand for no more than the largest value. -/
theorem value_le_of_not_overflows (h : s.coefficient < 10 ^ count) (hcount : count ≤ mostPrecision)
    (hover : s.overflows count = false) : s.value count ≤ largestWritten := by
  unfold overflows at hover
  rw [Bool.or_eq_false_iff, Bool.and_eq_false_iff, decide_eq_false_iff_not,
    decide_eq_false_iff_not, decide_eq_false_iff_not, not_lt, not_lt, tenPow_eq] at hover
  obtain ⟨hexp, hlast⟩ := hover
  rcases hexp.eq_or_lt with heq | hlt
  · have hc := hlast.resolve_left (not_not.mpr heq)
    have hc' : (s.coefficient * 10 ^ (mostPrecision - count) : ℚ) ≤ largestCoefficient := by
      exact_mod_cast hc
    have hpow : (s.exponent + 1 - count : ℤ) = (mostPrecision - count : ℕ) + (292 : ℕ) := by
      rw [heq]
      unfold largestExponent mostPrecision at *
      omega
    rw [value, hpow, zpow_add₀ (by norm_num), zpow_natCast, zpow_natCast, ← mul_assoc]
    exact mul_le_mul_of_nonneg_right hc' (by positivity)
  · exact value_le_of_exponent_lt h.le hlt

end Significant

theorem Magnitude.valueAt_le_largestWritten (m : Magnitude) :
    valueAt m.code ≤ largestWritten := by
  have hle : m.code ≤ infinityCode - 1 := Nat.le_sub_one_of_lt m.code_lt
  have h : 2 ^ 53 * 2 ^ 971 ≤ largestCoefficient * 10 ^ 292 + 2 ^ 971 := by decide +kernel
  rw [← @Nat.cast_le ℚ, Nat.cast_add, Nat.cast_mul, Nat.cast_mul, Nat.cast_pow, Nat.cast_pow,
    Nat.cast_pow, Nat.cast_ofNat, Nat.cast_ofNat] at h
  refine (valueAt_le_valueAt hle).trans ?_
  rw [valueAt_last, largestWritten, sub_mul, one_mul]
  exact sub_le_iff_le_add.mpr h

namespace Magnitude

variable {m : Magnitude} {count : ℕ}

theorem leadingExponent_le (hm : m.code ≠ 0) : m.leadingExponent ≤ largestExponent := by
  have hpow : (10 : ℚ) ^ m.leadingExponent < 10 ^ (309 : ℤ) :=
    ((leadingExponent_bounds hm).1.trans m.valueAt_le_largestWritten).trans_lt largestWritten_lt_pow
  exact Int.lt_add_one_iff.mp ((zpow_lt_zpow_iff_right₀ (by norm_num)).mp hpow)

theorem le_leadingExponent (m : Magnitude) : -324 ≤ m.leadingExponent := by
  have hlen := decimalLength_pos (m.units * tenPow 324 / unitsPerOne)
  unfold leadingExponent
  omega

/-- All the digits of a magnitude stand for no more than the largest value. -/
theorem value_significant_le (hm : m.code ≠ 0) :
    (m.significant mostPrecision).value mostPrecision ≤ largestWritten := by
  have hvalue := m.valueAt_le_largestWritten
  rw [value_significant (by decide)]
  rcases (leadingExponent_le hm).eq_or_lt with heq | hlt
  · have hsteps : m.steps mostPrecision ≤ largestCoefficient := by
      refine steps_le ?_
      rw [heq, show ((mostPrecision : ℕ) - 1 - largestExponent : ℤ) = -(292 : ℕ) from rfl, zpow_neg,
        zpow_natCast, mul_inv_le_iff₀ (by positivity)]
      exact hvalue
    have hsteps' : (m.steps mostPrecision : ℚ) ≤ largestCoefficient := by exact_mod_cast hsteps
    rw [heq]
    exact mul_le_mul_of_nonneg_right hsteps' (by positivity)
  · exact Significant.value_le_of_exponent_lt (s := ⟨m.steps mostPrecision, m.leadingExponent⟩)
      (steps_bounds hm (by decide)).2 hlt

/-- So many digits, which stand for no more than the largest value. -/
structure IsWritten (count : ℕ) (s : Significant) : Prop where
  pow_le_coefficient : 10 ^ (count - 1) ≤ s.coefficient
  coefficient_lt_pow : s.coefficient < 10 ^ count
  le_exponent : -324 ≤ s.exponent
  value_le : s.value count ≤ largestWritten

theorem IsWritten.coefficient_pos {s : Significant} (h : IsWritten count s) : 0 < s.coefficient :=
  (Nat.pow_pos (by decide)).trans_le h.pow_le_coefficient

theorem IsWritten.value_pos {s : Significant} (h : IsWritten count s) : 0 < s.value count :=
  mul_pos (by exact_mod_cast h.coefficient_pos) (by positivity)

/-- A value reaches the powers of ten up to that of its first digit. -/
theorem IsWritten.pow_le_value_iff {s : Significant} (h : IsWritten count s) (hpos : 0 < count)
    {e : ℤ} : 10 ^ e ≤ s.value count ↔ e ≤ s.exponent := by
  have hone : (1 : ℚ) < 10 := by norm_num
  constructor
  · intro hle
    exact Int.lt_add_one_iff.mp ((zpow_lt_zpow_iff_right₀ hone).mp
      (hle.trans_lt (Significant.value_lt_pow h.coefficient_lt_pow)))
  · intro hle
    exact (zpow_le_zpow_right₀ hone.le hle).trans
      (Significant.pow_exponent_le_value h.pow_le_coefficient hpos)

theorem IsWritten.exponent_le {s : Significant} (h : IsWritten count s) (hpos : 0 < count) :
    s.exponent ≤ largestExponent := by
  have hle := Significant.pow_exponent_le_value h.pow_le_coefficient hpos
  have hlt : (10 : ℚ) ^ s.exponent < 10 ^ (309 : ℤ) :=
    (hle.trans h.value_le).trans_lt largestWritten_lt_pow
  exact Int.lt_add_one_iff.mp ((zpow_lt_zpow_iff_right₀ (by norm_num)).mp hlt)

/-- What is left of digits that are cut off is no larger either. -/
theorem IsWritten.cut {s : Significant} {full dropped : ℕ} (h : IsWritten full s)
    (hfull : full = count + dropped) (hpos : 0 < count) :
    IsWritten count ⟨s.coefficient / 10 ^ dropped, s.exponent⟩ where
  pow_le_coefficient := by
    have hlow := h.pow_le_coefficient
    rw [Nat.le_div_iff_mul_le (by positivity), ← pow_add]
    rwa [show count - 1 + dropped = full - 1 by omega]
  coefficient_lt_pow := by
    rw [Nat.div_lt_iff_lt_mul (by positivity), ← pow_add, ← hfull]
    exact h.coefficient_lt_pow
  le_exponent := h.le_exponent
  value_le := by
    have hvalue := h.value_le
    rw [hfull] at hvalue
    exact (s.value_cut_le count dropped).trans hvalue

theorem isWritten_significant (hm : m.code ≠ 0) (hpos : 0 < count)
    (hvalue : (m.significant count).value count ≤ largestWritten) :
    IsWritten count (m.significant count) := by
  obtain ⟨hlow, hhigh⟩ := significant_coefficient hm hpos
  exact ⟨hlow, hhigh, m.le_leadingExponent.trans (m.leadingExponent_le_significant count), hvalue⟩

theorem isWritten_written (hm : m.code ≠ 0) (hpos : 0 < count) (hcount : count ≤ mostPrecision) :
    IsWritten count (m.written count) := by
  unfold written
  dsimp only
  split
  case isTrue =>
    have hfull := isWritten_significant hm (by decide) (value_significant_le hm)
    rw [tenPow_eq]
    exact hfull.cut (by omega) hpos
  case isFalse hover =>
    have hhigh := (significant_coefficient hm hpos).2
    exact isWritten_significant hm hpos
      (Significant.value_le_of_not_overflows hhigh hcount (Bool.eq_false_iff.mpr hover))

end Magnitude

end JsonDoc

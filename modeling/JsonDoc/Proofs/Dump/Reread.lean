import JsonDoc.Proofs.Binary64.Error
import JsonDoc.Proofs.Dump.Precision

/-!
# Digits that are read and written again

The digits that a magnitude is written with are read as the magnitude nearest to their value.  At
their own last place that magnitude is rounded to them again (`Magnitude.isNear_written`), and so it
is written with them, unless they stand for a power of ten and the magnitude is so far below it that
its own last place is another (`Magnitude.written_eq_of_not_drifts`,
`Magnitude.exists_written_of_drifts`).
-/

namespace JsonDoc

/-! ### Rounding to whole numbers -/

/-- The whole number is nearest to `x`, and even if another is as near. -/
def RoundsToWhole (x : ℚ) (k : ℕ) : Prop := |x - k| ≤ 1 / 2 ∧ (|x - k| = 1 / 2 → Even k)

namespace RoundsToWhole

variable {x y : ℚ} {a b k : ℕ}

theorem of_abs_sub_lt (h : |x - k| < 1 / 2) : RoundsToWhole x k :=
  ⟨h.le, fun heq => absurd heq h.ne⟩

/-- What is not farther from the whole number is rounded to it as well. -/
theorem of_abs_sub_le (h : RoundsToWhole x k) (hy : |y - k| ≤ |x - k|) : RoundsToWhole y k :=
  ⟨hy.trans h.1, fun heq => h.2 (le_antisymm h.1 (heq ▸ hy))⟩

theorem not_lt (ha : RoundsToWhole x a) (hb : RoundsToWhole x b) : ¬ a < b := by
  intro hlt
  have hle : (a : ℚ) + 1 ≤ b := by exact_mod_cast hlt
  have hxa := (abs_le.mp ha.1).2
  have hxb := (abs_le.mp hb.1).1
  -- both are half a step away, so they are neighbours, and one of them is odd
  have hhalf : x - a = 1 / 2 := by linarith
  have hhalf' : x - b = -(1 / 2) := by linarith
  have hnext : b = a + 1 := by
    have : (b : ℚ) = a + 1 := by linarith
    exact_mod_cast this
  have heven : Even a := ha.2 (by rw [hhalf]; norm_num)
  have heven' : Even b := hb.2 (by rw [hhalf']; norm_num)
  rw [hnext, Nat.even_add_one] at heven'
  exact heven' heven

/-- There is one such whole number only. -/
theorem unique (ha : RoundsToWhole x a) (hb : RoundsToWhole x b) : a = b := by
  have := ha.not_lt hb
  have := hb.not_lt ha
  omega

end RoundsToWhole

theorem roundsToWhole_roundHalfEven (n : ℕ) {d : ℕ} (hd : 0 < d) :
    RoundsToWhole (n / d) (roundHalfEven n d) := by
  have hd' : (0 : ℚ) < d := by exact_mod_cast hd
  obtain ⟨hhigh, hlow⟩ := roundHalfEven_spec n hd
  generalize roundHalfEven n d = k at *
  have hdiff : (n : ℚ) / d - k = (2 * n - 2 * k * d) / (2 * d) := by field_simp
  rw [RoundsToWhole, hdiff, abs_div, abs_of_pos (mul_pos two_pos hd'),
    div_le_iff₀ (mul_pos two_pos hd'), div_eq_iff (mul_pos two_pos hd').ne', one_div,
    inv_mul_cancel_left₀ two_ne_zero, abs_le, abs_eq hd'.le]
  refine ⟨⟨?_, ?_⟩, ?_⟩
  · have h : 2 * k * d ≤ 2 * n + d := hlow.elim le_of_lt fun h => h.1.le
    have h' : (2 * k * d : ℚ) ≤ 2 * n + d := by exact_mod_cast h
    linarith
  · have h : 2 * n ≤ (2 * k + 1) * d := hhigh.elim le_of_lt fun h => h.1.le
    have h' : (2 * n : ℚ) ≤ (2 * k + 1) * d := by exact_mod_cast h
    linarith
  · rintro (heq | heq)
    · have h : 2 * n = (2 * k + 1) * d := by
        have : (2 * n : ℚ) = (2 * k + 1) * d := by linarith
        exact_mod_cast this
      exact (hhigh.resolve_left h.not_lt).2
    · have h : 2 * k * d = 2 * n + d := by
        have : (2 * k * d : ℚ) = 2 * n + d := by linarith
        exact_mod_cast this
      exact (hlow.resolve_left h.not_lt).2

/-! ### Digits at their own last place -/

namespace Significant

variable {s : Significant} {count : ℕ} {w : ℚ}

/-- The digits are what a value is rounded to at their last place. -/
def IsNear (count : ℕ) (s : Significant) (w : ℚ) : Prop :=
  RoundsToWhole (w * 10 ^ (count - 1 - s.exponent)) s.coefficient

/-- The coefficient counts steps of the last place. -/
theorem value_mul_pow (count : ℕ) (s : Significant) :
    s.value count * 10 ^ (count - 1 - s.exponent) = s.coefficient := by
  rw [value, mul_assoc, ← zpow_add₀ (by norm_num), show s.exponent + 1 - count +
    (count - 1 - s.exponent) = 0 by ring, zpow_zero, mul_one]

theorem abs_sub_steps (count : ℕ) (s : Significant) (w : ℚ) :
    |w * 10 ^ (count - 1 - s.exponent) - s.coefficient| =
      |w - s.value count| * 10 ^ (count - 1 - s.exponent) := by
  have hpos : (0 : ℚ) < 10 ^ (count - 1 - s.exponent) := by positivity
  rw [← value_mul_pow count s, ← sub_mul, abs_mul, abs_of_pos hpos]

/-- The digits stand for a power of ten, and the number nearest to it is below it by more than half
a step of the last place that numbers below it have. -/
def Drifts (count : ℕ) (s : Significant) : Prop :=
  s.coefficient = 10 ^ (count - 1) ∧ ∃ code, RoundsTo (10 ^ s.exponent) code ∧
    valueAt code < 10 ^ s.exponent - 10 ^ (s.exponent - count) / 2

theorem value_eq_pow (h : s.coefficient = 10 ^ (count - 1)) (hpos : 0 < count) :
    s.value count = 10 ^ s.exponent := by
  rw [value, h, Nat.cast_pow, Nat.cast_ofNat, ← zpow_natCast, ← zpow_add₀ (by norm_num)]
  congr 1
  omega

theorem exponent_mk (k : ℕ) (s : Significant) :
    (⟨k, s.exponent⟩ : Significant).exponent = s.exponent := rfl

/-- Digits are near what is not farther from their value than what they are near. -/
theorem IsNear.of_abs_sub_le {v : ℚ} (h : s.IsNear count v)
    (hw : |w - s.value count| ≤ |v - s.value count|) : s.IsNear count w := by
  refine RoundsToWhole.of_abs_sub_le h ?_
  rw [abs_sub_steps, abs_sub_steps]
  exact mul_le_mul_of_nonneg_right hw (by positivity)

end Significant

namespace Magnitude

variable {m y : Magnitude} {s : Significant} {count : ℕ} {w : ℚ}

/-- The steps are the value in steps, rounded to a whole number. -/
theorem roundsToWhole_steps (count : ℕ) (m : Magnitude) :
    RoundsToWhole (valueAt m.code * 10 ^ (count - 1 - m.leadingExponent)) (m.steps count) := by
  have hscale := gridScale_pos (count - 1 - m.leadingExponent)
  have h := roundsToWhole_roundHalfEven
    (m.units * (gridScale (count - 1 - m.leadingExponent)).1) hscale
  rwa [gridScale_eq, ← valueAt_code] at h

/-- The bounds of the value tell its leading exponent. -/
theorem leadingExponent_eq (hm : m.code ≠ 0) {e : ℤ} (hlow : (10 : ℚ) ^ e ≤ valueAt m.code)
    (hhigh : valueAt m.code < 10 ^ (e + 1)) : m.leadingExponent = e := by
  obtain ⟨hlow', hhigh'⟩ := leadingExponent_bounds hm
  have h₁ : e < m.leadingExponent + 1 :=
    (zpow_lt_zpow_iff_right₀ (by norm_num)).mp (hlow.trans_lt hhigh')
  have h₂ : m.leadingExponent < e + 1 :=
    (zpow_lt_zpow_iff_right₀ (by norm_num)).mp (hlow'.trans_lt hhigh)
  omega

/-- A magnitude is rounded to its digits at their last place, also after a carry, where the steps
are ten times as wide. -/
theorem isNear_significant (hcount : 0 < count) (m : Magnitude) :
    (m.significant count).IsNear count (valueAt m.code) := by
  have hsteps := m.roundsToWhole_steps count
  rw [significant_eq]
  split
  case isFalse => exact hsteps
  case isTrue hcarry =>
    rw [hcarry] at hsteps
    obtain ⟨k, rfl⟩ : ∃ k, count = k + 1 := ⟨count - 1, by omega⟩
    have hwide : (10 : ℚ) ^ ((k + 1 : ℕ) - 1 - m.leadingExponent) =
        10 * 10 ^ ((k + 1 : ℕ) - 1 - (m.leadingExponent + 1)) := by
      rw [← zpow_one_add₀ (by norm_num)]
      congr 1
      ring
    have hclose := hsteps.1
    rw [hwide, pow_succ'] at hclose
    refine RoundsToWhole.of_abs_sub_lt ?_
    dsimp only
    rw [Nat.add_sub_cancel]
    rw [abs_le] at hclose
    rw [abs_lt]
    push_cast at hclose ⊢
    constructor <;> linarith

theorem written_of_not_overflows (h : ¬ (m.significant count).overflows count) :
    m.written count = m.significant count := if_neg h

theorem exponent_written_of_overflows (h : (m.significant count).overflows count) :
    (m.written count).exponent = (m.significant mostPrecision).exponent :=
  (congrArg Significant.exponent (if_pos h)).trans (Significant.exponent_mk _ _)

section

variable (hm : m.code ≠ 0) (hpos : 0 < count) (hcount : count ≤ mostPrecision)
  (hover : (m.significant count).overflows count)

include hm hpos hcount hover

/-- Digits are cut off only of the largest magnitudes. -/
theorem leadingExponent_of_overflows : m.leadingExponent = largestExponent ∧
    (m.significant mostPrecision).exponent = largestExponent := by
  have hlarge := Significant.lt_value_of_overflows (significant_coefficient hm hpos).1 hpos hcount
    hover
  have hlow : largestExponent ≤ m.leadingExponent := by
    by_contra hlt
    have hsmall := Significant.value_le_of_exponent_lt (s := ⟨m.steps count, m.leadingExponent⟩)
      (steps_bounds hm hpos).2 (not_le.mp hlt)
    rw [value_significant hpos] at hlarge
    exact absurd hlarge (not_lt.mpr hsmall)
  have hfull := isWritten_significant hm (by decide) (value_significant_le hm)
  have hhigh := hfull.exponent_le (by decide)
  have hle := m.leadingExponent_le_significant mostPrecision
  omega

/-- They are cut off only if fewer than the most are asked for. -/
theorem lt_of_overflows : count < mostPrecision := by
  rcases hcount.eq_or_lt with rfl | hlt
  · exact absurd (Significant.lt_value_of_overflows (significant_coefficient hm hpos).1 hpos hcount
      hover) (not_lt.mpr (value_significant_le hm))
  · exact hlt

end

/-- Half the distance of neighbours is less than half a step of the largest digits. -/
theorem half_gap_lt (y : Magnitude) :
    max (valueAt y.code / 2 ^ 53) (1 / 2 ^ 1075) < 10 ^ 293 / 2 := by
  have hcoefficient : (2 * largestCoefficient : ℚ) < 2 ^ 53 * 10 := by
    unfold largestCoefficient
    norm_num
  have hlarge : 2 * largestWritten < 2 ^ 53 * 10 * 10 ^ 292 := by
    rw [largestWritten, ← mul_assoc]
    exact mul_lt_mul_of_pos_right hcoefficient (by positivity)
  have hle := y.valueAt_le_largestWritten
  have hone : (1 : ℚ) ≤ 10 ^ 292 := one_le_pow₀ (by norm_num)
  have hunit : 1 / 2 ^ 1075 ≤ (1 : ℚ) :=
    (div_le_one (by positivity)).mpr (one_le_pow₀ one_le_two)
  generalize (1 : ℚ) / 2 ^ 1075 = unit at *
  rw [show (10 : ℚ) ^ 293 = 10 * 10 ^ 292 from pow_succ' 10 292]
  generalize (10 : ℚ) ^ 292 = step at *
  refine max_lt ?_ (by linarith)
  rw [div_lt_div_iff₀ (by positivity) two_pos]
  linarith

/-- What is nearest to the value of the digits that are written is rounded to them at their last
place. -/
theorem isNear_written (hm : m.code ≠ 0) (hpos : 0 < count) (hcount : count ≤ mostPrecision)
    (hy : RoundsTo ((m.written count).value count) y.code) :
    (m.written count).IsNear count (valueAt y.code) := by
  by_cases hover : (m.significant count).overflows count = true
  · -- neighbours are so close there that half their distance is less than half a step
    have hlt := lt_of_overflows hm hpos hcount hover
    have hexp := exponent_written_of_overflows hover
    rw [(leadingExponent_of_overflows hm hpos hcount hover).2] at hexp
    generalize m.written count = s at *
    have hvalue : 0 ≤ s.value count := by
      unfold Significant.value
      positivity
    have herror := (hy.abs_sub_le hvalue y.code_lt).trans_lt y.half_gap_lt
    have hstep : (10 : ℚ) ^ (count - 1 - s.exponent) ≤ 10 ^ (-(293 : ℕ) : ℤ) := by
      refine zpow_le_zpow_right₀ (by norm_num) ?_
      unfold mostPrecision at hlt
      unfold largestExponent at hexp
      omega
    refine RoundsToWhole.of_abs_sub_lt ?_
    rw [Significant.abs_sub_steps, abs_sub_comm]
    calc |s.value count - valueAt y.code| * 10 ^ (count - 1 - s.exponent)
        ≤ |s.value count - valueAt y.code| * 10 ^ (-(293 : ℕ) : ℤ) :=
          mul_le_mul_of_nonneg_left hstep (abs_nonneg _)
      _ < 10 ^ 293 / 2 * 10 ^ (-(293 : ℕ) : ℤ) := mul_lt_mul_of_pos_right herror (by positivity)
      _ = 1 / 2 := by
          rw [zpow_neg, zpow_natCast, div_mul_eq_mul_div, mul_inv_cancel₀ (by positivity)]
  · rw [written_of_not_overflows hover] at hy ⊢
    refine (isNear_significant hpos m).of_abs_sub_le ?_
    rw [abs_sub_comm, abs_sub_comm (valueAt m.code)]
    exact hy.abs_sub_le_abs_sub m.code_lt.le

/-! ### Writing digits again -/

/-- A power of ten in steps of a power of ten that is not larger. -/
theorem zpow_mul_zpow_eq {e places : ℤ} {n : ℕ} (h : e + places = n) :
    (10 : ℚ) ^ e * 10 ^ places = (10 ^ n : ℕ) := by
  rw [← zpow_add₀ (by norm_num), h, zpow_natCast, Nat.cast_pow, Nat.cast_ofNat]

/-- Half a step below a power of ten, in steps of the place below. -/
theorem sub_half_step_mul (e : ℤ) (count : ℕ) :
    ((10 : ℚ) ^ e - 10 ^ (e - count) / 2) * 10 ^ (count - 1 - (e - 1)) =
      (10 ^ count : ℕ) - 1 / 2 := by
  rw [sub_mul, div_mul_eq_mul_div, @zpow_mul_zpow_eq e _ count (by ring),
    @zpow_mul_zpow_eq (e - count) _ 0 (by push_cast; ring), pow_zero, Nat.cast_one]

section

variable (hpos : 0 < count) (hs : IsWritten count s) (h : s.IsNear count (valueAt y.code))

include hs h

theorem code_ne_zero_of_isNear : y.code ≠ 0 := by
  intro hzero
  have hclose := (abs_le.mp h.1).1
  rw [hzero, valueAt_zero, zero_mul, zero_sub, neg_le_neg_iff] at hclose
  have hone : (1 : ℚ) ≤ s.coefficient := by exact_mod_cast hs.coefficient_pos
  linarith

theorem lt_pow_of_isNear : valueAt y.code < 10 ^ (s.exponent + 1) := by
  by_contra hge
  have hsteps : ((10 ^ count : ℕ) : ℚ) ≤ valueAt y.code * 10 ^ (count - 1 - s.exponent) := by
    rw [← @zpow_mul_zpow_eq (s.exponent + 1) (count - 1 - s.exponent) count (by ring)]
    exact mul_le_mul_of_nonneg_right (not_lt.mp hge) (by positivity)
  have hclose := (abs_le.mp h.1).2
  have hnext : (s.coefficient : ℚ) + 1 ≤ (10 ^ count : ℕ) := by
    exact_mod_cast hs.coefficient_lt_pow
  linarith

/-- What reaches the power of ten of the first digit has the same last place. -/
theorem significant_eq_of_le (hle : 10 ^ s.exponent ≤ valueAt y.code) :
    y.significant count = s := by
  have hexp := leadingExponent_eq (code_ne_zero_of_isNear hs h) hle (lt_pow_of_isNear hs h)
  have hsteps := y.roundsToWhole_steps count
  rw [hexp] at hsteps
  have hcoefficient : y.steps count = s.coefficient := hsteps.unique h
  rw [significant_eq, hcoefficient, hexp, if_neg hs.coefficient_lt_pow.ne]

include hpos

/-- What does not reach it is within half a step of it, which the digits are then, and has the place
below as its last. -/
theorem below_of_lt (hlt : valueAt y.code < 10 ^ s.exponent) :
    s.coefficient = 10 ^ (count - 1) ∧ y.leadingExponent = s.exponent - 1 ∧
      ((10 ^ count : ℕ) - 5 : ℚ) ≤ valueAt y.code * 10 ^ (count - 1 - (s.exponent - 1)) := by
  have hpow : (10 : ℚ) ^ s.exponent * 10 ^ (count - 1 - s.exponent) = (10 ^ (count - 1) : ℕ) :=
    zpow_mul_zpow_eq (by omega)
  have hnarrow : (10 : ℚ) ^ (count - 1 - (s.exponent - 1)) =
      10 * 10 ^ (count - 1 - s.exponent) := by
    rw [← zpow_one_add₀ (by norm_num)]
    congr 1
    ring
  have hten : (10 ^ count : ℕ) = 10 * 10 ^ (count - 1) := by
    rw [← pow_succ', Nat.sub_add_cancel hpos]
  have hsteps : valueAt y.code * 10 ^ (count - 1 - s.exponent) < (10 ^ (count - 1) : ℕ) := by
    rw [← hpow]
    exact mul_lt_mul_of_pos_right hlt (by positivity)
  have hclose := (abs_le.mp h.1).1
  have hcoefficient : s.coefficient = 10 ^ (count - 1) := by
    refine le_antisymm ?_ hs.pow_le_coefficient
    have hnext : (s.coefficient : ℚ) < (10 ^ (count - 1) + 1 : ℕ) := by
      push_cast at hsteps ⊢
      linarith
    exact Nat.lt_succ_iff.mp (by exact_mod_cast hnext)
  have hbelow : ((10 ^ count : ℕ) - 5 : ℚ) ≤
      valueAt y.code * 10 ^ (count - 1 - (s.exponent - 1)) := by
    rw [hcoefficient] at hclose
    rw [hten, hnarrow, Nat.cast_mul]
    push_cast at hclose ⊢
    linarith
  have hlow : (10 : ℚ) ^ (s.exponent - 1) ≤ valueAt y.code := by
    have hpos' : (0 : ℚ) < 10 ^ (count - 1 - (s.exponent - 1)) := by positivity
    have hone : 1 ≤ 10 ^ (count - 1) := Nat.pow_pos (by decide)
    have hpart : ((10 ^ (count - 1) : ℕ) : ℚ) ≤ (10 ^ count : ℕ) - 5 := by
      rw [le_sub_iff_add_le]
      exact_mod_cast (by omega : 10 ^ (count - 1) + 5 ≤ 10 ^ count)
    refine le_of_mul_le_mul_right ?_ hpos'
    rw [@zpow_mul_zpow_eq _ _ (count - 1) (by omega)]
    exact hpart.trans hbelow
  exact ⟨hcoefficient, leadingExponent_eq (code_ne_zero_of_isNear hs h) hlow
    (by rwa [sub_add_cancel]), hbelow⟩

/-- Within half a step of that place it is rounded up to the power of ten. -/
theorem significant_eq_of_half_step_le (hlt : valueAt y.code < 10 ^ s.exponent)
    (hle : 10 ^ s.exponent - 10 ^ (s.exponent - count) / 2 ≤ valueAt y.code) :
    y.significant count = s := by
  obtain ⟨hcoefficient, hexp, -⟩ := below_of_lt hpos hs h hlt
  have hsteps := y.roundsToWhole_steps count
  rw [hexp] at hsteps
  have hplaces : (0 : ℚ) < 10 ^ (count - 1 - (s.exponent - 1)) := by positivity
  have hround : RoundsToWhole (valueAt y.code * 10 ^ (count - 1 - (s.exponent - 1)))
      (10 ^ count) := by
    have hhigh := mul_lt_mul_of_pos_right hlt hplaces
    have hlow := mul_le_mul_of_nonneg_right hle hplaces.le
    rw [sub_half_step_mul] at hlow
    rw [@zpow_mul_zpow_eq _ _ count (by ring)] at hhigh
    refine ⟨abs_le.mpr ⟨by linarith, by linarith⟩, fun _ => ?_⟩
    exact Even.pow_of_ne_zero (by decide) hpos.ne'
  rw [significant_eq, if_pos (hsteps.unique hround), hexp, sub_add_cancel, ← hcoefficient]

/-- Farther below it is rounded to less. -/
theorem exists_significant_of_lt
    (hlt : valueAt y.code < 10 ^ s.exponent - 10 ^ (s.exponent - count) / 2) :
    ∃ k, 10 ^ count ≤ k + 5 ∧ k < 10 ^ count ∧ y.significant count = ⟨k, s.exponent - 1⟩ := by
  have hstep : (0 : ℚ) < 10 ^ (s.exponent - count) := by positivity
  obtain ⟨-, hexp, hbelow⟩ := below_of_lt hpos hs h (by linarith)
  have hsteps := y.roundsToWhole_steps count
  rw [hexp] at hsteps
  have hplaces : (0 : ℚ) < 10 ^ (count - 1 - (s.exponent - 1)) := by positivity
  have hhigh := mul_lt_mul_of_pos_right hlt hplaces
  rw [sub_half_step_mul] at hhigh
  obtain ⟨hclose, hclose'⟩ := abs_le.mp hsteps.1
  have hlarge : 10 ^ count < y.steps count + 6 := by
    have : ((10 ^ count : ℕ) : ℚ) < (y.steps count + 6 : ℕ) := by
      push_cast at hbelow ⊢
      linarith
    exact_mod_cast this
  have hless : y.steps count < 10 ^ count := by
    have : (y.steps count : ℚ) < (10 ^ count : ℕ) := by linarith
    exact_mod_cast this
  exact ⟨y.steps count, by omega, hless, by rw [significant_eq, if_neg hless.ne, hexp]⟩

variable (hy : RoundsTo (s.value count) y.code)

include hy

/-- The magnitude that is read is written with the digits again. -/
theorem written_eq_of_not_drifts (hcount : count ≤ mostPrecision) (hdrift : ¬ s.Drifts count) :
    y.written count = s := by
  have hsignificant : y.significant count = s := by
    by_cases hlt : valueAt y.code < 10 ^ s.exponent
    · refine significant_eq_of_half_step_le hpos hs h hlt (not_lt.mp fun hfar => hdrift ?_)
      have hcoefficient := (below_of_lt hpos hs h hlt).1
      rw [Significant.value_eq_pow hcoefficient hpos] at hy
      exact ⟨hcoefficient, y.code, hy, hfar⟩
    · exact significant_eq_of_le hs h (not_lt.mp hlt)
  have hover : ¬ (y.significant count).overflows count := by
    rw [hsignificant]
    intro hover
    exact absurd hs.value_le (not_le.mpr
      (Significant.lt_value_of_overflows hs.pow_le_coefficient hpos hcount hover))
  rw [written_of_not_overflows hover, hsignificant]

/-- Digits that drift are written as others, one place lower and of at least the half of it. -/
theorem exists_written_of_drifts (hdrift : s.Drifts count) :
    ∃ k, 5 * 10 ^ (count - 1) ≤ k ∧ k < 10 ^ count ∧ y.written count = ⟨k, s.exponent - 1⟩ := by
  obtain ⟨hcoefficient, code, hcode, hlt⟩ := hdrift
  rw [Significant.value_eq_pow hcoefficient hpos] at hy
  obtain rfl : code = y.code := hcode.unique hy
  obtain ⟨k, hlow, hhigh, hsignificant⟩ := exists_significant_of_lt hpos hs h hlt
  have hten : 10 ^ count = 10 * 10 ^ (count - 1) := by rw [← pow_succ', Nat.sub_add_cancel hpos]
  have hone : 1 ≤ 10 ^ (count - 1) := Nat.pow_pos (by decide)
  have hexp := hs.exponent_le hpos
  have hover : ¬ (y.significant count).overflows count := by
    rw [hsignificant, Significant.overflows, Bool.or_eq_true, Bool.and_eq_true, decide_eq_true_eq,
      decide_eq_true_eq]
    dsimp only
    rintro (hlarge | ⟨hlarge, -⟩)
    · omega
    · omega
  exact ⟨k, by omega, hhigh, by rw [written_of_not_overflows hover, hsignificant]⟩

end

end Magnitude

end JsonDoc

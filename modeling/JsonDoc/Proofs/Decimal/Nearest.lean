import JsonDoc.Proofs.Binary64.Nearest
import JsonDoc.Proofs.Decimal.Digits

/-!
# The number nearest to a decimal

`Decimal.toBinary64` writes no decimal out that is out of reach of finite numbers, large or small.
`isNearest_toBinary64` says that it comes to the nearest number all the same.
-/

namespace JsonDoc

/-! ### Values out of reach -/

theorem valueAt_zero : valueAt 0 = 0 := by
  have : unitsAt 0 = 0 := by decide
  rw [valueAt, this, Nat.cast_zero, zero_div]

/-- What is below the first midpoint is rounded to zero. -/
theorem roundsTo_zero {x : ℚ} (h : x < midpointAt 0) : RoundsTo x 0 := by
  refine roundsTo_iff.mpr ⟨Nat.zero_le _, fun b _ => ?_⟩
  simp only [Nat.zero_le, iff_true]
  exact RoundsAtMost.mono (Or.inl h) (Nat.zero_le b)

/-- What reaches the last midpoint is too large to be finite. -/
theorem roundsTo_infinity {x : ℚ} (h : midpointAt (infinityCode - 1) ≤ x) :
    RoundsTo x infinityCode := by
  refine roundsTo_iff.mpr ⟨le_rfl, fun b hb => ?_⟩
  have hodd : ¬ Even (infinityCode - 1) := by decide
  have hlast : ¬ RoundsAtMost x (infinityCode - 1) := by
    rintro (hx | ⟨-, he⟩)
    · exact absurd h (not_le.mpr hx)
    · exact hodd he
  constructor
  · intro hx
    exact absurd (hx.mono (by omega)) hlast
  · intro hle
    omega

theorem unitsPerOne_eq : unitsPerOne = 2 ^ 1074 := by
  unfold unitsPerOne
  generalize 1074 = k
  exact Nat.one_shiftLeft k

/-- Sixty-three doublings are less than nineteen places. -/
theorem two_pow_le_ten_pow (k : ℕ) : (2 : ℚ) ^ (63 * k) ≤ 10 ^ (19 * k) := by
  rw [pow_mul, pow_mul]
  exact pow_le_pow_left₀ (by norm_num) (by norm_num) k

theorem unitsPerOne_le : (unitsPerOne : ℚ) ≤ 10 ^ 324 := by
  calc (unitsPerOne : ℚ) = 2 ^ (63 * 17) * 2 ^ 3 := by
        rw [unitsPerOne_eq, Nat.cast_pow, Nat.cast_ofNat, ← pow_add]
    _ ≤ 10 ^ (19 * 17) * 10 :=
        mul_le_mul (two_pow_le_ten_pow 17) (by norm_num) (by norm_num) (by positivity)
    _ = 10 ^ 324 := (pow_succ 10 323).symm

theorem midpointAt_zero : midpointAt 0 = 1 / 2 ^ 1075 := by
  have h : unitsAt 1 = 1 := by decide
  rw [midpointAt, valueAt_zero, valueAt, h, unitsPerOne_eq, Nat.cast_pow, Nat.cast_one,
    Nat.cast_ofNat, zero_add, div_div, ← pow_succ]

/-- At the top, neighbours are `2 ^ 971` apart. -/
theorem valueAt_top {steps : ℕ} (hlow : stride ≤ steps) (hhigh : steps ≤ 2 * stride) :
    valueAt (stride * 2045 + steps) = steps * 2 ^ 971 := by
  have hunit : (2 : ℚ) ^ 2045 = 2 ^ 971 * 2 ^ 1074 := by rw [← pow_add]
  rw [valueAt, unitsAt_of_steps hhigh (Or.inl hlow), unitsPerOne_eq, Nat.cast_mul, Nat.cast_pow,
    Nat.cast_pow, Nat.cast_ofNat, hunit, ← mul_assoc, mul_div_cancel_right₀ _ (by positivity)]

theorem valueAt_last : valueAt (infinityCode - 1) = (2 ^ 53 - 1) * 2 ^ 971 := by
  have hlast : infinityCode - 1 = stride * 2045 + (2 ^ 53 - 1) := by decide
  rw [hlast, valueAt_top (by decide) (by decide)]
  norm_num

/-- The last midpoint is half a step below `2 ^ 1024`. -/
theorem midpointAt_last : midpointAt (infinityCode - 1) = 2 ^ 1024 - 2 ^ 970 := by
  have hinf : infinityCode - 1 + 1 = stride * 2045 + 2 ^ 53 := by decide
  have htop : (2 : ℚ) ^ 1024 = 2 ^ 54 * 2 ^ 970 := by rw [← pow_add]
  have hstep : (2 : ℚ) ^ 971 = 2 * 2 ^ 970 := by rw [← pow_succ']
  rw [midpointAt, valueAt_last, hinf, valueAt_top (by decide) (by decide), htop, hstep]
  generalize (2 : ℚ) ^ 970 = s
  push_cast
  ring

theorem pow_neg_lt_midpointAt_zero : (10 : ℚ) ^ (-330 : ℤ) < midpointAt 0 := by
  rw [midpointAt_zero, zpow_neg, ← one_div]
  refine one_div_lt_one_div_of_lt (by positivity) ?_
  calc (2 : ℚ) ^ 1075 = unitsPerOne * 2 := by
        rw [unitsPerOne_eq, Nat.cast_pow, Nat.cast_ofNat, ← pow_succ]
    _ ≤ 10 ^ 324 * 2 := mul_le_mul_of_nonneg_right unitsPerOne_le two_pos.le
    _ < 10 ^ 324 * 10 ^ 6 := mul_lt_mul_of_pos_left (by norm_num) (by positivity)
    _ = 10 ^ 330 := (pow_add 10 324 6).symm

theorem midpointAt_last_lt_pow : midpointAt (infinityCode - 1) < (10 : ℚ) ^ (310 : ℤ) := by
  have h : (2 : ℚ) ^ 1024 < 10 ^ 310 := by
    calc (2 : ℚ) ^ 1024 = 2 ^ (63 * 16) * 2 ^ 16 := by rw [← pow_add]
      _ ≤ 10 ^ (19 * 16) * 2 ^ 16 :=
          mul_le_mul_of_nonneg_right (two_pow_le_ten_pow 16) (by positivity)
      _ < 10 ^ 304 * 10 ^ 6 := mul_lt_mul_of_pos_left (by norm_num) (by positivity)
      _ = 10 ^ 310 := (pow_add 10 304 6).symm
  rw [midpointAt_last, show (10 : ℚ) ^ (310 : ℤ) = 10 ^ 310 from zpow_natCast 10 310]
  exact (sub_lt_self _ (by positivity)).trans h

/-- Values of at least `10 ^ 310` are rounded alike: beyond all that is finite. -/
theorem RoundAlike.of_large {x y : ℚ} (hx : 10 ^ (310 : ℤ) ≤ x) (hy : 10 ^ (310 : ℤ) ≤ y) :
    RoundAlike x y :=
  ((roundsTo_infinity (midpointAt_last_lt_pow.le.trans hx)).eq_iff
    (roundsTo_infinity (midpointAt_last_lt_pow.le.trans hy))).mp rfl

/-- Values of at most `10 ^ -330` are rounded alike: to zero. -/
theorem RoundAlike.of_small {x y : ℚ} (hx : x ≤ 10 ^ (-330 : ℤ)) (hy : y ≤ 10 ^ (-330 : ℤ)) :
    RoundAlike x y :=
  ((roundsTo_zero (hx.trans_lt pow_neg_lt_midpointAt_zero)).eq_iff
    (roundsTo_zero (hy.trans_lt pow_neg_lt_midpointAt_zero))).mp rfl

namespace Decimal

/-- The number that a decimal is. -/
def value (d : Decimal) : ℚ := d.coefficient * 10 ^ d.exponent

/-- The place of the first digit bounds a decimal on both sides. -/
theorem value_bounds {d : Decimal} (hc : 0 < d.coefficient) :
    (10 : ℚ) ^ (decimalLength d.coefficient + d.exponent - 1) ≤ d.value ∧
      d.value < 10 ^ (decimalLength d.coefficient + d.exponent) := by
  have hlen := decimalLength_pos d.coefficient
  have hlo : ((10 : ℚ) ^ (decimalLength d.coefficient - 1)) ≤ d.coefficient := by
    exact_mod_cast pow_decimalLength_le hc
  have hhi : (d.coefficient : ℚ) < 10 ^ decimalLength d.coefficient := by
    exact_mod_cast lt_pow_decimalLength d.coefficient
  have hp : (0 : ℚ) < 10 ^ d.exponent := by positivity
  unfold value
  constructor
  · rw [show (decimalLength d.coefficient + d.exponent - 1 : ℤ) =
      (decimalLength d.coefficient - 1 : ℕ) + d.exponent by omega, zpow_add₀ (by norm_num),
      zpow_natCast]
    exact mul_le_mul_of_nonneg_right hlo hp.le
  · rw [zpow_add₀ (by norm_num), zpow_natCast]
    exact mul_lt_mul_of_pos_right hhi hp

/-- A decimal is rounded to the nearest number, whatever its exponent. -/
theorem isNearest_toBinary64 (negative : Bool) (d : Decimal) :
    Binary64.IsNearest negative d.value (d.toBinary64 negative) := by
  have hten : (1 : ℚ) < 10 := by norm_num
  unfold toBinary64
  dsimp only
  split
  case isTrue hc =>
    refine Binary64.isNearest_finite_iff.mpr ⟨rfl, roundsTo_zero ?_⟩
    rw [value, hc, Nat.cast_zero, zero_mul, midpointAt_zero]
    positivity
  case isFalse hc =>
    obtain ⟨hlo, hhi⟩ := value_bounds (Nat.pos_of_ne_zero hc)
    split
    case isTrue hlarge =>
      refine Binary64.isNearest_infinite_iff.mpr ⟨rfl, roundsTo_infinity ?_⟩
      have : (10 : ℚ) ^ (310 : ℤ) ≤ 10 ^ (decimalLength d.coefficient + d.exponent - 1) :=
        zpow_le_zpow_right₀ hten.le (by omega)
      linarith [midpointAt_last_lt_pow]
    case isFalse hlarge =>
      split
      case isTrue hsmall =>
        refine Binary64.isNearest_finite_iff.mpr ⟨rfl, roundsTo_zero ?_⟩
        have : (10 : ℚ) ^ (decimalLength d.coefficient + d.exponent) ≤ 10 ^ (-330 : ℤ) :=
          zpow_le_zpow_right₀ hten.le (by omega)
        linarith [pow_neg_lt_midpointAt_zero]
      case isFalse hsmall =>
        have hu := unitsPerOne_pos
        split
        case isTrue hpos =>
          have h := Binary64.isNearest_nearest negative
            (d.coefficient * tenPow d.exponent.toNat * unitsPerOne) one_pos
          convert h using 1
          obtain ⟨k, hk⟩ := Int.eq_ofNat_of_zero_le hpos
          rw [value, hk, tenPow_eq, Int.toNat_natCast, zpow_natCast]
          generalize unitsPerOne = one at *
          push_cast
          field_simp
        case isFalse hneg =>
          have h := Binary64.isNearest_nearest negative (d.coefficient * unitsPerOne)
            (show 0 < tenPow (-d.exponent).toNat from Nat.pow_pos (by decide))
          convert h using 1
          obtain ⟨k, hk⟩ : ∃ k : ℕ, d.exponent = -k := ⟨(-d.exponent).toNat, by omega⟩
          rw [value, hk, tenPow_eq, neg_neg, Int.toNat_natCast, zpow_neg, zpow_natCast]
          generalize unitsPerOne = one at *
          push_cast
          field_simp

end Decimal

end JsonDoc

import JsonDoc.Proofs.Decimal.Nearest

/-!
# Rounding errors

The nearest magnitude is off by at most half the distance of neighbours: by a part of `2 ^ -53` of
it, or by half a unit where neighbours are as near as they get (`RoundsTo.abs_sub_le`).  In turn, what
is off by less than a part of `2 ^ -54` of a magnitude is rounded to it (`roundsTo_of_abs_sub_lt`).
And what is not larger is not rounded to a larger magnitude (`RoundsTo.mono`).
-/

namespace JsonDoc

/-! ### Neighbours -/

/-- Every magnitude is some steps, full or of one unit each. -/
theorem exists_steps (code : ℕ) :
    ∃ doublings steps, code = stride * doublings + steps ∧ steps < 2 * stride ∧
      (stride ≤ steps ∨ doublings = 0) := by
  have hs : 0 < stride := by decide
  rcases Nat.lt_or_ge code stride with h | h
  · exact ⟨0, code, by rw [mul_zero, zero_add], by omega, Or.inr rfl⟩
  · have hdiv : 1 ≤ code / stride := (Nat.one_le_div_iff hs).mpr h
    have hmod := Nat.mod_lt code hs
    refine ⟨code / stride - 1, stride + code % stride, ?_, by omega, Or.inl (Nat.le_add_right _ _)⟩
    have hcode := Nat.div_add_mod code stride
    rw [Nat.mul_sub, mul_one]
    have hle : stride ≤ stride * (code / stride) := Nat.le_mul_of_pos_right _ hdiv
    omega

/-- A magnitude and the next are so many steps and one more, of one unit where they are few. -/
theorem exists_valueAt_steps (code : ℕ) :
    ∃ (steps : ℕ) (step : ℚ), 0 < step ∧ steps < 2 * stride ∧ valueAt code = steps * step ∧
      valueAt (code + 1) = (steps + 1) * step ∧ (stride ≤ steps ∨ step = 1 / 2 ^ 1074) := by
  obtain ⟨doublings, steps, rfl, hlt, hge⟩ := exists_steps code
  have hone : (unitsPerOne : ℚ) = 2 ^ 1074 := by rw [unitsPerOne_eq, Nat.cast_pow, Nat.cast_ofNat]
  have hge' : stride ≤ steps + 1 ∨ doublings = 0 := hge.imp_left fun h => h.trans (Nat.le_succ _)
  refine ⟨steps, 2 ^ doublings / unitsPerOne, div_pos (by positivity) unitsPerOne_pos, hlt, ?_, ?_,
    hge.imp_right fun h => by rw [h, pow_zero, hone]⟩
  · rw [valueAt, unitsAt_of_steps hlt.le hge]
    generalize unitsPerOne = one
    push_cast
    ring
  · rw [valueAt, add_assoc, unitsAt_of_steps hlt hge']
    generalize unitsPerOne = one
    push_cast
    ring

/-- Neighbours are one unit apart, or a part of the lower one. -/
theorem valueAt_succ_sub_le (code : ℕ) :
    valueAt (code + 1) - valueAt code ≤ max (valueAt code / 2 ^ 52) (1 / 2 ^ 1074) := by
  obtain ⟨steps, step, hpos, -, hlow, hhigh, hge⟩ := exists_valueAt_steps code
  have hgap : valueAt (code + 1) - valueAt code = step := by
    rw [hlow, hhigh]
    ring
  rw [hgap]
  rcases hge with hge | hunit
  · refine le_max_of_le_left ?_
    have hge' : (2 : ℚ) ^ 52 ≤ steps := by exact_mod_cast hge
    rw [hlow, le_div_iff₀ (by positivity), mul_comm]
    exact mul_le_mul_of_nonneg_right hge' hpos.le
  · exact le_max_of_le_right hunit.le

/-- They are at least a part of the upper one apart. -/
theorem valueAt_succ_le (code : ℕ) :
    valueAt (code + 1) ≤ 2 ^ 53 * (valueAt (code + 1) - valueAt code) := by
  obtain ⟨steps, step, hpos, hlt, hlow, hhigh, -⟩ := exists_valueAt_steps code
  have hlt' : (steps : ℚ) + 1 ≤ 2 ^ 53 := by exact_mod_cast hlt
  have hgap : valueAt (code + 1) - valueAt code = step := by
    rw [hlow, hhigh]
    ring
  rw [hgap, hhigh]
  exact mul_le_mul_of_nonneg_right hlt' hpos.le

/-! ### One rounding -/

section

variable {x y : ℚ} {a b code : ℕ}

theorem RoundsTo.le_midpointAt (h : RoundsTo x code) (hcode : code < infinityCode) :
    x ≤ midpointAt code := by
  rcases ((roundsTo_iff.mp h).2 code hcode).mpr le_rfl with hlt | ⟨heq, -⟩
  · exact hlt.le
  · exact heq.le

theorem RoundsTo.midpointAt_le (h : RoundsTo x (code + 1)) : midpointAt code ≤ x := by
  obtain ⟨hcode, hcut⟩ := roundsTo_iff.mp h
  have hnot : ¬ RoundsAtMost x code := fun hx => absurd ((hcut code hcode).mp hx) (by omega)
  exact not_lt.mp fun hlt => hnot (Or.inl hlt)

/-- A finite magnitude is off by at most half the distance of neighbours. -/
theorem RoundsTo.abs_sub_le (h : RoundsTo x code) (hx : 0 ≤ x) (hcode : code < infinityCode) :
    |x - valueAt code| ≤ max (valueAt code / 2 ^ 53) (1 / 2 ^ 1075) := by
  have hhalf : max (valueAt code / 2 ^ 53) (1 / 2 ^ 1075) =
      max (valueAt code / 2 ^ 52) (1 / 2 ^ 1074) / 2 := by
    rw [← max_div_div_right (by norm_num), div_div, div_div, ← pow_succ, ← pow_succ]
  rw [hhalf, abs_le]
  constructor
  · cases code with
    | zero =>
      rw [valueAt_zero, sub_zero]
      exact le_trans (neg_nonpos.mpr (by positivity)) hx
    | succ code =>
      have hlow := h.midpointAt_le
      have hgap := valueAt_succ_sub_le code
      have hmono := valueAt_le_valueAt code.le_succ
      have hwide : max (valueAt code / 2 ^ 52) (1 / 2 ^ 1074 : ℚ) ≤
          max (valueAt (code + 1) / 2 ^ 52) (1 / 2 ^ 1074) :=
        max_le_max_right _ (div_le_div_of_nonneg_right hmono (by positivity))
      unfold midpointAt at hlow
      linarith
  · have hhigh := h.le_midpointAt hcode
    have hgap := valueAt_succ_sub_le code
    unfold midpointAt at hhigh
    linarith

/-- No other magnitude is nearer than the nearest. -/
theorem RoundsTo.abs_sub_le_abs_sub (h : RoundsTo x a) (hb : b ≤ infinityCode) :
    |x - valueAt a| ≤ |x - valueAt b| := by
  by_cases hne : b = a
  · rw [hne]
  · rcases h.2 b hb hne with hlt | ⟨heq, -⟩
    · exact hlt.le
    · exact heq.le

/-- What is not larger is not rounded to a larger magnitude. -/
theorem RoundsTo.mono (ha : RoundsTo x a) (hb : RoundsTo y b) (h : x ≤ y) : a ≤ b := by
  by_contra hlt
  obtain ⟨hcode, hcut⟩ := roundsTo_iff.mp ha
  have hb' : b < infinityCode := by omega
  have hyb := ((roundsTo_iff.mp hb).2 b hb').mpr le_rfl
  refine hlt ((hcut b hb').mp ?_)
  rcases hyb with hlt | ⟨heq, heven⟩
  · exact Or.inl (h.trans_lt hlt)
  · rcases h.eq_or_lt with rfl | hlt
    · exact Or.inr ⟨heq, heven⟩
    · exact Or.inl (heq ▸ hlt)

/-- What is off by less than a quarter of the least distance of neighbours is rounded to the
magnitude, also below a power of two, where they are only half as far apart as above it. -/
theorem roundsTo_of_abs_sub_lt (hcode : code < infinityCode)
    (h : |x - valueAt code| < valueAt code / 2 ^ 54) : RoundsTo x code := by
  obtain ⟨hlow, hhigh⟩ := abs_lt.mp h
  have hbelow : RoundsAtMost x code := by
    have hgap := valueAt_succ_le code
    have hmono := valueAt_le_valueAt code.le_succ
    left
    unfold midpointAt
    linarith
  refine roundsTo_iff.mpr ⟨hcode.le, fun b _ => ⟨fun hb => ?_, hbelow.mono⟩⟩
  by_contra hlt
  obtain ⟨c, rfl⟩ : ∃ c, code = c + 1 := ⟨code - 1, by omega⟩
  have hgap := valueAt_succ_le c
  have habove : midpointAt c < x := by
    unfold midpointAt
    linarith
  rcases hb.mono (show b ≤ c by omega) with hc | ⟨hc, -⟩ <;> linarith

/-- A magnitude is rounded to itself. -/
theorem roundsTo_valueAt (hcode : code ≤ infinityCode) : RoundsTo (valueAt code) code := by
  refine ⟨hcode, fun other _ hne => Or.inl ?_⟩
  rw [sub_self, abs_zero, abs_pos, sub_ne_zero]
  rcases lt_or_gt_of_ne hne with h | h
  · exact (valueAt_lt_valueAt h).ne'
  · exact (valueAt_lt_valueAt h).ne

end

end JsonDoc

import JsonDoc.Value.Compare
import JsonDoc.Proofs.Binary64.Error

/-!
# Numbers that are nearly equal

The test for nearly equal numbers computes a distance and a tolerance, both rounded.  Rounding keeps
the order of the exact values, so numbers whose exact distance is tolerated are nearly equal
(`Binary64.nearlyEqual_of_le`); and as it changes little, finite numbers that are nearly equal are
near (`Binary64.near_of_nearlyEqual`).  An infinity tolerates every distance, for a part of it is
infinite as well.
-/

namespace JsonDoc.Binary64

/-- The value of a finite number. -/
def toRat : Binary64 → ℚ
  | finite negative m => m.signedUnits negative / unitsPerOne
  | _ => 0

/-! ### Ranks -/

section

variable {x y : Binary64} {a b : ℤ}

theorem le_iff (hx : x.rank? = some a) (hy : y.rank? = some b) : x.le y = true ↔ a ≤ b := by
  rw [le, compare?, hx, hy]
  simp only [Bool.or_eq_true, beq_iff_eq, Option.some.injEq, compare_lt_iff_lt, compare_eq_iff_eq]
  exact le_iff_lt_or_eq.symm

theorem eq_iff (hx : x.rank? = some a) (hy : y.rank? = some b) : x.eq y = true ↔ a = b := by
  rw [eq, compare?, hx, hy]
  simp only [beq_iff_eq, Option.some.injEq, compare_eq_iff_eq]

end

/-- The rank of what is rounded from a value without a sign is the number of the magnitude. -/
theorem IsNearest.exists_rank {v : ℚ} {f : Binary64} (h : IsNearest false v f) :
    ∃ code : ℕ, RoundsTo v code ∧ f.rank? = some (code : ℤ) := by
  cases f with
  | nan => exact absurd h id
  | infinite s =>
    obtain ⟨rfl, h⟩ := h
    exact ⟨infinityCode, h, rfl⟩
  | finite s m =>
    obtain ⟨rfl, h⟩ := h
    exact ⟨m.code, h, rfl⟩

/-! ### Exact values -/

section

variable {s t : Bool} {m k : Magnitude}

theorem toRat_finite (s : Bool) (m : Magnitude) :
    (finite s m).toRat = if s then -valueAt m.code else valueAt m.code := by
  cases s with
  | false => rfl
  | true =>
    rw [toRat, Magnitude.signedUnits, if_pos rfl, Int.cast_neg, neg_div]
    rfl

theorem abs_toRat (s : Bool) (m : Magnitude) : |(finite s m).toRat| = valueAt m.code := by
  have hvalue : |valueAt m.code| = valueAt m.code := by
    rw [abs_eq_self, ← valueAt_zero]
    exact valueAt_le_valueAt (Nat.zero_le _)
  rw [toRat_finite]
  cases s with
  | false => exact hvalue
  | true => exact (abs_neg _).trans hvalue

/-- The distance of finite numbers is rounded from that of their values. -/
theorem isNearest_distance (s t : Bool) (m k : Magnitude) :
    IsNearest false |(finite s m).toRat - (finite t k).toRat|
      ((finite s m).distance (finite t k)) := by
  have h := isNearest_nearest false (m.signedUnits s - k.signedUnits t).natAbs Nat.one_pos
  have hvalue : |(finite s m).toRat - (finite t k).toRat| =
      ((m.signedUnits s - k.signedUnits t).natAbs : ℚ) / ((1 : ℕ) * unitsPerOne) := by
    rw [toRat, toRat, ← sub_div, abs_div, abs_of_pos unitsPerOne_pos, Nat.cast_one, one_mul,
      Nat.cast_natAbs]
    push_cast
    rfl
  rw [hvalue]
  exact h

theorem isNearest_mul (m k : Magnitude) :
    IsNearest false (valueAt m.code * valueAt k.code) ((finite false m).mul (finite false k)) := by
  have hone : 0 < unitsPerOne := by exact_mod_cast unitsPerOne_pos
  have h := isNearest_nearest false (m.units * k.units) hone
  rw [Nat.cast_mul, mul_div_mul_comm] at h
  exact h

/-- The number that stands for an integer is the nearest one. -/
theorem isNearest_ofInt (i : ℤ) : IsNearest (i < 0) |(i : ℚ)| (ofInt i) := by
  have h := isNearest_nearest (i < 0) (i.natAbs * unitsPerOne) Nat.one_pos
  rw [Nat.cast_mul, Nat.cast_one, one_mul, mul_div_cancel_right₀ _ unitsPerOne_pos.ne',
    Nat.cast_natAbs, Int.cast_abs] at h
  exact h

/-- Numbers of one sign are as far apart as their magnitudes. -/
theorem abs_toRat_sub (s : Bool) (m k : Magnitude) :
    |(finite s m).toRat - (finite s k).toRat| = |valueAt m.code - valueAt k.code| := by
  rw [toRat_finite, toRat_finite]
  cases s with
  | false => rfl
  | true => rw [if_pos rfl, if_pos rfl, neg_sub_neg, abs_sub_comm]

/-- The larger of two magnitudes has the larger value. -/
theorem exists_max (s t : Bool) (m k : Magnitude) :
    ∃ l : Magnitude, (finite s m).abs.max (finite t k).abs = finite false l ∧
      valueAt l.code = |(finite s m).toRat| ⊔ |(finite t k).toRat| := by
  have hle : (finite false m).le (finite false k) = true ↔ (m.code : ℤ) ≤ k.code := le_iff rfl rfl
  rw [abs_toRat, abs_toRat]
  by_cases h : m.code ≤ k.code
  · refine ⟨k, ?_, (max_eq_right (valueAt_le_valueAt h)).symm⟩
    rw [abs, abs, max, if_neg nofun, if_pos (hle.mpr (by exact_mod_cast h))]
  · refine ⟨m, ?_, (max_eq_left (valueAt_le_valueAt (by omega))).symm⟩
    rw [abs, abs, max, if_neg nofun, if_neg (hle.not.mpr (by exact_mod_cast h))]

/-- Numbers that are equal have the same value. -/
theorem toRat_eq_of_eq (h : (finite s m).eq (finite t k)) :
    (finite s m).toRat = (finite t k).toRat := by
  have hrank := (eq_iff rfl rfl).mp h
  have hcode : m.code = k.code := by
    cases s <;> cases t <;> simp at hrank <;> omega
  have hzero : s = t ∨ m.code = 0 := by
    cases s <;> cases t <;> simp at hrank ⊢ <;> omega
  obtain ⟨code, hm⟩ := m
  obtain ⟨code', hk⟩ := k
  obtain rfl : code = code' := hcode
  rcases hzero with rfl | rfl
  · rfl
  · cases s <;> cases t <;> rfl

/-! ### Tolerance -/

/-- The tolerance is close to `1e-12`. -/
theorem toRat_tolerance : tolerance.toRat = 4951760157141521 / 2 ^ 92 := by
  have hcode : (0x3D719799812DEA11 : ℕ) = stride * 982 + 4951760157141521 := by decide
  have hunits : unitsAt 0x3D719799812DEA11 = 4951760157141521 * 2 ^ 982 := by
    rw [hcode, unitsAt_of_steps (by decide) (Or.inl (by decide))]
  have hpow : (2 : ℚ) ^ 1074 = 2 ^ 92 * 2 ^ 982 := by rw [← pow_add]
  have hvalue : tolerance.toRat = (unitsAt 0x3D719799812DEA11 : ℚ) / unitsPerOne := rfl
  rw [hvalue, hunits, unitsPerOne_eq, Nat.cast_mul, Nat.cast_pow, Nat.cast_pow, Nat.cast_ofNat,
    Nat.cast_ofNat, hpow, mul_div_mul_right _ _ (by positivity)]

theorem two_pow_1022_eq : (1 / 2 ^ 1022 : ℚ) = 2 ^ 53 * (1 / 2 ^ 1075) := by
  rw [mul_one_div, div_eq_div_iff (by positivity) (by positivity), one_mul, ← pow_add]

theorem valueAt_stride : valueAt stride = 1 / 2 ^ 1022 := by
  have hunits : unitsAt stride = 2 ^ 52 := by decide
  have hpow : (2 : ℚ) ^ 1074 = 2 ^ 52 * 2 ^ 1022 := by rw [← pow_add]
  rw [valueAt, hunits, unitsPerOne_eq, Nat.cast_pow, Nat.cast_pow, Nat.cast_ofNat, hpow,
    ← div_div, div_self (by positivity)]

/-- Finite numbers are nearly equal iff their distance is rounded to no more than the least normal
magnitude, or no more than what is tolerated is rounded to. -/
theorem exists_nearlyEqual_iff (s t : Bool) (m k : Magnitude) :
    ∃ near most : ℕ, RoundsTo |(finite s m).toRat - (finite t k).toRat| near ∧
      RoundsTo ((|(finite s m).toRat| ⊔ |(finite t k).toRat|) * tolerance.toRat) most ∧
      ((finite s m).nearlyEqual (finite t k) = true ↔ near ≤ stride ∨ near ≤ most) := by
  obtain ⟨near, hnear, hdistance⟩ := (isNearest_distance s t m k).exists_rank
  obtain ⟨l, hmax, hvalue⟩ := exists_max s t m k
  obtain ⟨most, hmost, hproduct⟩ := (isNearest_mul l ⟨0x3D719799812DEA11, by decide⟩).exists_rank
  have htolerance : tolerance.toRat = valueAt 0x3D719799812DEA11 := rfl
  refine ⟨near, most, hnear, by rwa [htolerance, ← hvalue], ?_⟩
  have hleast : ((finite s m).distance (finite t k)).le (finite false .leastNormal) = true ↔
      near ≤ stride := (le_iff hdistance rfl).trans Nat.cast_le
  have hpart : ((finite s m).distance (finite t k)).le
      (((finite s m).abs.max (finite t k).abs).mul tolerance) = true ↔ near ≤ most := by
    rw [hmax]
    exact (le_iff hdistance hproduct).trans Nat.cast_le
  have heq : (finite s m).eq (finite t k) = true → near ≤ stride := by
    intro h
    rw [toRat_eq_of_eq h, sub_self, abs_zero, ← valueAt_zero] at hnear
    rw [hnear.unique (roundsTo_valueAt (Nat.zero_le _))]
    exact Nat.zero_le _
  simp only [nearlyEqual, Bool.or_eq_true, hleast, hpart]
  constructor
  · rintro ((h | h) | h)
    · exact Or.inl (heq h)
    · exact Or.inl h
    · exact Or.inr h
  · rintro (h | h)
    · exact Or.inl (Or.inr h)
    · exact Or.inr h

/-- Finite numbers whose distance is tolerated, or below the least normal magnitude, are nearly
equal. -/
theorem nearlyEqual_of_le
    (h : |(finite s m).toRat - (finite t k).toRat| ≤
        (|(finite s m).toRat| ⊔ |(finite t k).toRat|) * tolerance.toRat ∨
      |(finite s m).toRat - (finite t k).toRat| ≤ 1 / 2 ^ 1022) :
    (finite s m).nearlyEqual (finite t k) = true := by
  obtain ⟨near, most, hnear, hmost, hiff⟩ := exists_nearlyEqual_iff s t m k
  refine hiff.mpr ?_
  rcases h with h | h
  · exact Or.inr (hnear.mono hmost h)
  · rw [← valueAt_stride] at h
    exact Or.inl (hnear.mono (roundsTo_valueAt (by decide)) h)

/-- Zeros of both signs are nearly equal. -/
theorem nearlyEqual_of_code_eq_zero (hm : m.code = 0) (hk : k.code = 0) :
    (finite s m).nearlyEqual (finite t k) = true := by
  have hzero (t : Bool) {l : Magnitude} (hl : l.code = 0) : (finite t l).toRat = 0 := by
    rw [← abs_eq_zero, abs_toRat, hl, valueAt_zero]
  refine nearlyEqual_of_le (Or.inr ?_)
  rw [hzero s hm, hzero t hk, sub_self, abs_zero]
  positivity

/-- A magnitude, and what a value close to it is rounded to, are nearly equal. -/
theorem nearlyEqual_of_roundsTo {x : ℚ} (hx : 0 ≤ x) (hround : RoundsTo x k.code)
    (h : |valueAt m.code - x| ≤ 6 / 10 ^ 13 * valueAt m.code) :
    (finite s k).nearlyEqual (finite s m) = true := by
  refine nearlyEqual_of_le ?_
  have herror := hround.abs_sub_le hx k.code_lt
  have hvalue : 0 ≤ valueAt m.code := valueAt_zero ▸ valueAt_le_valueAt (Nat.zero_le _)
  have hunit : (0 : ℚ) < 1 / 2 ^ 1075 := by positivity
  have hleft := le_max_left (valueAt k.code) (valueAt m.code)
  have hright := le_max_right (valueAt k.code) (valueAt m.code)
  rw [abs_toRat_sub, abs_toRat, abs_toRat, toRat_tolerance, two_pow_1022_eq]
  generalize (1 / 2 ^ 1075 : ℚ) = unit at *
  generalize valueAt k.code ⊔ valueAt m.code = larger at *
  generalize valueAt k.code = y at *
  generalize valueAt m.code = v at *
  rw [abs_le] at h
  rcases le_total unit (y / 2 ^ 53) with hnormal | hsmall
  · -- both roundings are off by parts of the numbers
    left
    rw [max_eq_left hnormal, abs_le] at herror
    rw [abs_le]
    constructor <;> linarith
  · -- the number read is at most the least normal one
    right
    rw [max_eq_right hsmall, abs_le] at herror
    rw [div_le_iff₀ (by positivity)] at hsmall
    rw [abs_le]
    constructor <;> linarith

/-- Numbers so near that they may be taken for equal: finite ones that differ by little, or an
infinity and any number. -/
def Near : Binary64 → Binary64 → Prop
  | nan, _ => False
  | _, nan => False
  | finite s m, finite t k =>
    |(finite s m).toRat - (finite t k).toRat| ≤
        2 / 10 ^ 12 * (|(finite s m).toRat| ⊔ |(finite t k).toRat|) ∨
      |(finite s m).toRat - (finite t k).toRat| ≤ 1 / 2 ^ 1021
  | _, _ => True

theorem near_finite_iff : (finite s m).Near (finite t k) ↔
    |(finite s m).toRat - (finite t k).toRat| ≤
        2 / 10 ^ 12 * (|(finite s m).toRat| ⊔ |(finite t k).toRat|) ∨
      |(finite s m).toRat - (finite t k).toRat| ≤ 1 / 2 ^ 1021 := Iff.rfl

theorem Near.symm {x y : Binary64} (h : x.Near y) : y.Near x := by
  cases x with
  | nan => exact h.elim
  | infinite s =>
    cases y with
    | nan => exact h.elim
    | _ => trivial
  | finite s m =>
    cases y with
    | nan => exact h.elim
    | infinite t => trivial
    | finite t k =>
      rw [near_finite_iff] at h ⊢
      rw [abs_sub_comm, max_comm]
      exact h

/-- What is rounded to no more than the least normal magnitude is below twice that. -/
theorem le_of_roundsTo_small {x : ℚ} {code : ℕ} (h : RoundsTo x code) (hx : 0 ≤ x)
    (hcode : valueAt code ≤ 1 / 2 ^ 1022) : x ≤ 1 / 2 ^ 1021 := by
  have hfinite : code < infinityCode := by
    by_contra hge
    have hstride : stride < infinityCode := by decide
    have hlt := valueAt_lt_valueAt (hstride.trans_le (not_lt.mp hge))
    rw [valueAt_stride] at hlt
    exact hlt.not_ge hcode
  have herror := (abs_le.mp (h.abs_sub_le hx hfinite)).2
  have hunit' : (1 / 2 ^ 1021 : ℚ) = 2 ^ 54 * (1 / 2 ^ 1075) := by
    rw [mul_one_div, div_eq_div_iff (by positivity) (by positivity), one_mul, ← pow_add]
  have hunit0 : (0 : ℚ) < 1 / 2 ^ 1075 := by positivity
  have hhalf : (valueAt code / 2 ^ 53 ⊔ 1 / 2 ^ 1075 : ℚ) ≤ 1 / 2 ^ 1075 := by
    refine max_le ?_ le_rfl
    rw [div_le_iff₀ (by positivity), mul_comm, ← two_pow_1022_eq]
    exact hcode
  rw [two_pow_1022_eq] at hcode
  rw [hunit']
  generalize (1 / 2 ^ 1075 : ℚ) = unit at *
  linarith

/-- Above the least normal magnitude, a value is a part of `2 ^ -53` away from its magnitude. -/
theorem abs_sub_le_of_normal {x : ℚ} {code : ℕ} (h : RoundsTo x code) (hx : 0 ≤ x)
    (hcode : code < infinityCode) (hnormal : 1 / 2 ^ 1022 ≤ valueAt code) :
    |x - valueAt code| ≤ valueAt code / 2 ^ 53 := by
  refine (h.abs_sub_le hx hcode).trans (max_le le_rfl ?_)
  rw [le_div_iff₀ (by positivity), mul_comm, ← two_pow_1022_eq]
  exact hnormal

/-- A distance that is rounded to no more than the least normal magnitude, or than a tolerated part
is rounded to, is small. -/
theorem le_or_le_of_roundsTo {distance larger : ℚ} {near most : ℕ} (hnear : RoundsTo distance near)
    (hmost : RoundsTo (larger * tolerance.toRat) most) (hfinite : most < infinityCode)
    (hdistance : 0 ≤ distance) (hlarger : 0 ≤ larger) (h : near ≤ stride ∨ near ≤ most) :
    distance ≤ 2 / 10 ^ 12 * larger ∨ distance ≤ 1 / 2 ^ 1021 := by
  rw [toRat_tolerance] at hmost
  by_cases hsmall : valueAt near ≤ 1 / 2 ^ 1022
  · exact Or.inr (le_of_roundsTo_small hnear hdistance hsmall)
  · have hle : near ≤ most := by
      refine h.resolve_left fun hstride => hsmall ?_
      rw [← valueAt_stride]
      exact valueAt_le_valueAt hstride
    have hvalue := valueAt_le_valueAt hle
    have hlow := (not_le.mp hsmall).le
    have hnear' := (abs_le.mp (abs_sub_le_of_normal hnear hdistance (hle.trans_lt hfinite) hlow)).2
    have hmost' := (abs_le.mp (abs_sub_le_of_normal hmost (mul_nonneg hlarger (by norm_num)) hfinite
      (hlow.trans hvalue))).1
    left
    clear hlow hsmall
    linarith

/-- Finite numbers that are nearly equal differ by little. -/
theorem near_finite_of_nearlyEqual (h : (finite s m).nearlyEqual (finite t k) = true) :
    (finite s m).Near (finite t k) := by
  obtain ⟨near, most, hnear, hmost, hiff⟩ := exists_nearlyEqual_iff s t m k
  have hlarger : 0 ≤ |(finite s m).toRat| ⊔ |(finite t k).toRat| :=
    le_max_of_le_left (abs_nonneg _)
  obtain ⟨l, -, hl⟩ := exists_max s t m k
  have hfinite : most < infinityCode := by
    refine (hmost.mono (roundsTo_valueAt l.code_lt.le) ?_).trans_lt l.code_lt
    rw [hl, toRat_tolerance]
    exact mul_le_of_le_one_right hlarger (by norm_num)
  exact le_or_le_of_roundsTo hnear hmost hfinite (abs_nonneg _) hlarger (hiff.mp h)

end

/-! ### Infinities and not-a-number -/

theorem nearlyEqual_nan_left (y : Binary64) : nan.nearlyEqual y = false := by
  cases y <;> rfl

theorem nearlyEqual_nan_right (x : Binary64) : x.nearlyEqual nan = false := by
  cases x <;> rfl

theorem max_infinite (x : Binary64) :
    (infinite false).max x.abs = infinite false ∧ x.abs.max (infinite false) = infinite false := by
  cases x with
  | nan => exact ⟨rfl, rfl⟩
  | infinite t => exact ⟨rfl, rfl⟩
  | finite t k =>
    have hlt : (k.code : ℤ) < infinityCode := by exact_mod_cast k.code_lt
    have hle : (finite false k).le (infinite false) = true := (le_iff rfl rfl).mpr hlt.le
    have hnot : ¬ (infinite false).le (finite false k) = true := fun h =>
      hlt.not_ge ((le_iff rfl rfl).mp h)
    exact ⟨by rw [abs, max, if_neg nofun, if_neg hnot], by rw [abs, max, if_neg nofun, if_pos hle]⟩

/-- An infinity is nearly equal to every number, of either sign, for a part of it is an infinity. -/
theorem nearlyEqual_infinite (s : Bool) {x : Binary64} (hx : x ≠ nan) :
    (infinite s).nearlyEqual x = true ∧ x.nearlyEqual (infinite s) = true := by
  have hpart : (infinite false).le ((infinite false).mul tolerance) = true := by decide +kernel
  obtain ⟨hleft, hright⟩ := max_infinite x
  cases x with
  | nan => exact absurd rfl hx
  | infinite t => cases s <;> cases t <;> decide +kernel
  | finite t k =>
    simp only [nearlyEqual, distance, Bool.or_eq_true]
    constructor
    · right
      rw [show (infinite s).abs = infinite false from rfl, hleft]
      exact hpart
    · right
      rw [show (infinite s).abs = infinite false from rfl, hright]
      exact hpart

/-- Numbers that are nearly equal are near. -/
theorem near_of_nearlyEqual {x y : Binary64} (h : x.nearlyEqual y = true) : x.Near y := by
  cases x with
  | nan =>
    rw [nearlyEqual_nan_left] at h
    cases h
  | infinite s =>
    cases y with
    | nan =>
      rw [nearlyEqual_nan_right] at h
      cases h
    | _ => trivial
  | finite s m =>
    cases y with
    | nan =>
      rw [nearlyEqual_nan_right] at h
      cases h
    | infinite t => trivial
    | finite t k => exact near_finite_of_nearlyEqual h

end JsonDoc.Binary64

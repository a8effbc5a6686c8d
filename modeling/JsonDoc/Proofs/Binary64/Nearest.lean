import Mathlib.Tactic
import JsonDoc.Binary64.Rounding

/-!
# The nearest magnitude

`RoundsTo x code` says that the magnitude with a number is the nearest to `x`, of two that are
equally near the even one.  It is stated against every other magnitude, up to `2 ^ 1024`, which
stands for all that is too large to be finite.

`RoundsAtMost x code` cuts the line at the midpoint after one magnitude, and `roundsTo_iff` puts the
nearest magnitude between two such cuts.  From that `isNearest_nearest` follows: what
`Binary64.nearest` computes with whole numbers is the nearest number.
-/

namespace JsonDoc

/-- The value of the magnitude with a number, for the first that is not finite `2 ^ 1024`. -/
def valueAt (code : ℕ) : ℚ := unitsAt code / unitsPerOne

/-- Halfway from the magnitude with a number to the next. -/
def midpointAt (code : ℕ) : ℚ := (valueAt code + valueAt (code + 1)) / 2

/-- The magnitude with one number is nearer to `x` than that with another, or as near and even. -/
def IsNearer (x : ℚ) (code other : ℕ) : Prop :=
  |x - valueAt code| < |x - valueAt other| ∨
    |x - valueAt code| = |x - valueAt other| ∧ Even code

/-- The magnitude with a number is nearer to `x` than every other, or as near and the even one. -/
def RoundsTo (x : ℚ) (code : ℕ) : Prop :=
  code ≤ infinityCode ∧ ∀ other ≤ infinityCode, other ≠ code → IsNearer x code other

/-- What `x` is rounded to is at most the magnitude with a number: `x` is below the midpoint after
it, or is that midpoint, which belongs to an even number. -/
def RoundsAtMost (x : ℚ) (code : ℕ) : Prop :=
  x < midpointAt code ∨ x = midpointAt code ∧ Even code

/-- No midpoint lies between two values: they are rounded alike. -/
def RoundAlike (x y : ℚ) : Prop :=
  ∀ code < infinityCode, RoundsAtMost x code ↔ RoundsAtMost y code

theorem RoundAlike.refl (x : ℚ) : RoundAlike x x := fun _ _ => Iff.rfl

/-! ### Midpoints -/

theorem unitsPerOne_pos : (0 : ℚ) < unitsPerOne := by
  have : 0 < unitsPerOne := by rw [unitsPerOne, Nat.shiftLeft_eq]; positivity
  exact_mod_cast this

theorem valueAt_lt_valueAt {a b : ℕ} (h : a < b) : valueAt a < valueAt b := by
  have : (unitsAt a : ℚ) < unitsAt b := by exact_mod_cast unitsAt_lt_unitsAt h
  exact div_lt_div_of_pos_right this unitsPerOne_pos

theorem valueAt_le_valueAt {a b : ℕ} (h : a ≤ b) : valueAt a ≤ valueAt b := by
  rcases h.eq_or_lt with rfl | h
  · exact le_rfl
  · exact (valueAt_lt_valueAt h).le

theorem midpointAt_lt_midpointAt {a b : ℕ} (h : a < b) : midpointAt a < midpointAt b := by
  have h₁ := valueAt_lt_valueAt h
  have h₂ := valueAt_lt_valueAt (Nat.succ_lt_succ h)
  unfold midpointAt
  linarith

theorem RoundsAtMost.mono {x : ℚ} {a b : ℕ} (h : RoundsAtMost x a) (hab : a ≤ b) :
    RoundsAtMost x b := by
  rcases hab.eq_or_lt with rfl | hab
  · exact h
  · have := midpointAt_lt_midpointAt hab
    rcases h with h | ⟨h, -⟩ <;> left <;> linarith

section Distance

variable {a b x : ℚ}

theorem abs_sub_lower_lt_iff (h : a < b) : |x - a| < |x - b| ↔ 2 * x < a + b := by
  constructor
  · intro hx
    rcases abs_cases (x - a) with ⟨h₁, h₂⟩ | ⟨h₁, h₂⟩ <;>
      rcases abs_cases (x - b) with ⟨h₃, h₄⟩ | ⟨h₃, h₄⟩ <;> linarith
  · intro hx
    rw [abs_of_neg (by linarith : x - b < 0)]
    exact abs_lt.mpr ⟨by linarith, by linarith⟩

theorem abs_sub_upper_lt_iff (h : a < b) : |x - b| < |x - a| ↔ a + b < 2 * x := by
  constructor
  · intro hx
    rcases abs_cases (x - a) with ⟨h₁, h₂⟩ | ⟨h₁, h₂⟩ <;>
      rcases abs_cases (x - b) with ⟨h₃, h₄⟩ | ⟨h₃, h₄⟩ <;> linarith
  · intro hx
    rw [abs_of_pos (by linarith : 0 < x - a)]
    exact abs_lt.mpr ⟨by linarith, by linarith⟩

theorem abs_sub_eq_iff (h : a < b) : |x - a| = |x - b| ↔ 2 * x = a + b := by
  have hl := abs_sub_lower_lt_iff (x := x) h
  have hu := abs_sub_upper_lt_iff (x := x) h
  constructor
  · intro hx
    rw [hx, lt_self_iff_false, false_iff] at hl
    rw [hx, lt_self_iff_false, false_iff] at hu
    linarith
  · intro hx
    by_contra hne
    rcases lt_or_gt_of_ne hne with h' | h'
    · linarith [hl.mp h']
    · linarith [hu.mp h']

end Distance

/-! ### The nearest magnitude between two cuts -/

theorem isNearer_succ_iff {x : ℚ} {code : ℕ} :
    IsNearer x code (code + 1) ↔ RoundsAtMost x code := by
  have hv := valueAt_lt_valueAt code.lt_succ_self
  unfold IsNearer RoundsAtMost midpointAt
  rw [abs_sub_lower_lt_iff hv, abs_sub_eq_iff hv, lt_div_iff₀' two_pos, eq_div_iff two_ne_zero,
    mul_comm x]

theorem isNearer_pred_iff {x : ℚ} {code : ℕ} :
    IsNearer x (code + 1) code ↔ ¬ RoundsAtMost x code := by
  have hv := valueAt_lt_valueAt code.lt_succ_self
  unfold IsNearer RoundsAtMost midpointAt
  rw [abs_sub_upper_lt_iff hv, eq_comm, abs_sub_eq_iff hv, lt_div_iff₀' two_pos,
    eq_div_iff two_ne_zero, mul_comm x, Nat.even_add_one]
  constructor
  · rintro (h | ⟨h, he⟩) (h' | ⟨h', he'⟩)
    · linarith
    · linarith
    · linarith
    · exact he he'
  · intro h
    push Not at h
    rcases h.1.lt_or_eq with h' | h'
    · exact Or.inl h'
    · exact Or.inr ⟨h'.symm, h.2 h'.symm⟩

/-- What is nearer than its upper neighbour is nearer than all that is larger. -/
theorem isNearer_of_lt {x : ℚ} {code other : ℕ} (h : RoundsAtMost x code) (hlt : code < other) :
    IsNearer x code other := by
  have hv := valueAt_lt_valueAt hlt
  have hm : valueAt (code + 1) ≤ valueAt other := valueAt_le_valueAt hlt
  unfold IsNearer
  rw [abs_sub_lower_lt_iff hv, abs_sub_eq_iff hv]
  unfold RoundsAtMost midpointAt at h
  rcases h with h | ⟨h, he⟩
  · left
    linarith
  · rcases hm.eq_or_lt with hm | hm
    · right
      exact ⟨by linarith, he⟩
    · left
      linarith

/-- What is nearer than its lower neighbour is nearer than all that is smaller. -/
theorem isNearer_of_le {x : ℚ} {code other : ℕ} (h : ¬ RoundsAtMost x code) (hle : other ≤ code) :
    IsNearer x (code + 1) other := by
  have hv := valueAt_lt_valueAt (Nat.lt_succ_of_le hle)
  have hm := valueAt_le_valueAt hle
  unfold IsNearer
  rw [abs_sub_upper_lt_iff hv, eq_comm, abs_sub_eq_iff hv]
  unfold RoundsAtMost midpointAt at h
  push Not at h
  rcases h.1.eq_or_lt with heq | hlt
  · rcases hm.eq_or_lt with hm | hm
    · right
      exact ⟨by linarith, Nat.even_add_one.mpr (h.2 heq.symm)⟩
    · left
      linarith
  · left
    linarith

/-- The nearest magnitude lies between two cuts: `x` is rounded to at most a magnitude iff that one
is at least the nearest. -/
theorem roundsTo_iff {x : ℚ} {code : ℕ} :
    RoundsTo x code ↔ code ≤ infinityCode ∧ ∀ b < infinityCode, RoundsAtMost x b ↔ code ≤ b := by
  constructor
  · rintro ⟨hcode, h⟩
    refine ⟨hcode, fun b hb => ⟨fun hx => ?_, fun hle => ?_⟩⟩
    · by_contra hlt
      obtain ⟨c, rfl⟩ : ∃ c, code = c + 1 := ⟨code - 1, by omega⟩
      exact isNearer_pred_iff.mp (h c (by omega) (by omega)) (hx.mono (by omega))
    · exact (isNearer_succ_iff.mp (h (code + 1) (by omega) (by omega))).mono hle
  · rintro ⟨hcode, h⟩
    refine ⟨hcode, fun other ho hne => ?_⟩
    rcases lt_or_gt_of_ne hne with hlt | hgt
    · obtain ⟨c, rfl⟩ : ∃ c, code = c + 1 := ⟨code - 1, by omega⟩
      exact isNearer_of_le (by rw [h c (by omega)]; omega) (by omega)
    · exact isNearer_of_lt ((h code (by omega)).mpr le_rfl) hgt

/-- There is one nearest magnitude only. -/
theorem RoundsTo.unique {x : ℚ} {a b : ℕ} (ha : RoundsTo x a) (hb : RoundsTo x b) : a = b := by
  rw [roundsTo_iff] at ha hb
  by_contra hne
  rcases lt_or_gt_of_ne hne with h | h
  · have := (hb.2 a (by omega)).mp ((ha.2 a (by omega)).mpr le_rfl)
    omega
  · have := (ha.2 b (by omega)).mp ((hb.2 b (by omega)).mpr le_rfl)
    omega

/-- Two values have one nearest magnitude iff no midpoint lies between them. -/
theorem RoundsTo.eq_iff {x y : ℚ} {a b : ℕ} (ha : RoundsTo x a) (hb : RoundsTo y b) :
    a = b ↔ RoundAlike x y := by
  constructor
  · rintro rfl c hc
    rw [(roundsTo_iff.mp ha).2 c hc, (roundsTo_iff.mp hb).2 c hc]
  · intro h
    refine ha.unique (roundsTo_iff.mpr ⟨hb.1, fun c hc => ?_⟩)
    rw [h c hc, (roundsTo_iff.mp hb).2 c hc]

theorem RoundAlike.roundsTo_iff {x y : ℚ} (h : RoundAlike x y) {code : ℕ} :
    RoundsTo x code ↔ RoundsTo y code := by
  rw [JsonDoc.roundsTo_iff, JsonDoc.roundsTo_iff]
  refine and_congr_right fun _ => forall₂_congr fun c hc => ?_
  rw [h c hc]

/-! ### What is computed -/

/-- A cut in whole numbers, for `n / d` units. -/
theorem roundsAtMost_div_iff {n d : ℕ} (hd : 0 < d) (code : ℕ) :
    RoundsAtMost (n / (d * unitsPerOne)) code ↔
      2 * n < (unitsAt code + unitsAt (code + 1)) * d ∨
        2 * n = (unitsAt code + unitsAt (code + 1)) * d ∧ Even code := by
  have hd' : (0 : ℚ) < d := by exact_mod_cast hd
  have hu := unitsPerOne_pos
  unfold RoundsAtMost midpointAt valueAt
  generalize unitsPerOne = one at *
  have hx : (n : ℚ) / (d * one) * (2 * (d * one)) = (2 * n : ℕ) := by
    push_cast
    field_simp
  have hm : ((unitsAt code : ℚ) / one + unitsAt (code + 1) / one) / 2 * (2 * (d * one)) =
      ((unitsAt code + unitsAt (code + 1)) * d : ℕ) := by
    push_cast
    field_simp
  have hp : (0 : ℚ) < 2 * (d * one) := by positivity
  rw [← mul_lt_mul_iff_left₀ hp, ← mul_left_inj' hp.ne', hx, hm]
  norm_cast

/-- The rounded quotient is nearer than its neighbours, or as near and even. -/
theorem roundHalfEven_spec (n : ℕ) {d : ℕ} (hd : 0 < d) :
    (2 * n < (2 * roundHalfEven n d + 1) * d ∨
      2 * n = (2 * roundHalfEven n d + 1) * d ∧ Even (roundHalfEven n d)) ∧
    (2 * roundHalfEven n d * d < 2 * n + d ∨
      2 * roundHalfEven n d * d = 2 * n + d ∧ Even (roundHalfEven n d)) := by
  have h := Nat.div_add_mod n d
  have hm := Nat.mod_lt n hd
  unfold roundHalfEven
  generalize n / d = q at *
  generalize n % d = r at *
  subst h
  split
  · constructor <;> left <;> nlinarith
  · split
    · constructor <;> left <;> nlinarith
    · rcases Nat.even_or_odd q with he | ho
      · rw [Nat.even_iff.mp he, add_zero]
        refine ⟨Or.inr ⟨?_, he⟩, Or.inl ?_⟩ <;> nlinarith
      · rw [Nat.odd_iff.mp ho]
        refine ⟨Or.inl ?_, Or.inr ⟨?_, ho.add_one⟩⟩ <;> nlinarith

/-- From a power of two up to the next the magnitudes are whole numbers of steps. -/
theorem unitsAt_of_steps {doublings steps : ℕ} (hle : steps ≤ 2 * stride)
    (hge : stride ≤ steps ∨ doublings = 0) :
    unitsAt (stride * doublings + steps) = steps * 2 ^ doublings := by
  unfold unitsAt
  have hs : 0 < stride := by decide
  generalize stride = stride at *
  rcases Nat.lt_or_ge steps stride with h | h
  · obtain rfl : doublings = 0 := by omega
    rw [if_pos (by omega)]
    simp
  · rw [if_neg (by nlinarith [Nat.zero_le (stride * doublings)])]
    obtain ⟨k, rfl⟩ : ∃ k, steps = stride + k := ⟨steps - stride, by omega⟩
    have hc : stride * doublings + (stride + k) = stride * (doublings + 1) + k := by ring
    rw [hc, Nat.shiftLeft_eq]
    rcases hle.lt_or_eq with hlt | heq
    · rw [Nat.mul_add_mod, Nat.mul_add_div hs, Nat.mod_eq_of_lt (by omega),
        Nat.div_eq_of_lt (by omega)]
      rfl
    · obtain rfl : k = stride := by omega
      rw [Nat.mul_add_mod, Nat.mul_add_div hs, Nat.mod_self, Nat.div_self hs,
        show doublings + 1 + 1 - 1 = doublings + 1 by omega, pow_succ]
      ring

theorem even_steps_iff {doublings steps : ℕ} :
    Even (stride * doublings + steps) ↔ Even steps := by
  have hs : Even stride := by decide
  simp [Nat.even_add, hs.mul_right]

/-- A value between `2 ^ 52` steps and `2 ^ 53`, or below that where a step is one unit. -/
structure OnGrid (n d doublings : ℕ) : Prop where
  lt : n < 2 * stride * (d * 2 ^ doublings)
  ge : stride * (d * 2 ^ doublings) ≤ n ∨ doublings = 0

theorem onGrid_log2 (n : ℕ) {d : ℕ} (hd : 0 < d) : OnGrid n d ((n / d).log2 - 52) := by
  have hlo := Nat.div_mul_le_self n d
  have hhi : n < (n / d + 1) * d := by
    have := Nat.lt_div_mul_add (a := n) hd
    nlinarith
  generalize n / d = q at *
  have hlt : q < 2 ^ (q.log2 + 1) := Nat.lt_log2_self
  have hstride : stride = 2 ^ 52 := by decide
  constructor
  · have : q + 1 ≤ 2 * stride * 2 ^ (q.log2 - 52) := by
      rw [hstride, ← pow_succ', ← pow_add]
      exact hlt.trans_le (Nat.pow_le_pow_right two_pos (by omega))
    calc n < (q + 1) * d := hhi
      _ ≤ 2 * stride * 2 ^ (q.log2 - 52) * d := Nat.mul_le_mul_right d this
      _ = _ := by ring
  · rcases Nat.eq_zero_or_pos (q.log2 - 52) with h | h
    · exact Or.inr h
    · left
      have hq : q ≠ 0 := by
        rintro rfl
        simp at h
      have : stride * 2 ^ (q.log2 - 52) ≤ q := by
        rw [hstride, ← pow_add, show 52 + (q.log2 - 52) = q.log2 by omega]
        exact Nat.log2_self_le hq
      calc stride * (d * 2 ^ (q.log2 - 52)) = stride * 2 ^ (q.log2 - 52) * d := by ring
        _ ≤ q * d := Nat.mul_le_mul_right d this
        _ ≤ n := hlo

section Grid

variable {n d doublings : ℕ} (hd : 0 < d) (h : OnGrid n d doublings)

include hd h

theorem OnGrid.steps_le : roundHalfEven n (d * 2 ^ doublings) ≤ 2 * stride := by
  have hp : 0 < d * 2 ^ doublings := by positivity
  have hs := (roundHalfEven_bounds n hp).2
  have hlt := h.lt
  generalize roundHalfEven n (d * 2 ^ doublings) = s at *
  generalize d * 2 ^ doublings = p at *
  by_contra hgt
  nlinarith

theorem OnGrid.le_steps :
    stride ≤ roundHalfEven n (d * 2 ^ doublings) ∨ doublings = 0 := by
  have hp : 0 < d * 2 ^ doublings := by positivity
  have hs := (roundHalfEven_bounds n hp).1
  refine h.ge.imp_left fun hge => ?_
  generalize roundHalfEven n (d * 2 ^ doublings) = s at *
  generalize d * 2 ^ doublings = p at *
  by_contra hgt
  nlinarith

/-- The value is rounded to at most the magnitude of the steps it is rounded to. -/
theorem OnGrid.roundsAtMost : RoundsAtMost (n / (d * unitsPerOne))
    (stride * doublings + roundHalfEven n (d * 2 ^ doublings)) := by
  have hp : 0 < d * 2 ^ doublings := by positivity
  have hle := h.steps_le hd
  have hs := (roundHalfEven_spec n hp).1
  rw [roundsAtMost_div_iff hd, unitsAt_of_steps hle (h.le_steps hd), even_steps_iff]
  rcases hle.lt_or_eq with hlt | heq
  · rw [add_assoc, unitsAt_of_steps hlt ((h.le_steps hd).imp_left (by omega))]
    generalize roundHalfEven n (d * 2 ^ doublings) = s at *
    have : (s * 2 ^ doublings + (s + 1) * 2 ^ doublings) * d =
        (2 * s + 1) * (d * 2 ^ doublings) := by ring
    rw [this]
    exact hs
  · -- the next magnitude is two steps away, as the gap doubles here
    left
    have hstride : stride + 1 ≤ 2 * stride := by decide
    rw [heq, show stride * doublings + 2 * stride + 1 = stride * (doublings + 1) + (stride + 1) by
      ring, unitsAt_of_steps hstride (Or.inl (Nat.le_succ _)), pow_succ]
    have := h.lt
    generalize 2 ^ doublings = t at *
    nlinarith

/-- The value is not rounded to less than the magnitude of the steps it is rounded to. -/
theorem OnGrid.not_roundsAtMost {b : ℕ}
    (hb : b + 1 = stride * doublings + roundHalfEven n (d * 2 ^ doublings)) :
    ¬ RoundsAtMost (n / (d * unitsPerOne)) b := by
  have hp : 0 < d * 2 ^ doublings := by positivity
  have hle := h.steps_le hd
  have hge := h.le_steps hd
  have hs := (roundHalfEven_spec n hp).2
  have hn := h.ge
  rw [roundsAtMost_div_iff hd, hb, unitsAt_of_steps hle hge]
  generalize roundHalfEven n (d * 2 ^ doublings) = s at *
  by_cases hlow : stride < s ∨ doublings = 0
  · obtain ⟨s, rfl⟩ : ∃ r, s = r + 1 := by
      rcases Nat.eq_zero_or_pos s with rfl | hpos
      · have : 0 < stride := by decide
        obtain rfl : doublings = 0 := by omega
        omega
      · exact ⟨s - 1, by omega⟩
    obtain rfl : b = stride * doublings + s := by omega
    rw [unitsAt_of_steps (by omega) (hlow.imp_left (by omega)), even_steps_iff]
    have hm : (s * 2 ^ doublings + (s + 1) * 2 ^ doublings) * d + d * 2 ^ doublings =
        2 * (s + 1) * (d * 2 ^ doublings) := by ring
    rw [← hm, Nat.even_add_one] at hs
    generalize (s * 2 ^ doublings + (s + 1) * 2 ^ doublings) * d = m at *
    rintro (h' | ⟨h', he⟩)
    · omega
    · rcases hs with hs | ⟨-, hs⟩
      · omega
      · exact hs he
  · -- the magnitude before a power of two is half a step away
    obtain ⟨hsle, hd0⟩ := not_or.mp hlow
    obtain rfl : s = stride := by omega
    obtain ⟨k, rfl⟩ : ∃ k, doublings = k + 1 := ⟨doublings - 1, by omega⟩
    have hstride : 0 < stride := by decide
    obtain rfl : b = stride * k + (2 * stride - 1) := by
      rw [mul_add] at hb
      omega
    rw [unitsAt_of_steps (by omega) (Or.inl (by omega)), pow_succ]
    have hge' := hn.resolve_right hd0
    rw [pow_succ] at hge'
    have ht : 0 < 2 ^ k := by positivity
    have hm : ((2 * stride - 1) * 2 ^ k + stride * (2 ^ k * 2)) * d < 2 * n := by
      generalize 2 ^ k = t at *
      have : (2 * stride - 1) * t < 2 * stride * t :=
        Nat.mul_lt_mul_of_pos_right (by omega) ht
      nlinarith
    omega

end Grid

/-- The magnitude that is computed is the nearest one. -/
theorem roundsTo_nearest? (n : ℕ) {d : ℕ} (hd : 0 < d) :
    RoundsTo (n / (d * unitsPerOne))
      (((Magnitude.nearest? n d).map Magnitude.code).getD infinityCode) := by
  have hg := onGrid_log2 n hd
  have hiff : ∀ b, RoundsAtMost (n / (d * unitsPerOne)) b ↔ stride * ((n / d).log2 - 52) +
      roundHalfEven n (d * 2 ^ ((n / d).log2 - 52)) ≤ b := by
    intro b
    refine ⟨fun hb => ?_, fun hle => (hg.roundsAtMost hd).mono hle⟩
    by_contra hlt
    exact hg.not_roundsAtMost hd (Nat.sub_add_cancel (by omega)) (hb.mono (by omega))
  rw [roundsTo_iff]
  simp only [Magnitude.nearest?, Nat.shiftLeft_eq]
  split
  case isTrue h =>
    simp only [Option.map_some, Option.getD_some]
    exact ⟨h.le, fun b _ => hiff b⟩
  case isFalse h =>
    simp only [Option.map_none, Option.getD_none]
    refine ⟨le_rfl, fun b hb => ?_⟩
    rw [hiff b]
    omega

namespace Binary64

/-- A number is the nearest to `x` with a sign, or the infinity where the nearest is not finite. -/
def IsNearest (negative : Bool) (x : ℚ) : Binary64 → Prop
  | nan => False
  | infinite s => s = negative ∧ RoundsTo x infinityCode
  | finite s m => s = negative ∧ RoundsTo x m.code

theorem isNearest_finite_iff {negative s : Bool} {x : ℚ} {m : Magnitude} :
    IsNearest negative x (finite s m) ↔ s = negative ∧ RoundsTo x m.code := Iff.rfl

theorem isNearest_infinite_iff {negative s : Bool} {x : ℚ} :
    IsNearest negative x (infinite s) ↔ s = negative ∧ RoundsTo x infinityCode := Iff.rfl

theorem isNearest_nearest (negative : Bool) (n : ℕ) {d : ℕ} (hd : 0 < d) :
    IsNearest negative (n / (d * unitsPerOne)) (nearest negative n d) := by
  have h := roundsTo_nearest? n hd
  unfold nearest
  cases hn : Magnitude.nearest? n d with
  | some m =>
    rw [hn] at h
    exact isNearest_finite_iff.mpr ⟨rfl, h⟩
  | none =>
    rw [hn] at h
    exact isNearest_infinite_iff.mpr ⟨rfl, h⟩

theorem IsNearest.congr {negative : Bool} {x y : ℚ} {f : Binary64} (hx : IsNearest negative x f)
    (h : RoundAlike x y) : IsNearest negative y f := by
  cases f with
  | nan => exact hx
  | infinite s => exact ⟨hx.1, h.roundsTo_iff.mp hx.2⟩
  | finite s m => exact ⟨hx.1, h.roundsTo_iff.mp hx.2⟩

/-- One number is the nearest to two values only if they are rounded alike. -/
theorem IsNearest.roundAlike {negative : Bool} {x y : ℚ} {f : Binary64}
    (hx : IsNearest negative x f) (hy : IsNearest negative y f) : RoundAlike x y := by
  cases f with
  | nan => exact absurd hx id
  | infinite s => exact (hx.2.eq_iff hy.2).mp rfl
  | finite s m => exact (hx.2.eq_iff hy.2).mp rfl

/-- What is below the last midpoint is rounded to a finite number. -/
theorem IsNearest.isFinite {negative : Bool} {x : ℚ} {f : Binary64} (h : IsNearest negative x f)
    (hx : x < midpointAt (infinityCode - 1)) : f.isFinite := by
  cases f with
  | nan => exact absurd h id
  | infinite s =>
    have hlast : infinityCode - 1 < infinityCode := by decide
    have hle := ((roundsTo_iff.mp h.2).2 _ hlast).mp (Or.inl hx)
    exact absurd hlast (not_lt.mpr hle)
  | finite s m => rfl

theorem IsNearest.unique {negative : Bool} {x : ℚ} {f g : Binary64} (hf : IsNearest negative x f)
    (hg : IsNearest negative x g) : f = g := by
  cases f with
  | nan => exact absurd hf id
  | infinite s =>
    cases g with
    | nan => exact absurd hg id
    | infinite t => rw [hf.1, hg.1]
    | finite t m => exact absurd (hg.2.unique hf.2) m.code_lt.ne
  | finite s m =>
    cases g with
    | nan => exact absurd hg id
    | infinite t => exact absurd (hf.2.unique hg.2) m.code_lt.ne
    | finite t k =>
      obtain ⟨a, ha⟩ := m
      obtain ⟨b, hb⟩ := k
      obtain rfl : a = b := hf.2.unique hg.2
      rw [hf.1, hg.1]

end Binary64

end JsonDoc

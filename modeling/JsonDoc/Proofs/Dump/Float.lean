import Mathlib.Data.Int.Log
import JsonDoc.Dump.Basic
import JsonDoc.Proofs.Binary64.Tolerance
import JsonDoc.Proofs.Dump.Number
import JsonDoc.Proofs.Dump.Reread

/-!
# What the text of a floating point number denotes

A floating point number is written as the decimal that it is rounded to, with as many significant
digits as asked for (`RoundsToDigits`).  Only where that decimal would be read as an infinity, the
digits of the number are cut off instead.  The notation depends on the decimal that is written, and
so on what rounding may have carried it to (`Dump.WritesRounded`).
-/

namespace JsonDoc

/-! ### Rounding to significant digits -/

/-- The unit of the last of so many significant digits of a number. -/
def lastPlace (count : ℕ) (x : ℚ) : ℚ := 10 ^ (Int.log 10 x + 1 - count)

/-- The number is the multiple of the unit of the last digit that is nearest to `x`, an even one if
another is as near. -/
def RoundsToDigits (count : ℕ) (x r : ℚ) : Prop :=
  ∃ k : ℕ, RoundsToWhole (x / lastPlace count x) k ∧ r = k * lastPlace count x

theorem lastPlace_pos (count : ℕ) (x : ℚ) : 0 < lastPlace count x := zpow_pos (by norm_num) _

theorem RoundsToDigits.abs_sub_le {count : ℕ} {x r : ℚ} (h : RoundsToDigits count x r) :
    |r - x| ≤ lastPlace count x / 2 := by
  obtain ⟨k, hk, rfl⟩ := h
  have hpos := lastPlace_pos count x
  have hsteps : k * lastPlace count x - x =
      (k - x / lastPlace count x) * lastPlace count x := by
    rw [sub_mul, div_mul_cancel₀ _ hpos.ne']
  calc |k * lastPlace count x - x|
      = |x / lastPlace count x - k| * lastPlace count x := by
        rw [hsteps, abs_mul, abs_of_pos hpos, abs_sub_comm]
    _ ≤ 1 / 2 * lastPlace count x := mul_le_mul_of_nonneg_right hk.1 hpos.le
    _ = lastPlace count x / 2 := by ring

/-- What is a multiple of the unit is rounded to itself. -/
theorem RoundsToDigits.eq_self {count : ℕ} {x r : ℚ} (h : RoundsToDigits count x r) {n : ℕ}
    (hn : x = n * lastPlace count x) : r = x := by
  obtain ⟨k, hk, rfl⟩ := h
  have hdiv : x / lastPlace count x = n := by
    rw [div_eq_iff (lastPlace_pos count x).ne']
    exact hn
  have hself : RoundsToWhole n n := by
    refine RoundsToWhole.of_abs_sub_lt ?_
    rw [sub_self, abs_zero]
    norm_num
  rw [hdiv] at hk
  rw [hk.unique hself]
  exact hn.symm

namespace Magnitude

variable {m : Magnitude} {count : ℕ}

theorem log_valueAt (hm : m.code ≠ 0) : Int.log 10 (valueAt m.code) = m.leadingExponent := by
  obtain ⟨hlow, hhigh⟩ := leadingExponent_bounds hm
  have hpos := valueAt_pos hm
  have hle := (Int.zpow_le_iff_le_log (b := 10) (by decide) hpos).mp (by exact_mod_cast hlow)
  have hlt := (Int.lt_zpow_iff_log_lt (b := 10) (by decide) hpos).mp (by exact_mod_cast hhigh)
  omega

theorem lastPlace_valueAt (hm : m.code ≠ 0) (count : ℕ) :
    lastPlace count (valueAt m.code) = 10 ^ (m.leadingExponent + 1 - count) := by
  rw [lastPlace, log_valueAt hm]

/-- The digits of a magnitude are its value, rounded to so many of them. -/
theorem roundsToDigits_significant (hm : m.code ≠ 0) (hpos : 0 < count) :
    RoundsToDigits count (valueAt m.code) ((m.significant count).value count) := by
  refine ⟨m.steps count, ?_, ?_⟩
  · rw [lastPlace_valueAt hm, div_eq_mul_inv, ← zpow_neg, neg_sub, ← sub_sub, sub_right_comm]
    exact m.roundsToWhole_steps count
  · rw [lastPlace_valueAt hm, value_significant hpos]

/-- Digits are cut off iff those that are rounded would be read as an infinity. -/
theorem overflows_significant_iff (hm : m.code ≠ 0) (hpos : 0 < count)
    (hcount : count ≤ mostPrecision) :
    (m.significant count).overflows count = true ↔
      midpointAt (infinityCode - 1) ≤ (m.significant count).value count := by
  obtain ⟨hlow, hhigh⟩ := significant_coefficient hm hpos
  refine ⟨Significant.midpointAt_le_value_of_overflows hlow hpos hcount, fun hle => ?_⟩
  by_contra hover
  have hvalue := Significant.value_le_of_not_overflows hhigh hcount (Bool.eq_false_iff.mpr hover)
  exact absurd (hle.trans hvalue) (not_le.mpr largestWritten_lt_midpointAt)

/-- What is left of digits that are cut off is less than all of them by less than a unit of the last
that is left. -/
theorem value_written_of_overflows (hm : m.code ≠ 0) (hpos : 0 < count)
    (hcount : count ≤ mostPrecision) (hover : (m.significant count).overflows count = true) :
    (m.written count).value count ≤ (m.significant mostPrecision).value mostPrecision ∧
      (m.significant mostPrecision).value mostPrecision - (m.written count).value count <
        lastPlace count (valueAt m.code) := by
  have hwritten : m.written count = ⟨(m.significant mostPrecision).coefficient /
      10 ^ (mostPrecision - count), (m.significant mostPrecision).exponent⟩ := by
    rw [written]
    dsimp only
    rw [if_pos hover, tenPow_eq]
  obtain ⟨hleading, hexp⟩ := leadingExponent_of_overflows hm hpos hcount hover
  have hcut := (m.significant mostPrecision).value_cut_le count (mostPrecision - count)
  have hsub := (m.significant mostPrecision).value_sub_cut_lt count (mostPrecision - count)
  rw [Nat.add_sub_cancel' hcount] at hcut hsub
  rw [lastPlace_valueAt hm, hwritten, hleading, ← hexp]
  exact ⟨hcut, hsub⟩

end Magnitude

namespace Dump

/-! ### Literals -/

/-- The literal is what a number with this absolute value, not zero, is written as: the value
rounded to a count of digits or, where that would be read as an infinity, its digits cut off. -/
structure WritesRounded (count : ℕ) (v : ℚ) (l : NumberLiteral) : Prop where
  exists_digits : ∃ (k : ℕ) (e : ℤ), k < 10 ^ count ∧ l.magnitude = k * 10 ^ e
  exists_rounded : ∃ rounded full, RoundsToDigits count v rounded ∧
    RoundsToDigits mostPrecision v full ∧
    (rounded < 2 ^ 1024 - 2 ^ 970 →
      l.magnitude = rounded ∧ |l.magnitude - v| ≤ lastPlace count v / 2) ∧
    (2 ^ 1024 - 2 ^ 970 ≤ rounded →
      l.magnitude ≤ full ∧ full - l.magnitude < lastPlace count v ∧
        l.magnitude < 2 ^ 1024 - 2 ^ 970)
  exponent_iff : l.exponent.isSome ↔ 10 ^ 9 ≤ l.magnitude ∨ l.magnitude < 10 ^ (-6 : ℤ)
  isTidy : IsTidy l

variable {negative : Bool} {m : Magnitude} {count : ℕ} {l : NumberLiteral}

theorem WritesMagnitude.writesRounded (h : WritesMagnitude negative m count l) (hm : m.code ≠ 0)
    (hpos : 0 < count) (hcount : count ≤ mostPrecision) :
    WritesRounded count (valueAt m.code) l where
  exists_digits := by
    have hwritten := Magnitude.isWritten_written hm hpos hcount
    exact ⟨_, _, hwritten.coefficient_lt_pow, h.magnitude_eq⟩
  exists_rounded := by
    have hrounded := Magnitude.roundsToDigits_significant hm hpos
    have hfull := @Magnitude.roundsToDigits_significant m mostPrecision hm (by decide)
    have hover := Magnitude.overflows_significant_iff hm hpos hcount
    rw [midpointAt_last] at hover
    refine ⟨_, _, hrounded, hfull, fun hlt => ?_, fun hle => ?_⟩
    · have hmagnitude := h.magnitude_eq
      rw [Magnitude.written_of_not_overflows (mt hover.mp (not_le.mpr hlt))] at hmagnitude
      rw [hmagnitude]
      exact ⟨rfl, hrounded.abs_sub_le⟩
    · obtain ⟨hcut, hsub⟩ := Magnitude.value_written_of_overflows hm hpos hcount (hover.mpr hle)
      rw [← h.magnitude_eq] at hcut hsub
      exact ⟨hcut, hsub, midpointAt_last ▸ h.magnitude_lt hm hpos hcount⟩
  exponent_iff := h.exponent_iff
  isTidy := h.isTidy

end Dump

/-- A number by itself is written to a count of digits that is possible. -/
theorem Value.toList_dumpWith_float (o : DumpOptions) (x : Binary64) :
    ((float x).dumpWith o).toList =
      (Dump.floatPieces (o.withPrecision o.precision).precision x).flatten := by
  rw [dumpWith, String.toList_ofList, documentRuns, text_runs_float]
  exact List.append_nil _

/-- Wherever a finite number other than zero stands in a document, it is written, to any count of
digits or the nearest that is possible, as a literal of its sign for the value that it is rounded
to. -/
theorem Value.exists_writesRounded_float (o : DumpOptions) (negative : Bool) {m : Magnitude}
    (hm : m.code ≠ 0) :
    ∃ l : NumberLiteral,
      (∀ depth rest, Run.text ((float (.finite negative m)).runs (o.withPrecision o.precision)
        depth rest) = l.text ++ Run.text rest) ∧
      ((float (.finite negative m)).dumpWith o).toList = l.text ∧
      l.negative = negative ∧
      Dump.WritesRounded (max 1 (min o.precision 17)) |(Binary64.finite negative m).toRat| l := by
  have hpos : 0 < max 1 (min o.precision 17) := by omega
  have hcount : max 1 (min o.precision 17) ≤ mostPrecision := by
    rw [mostPrecision]
    omega
  obtain ⟨l, hl⟩ := Dump.exists_writesMagnitude negative hm hpos hcount
  refine ⟨l, fun depth rest => ?_, ?_, hl.negative_eq, ?_⟩
  · rw [text_runs_float, hl.text_eq]
    rfl
  · rw [toList_dumpWith_float, hl.text_eq]
    rfl
  · rw [Binary64.abs_toRat]
    exact hl.writesRounded hm hpos hcount

/-- The largest magnitude, which sixteen digits would round to an infinity. -/
def Magnitude.largest : Magnitude := ⟨infinityCode - 1, by decide⟩

theorem Value.writesRounded_largest :
    ∃ l : NumberLiteral, l.text = "-1.797693134862315e+308".toList ∧ l.negative = true ∧
      Dump.WritesRounded 16 |(Binary64.finite true .largest).toRat| l := by
  have htext : ((float (.finite true .largest)).dumpWith .compact).toList =
      "-1.797693134862315e+308".toList := by decide +kernel
  obtain ⟨l, -, hl, hnegative, hrounded⟩ :=
    exists_writesRounded_float .compact true (m := .largest) (by decide)
  exact ⟨l, hl.symm.trans htext, hnegative, hrounded⟩

end JsonDoc

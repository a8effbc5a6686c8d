import JsonDoc.Proofs.Token.Rounding

/-!
# What a numeral tells of its digits

The digits of a number denote a value between the mantissa of their numeral and the next mantissa,
both scaled by the power of ten of the numeral.  It is the lower one of them iff no digit but zeros
was left out, and where a digit was left out, the mantissa has at least nineteen
(`Numeral.brackets_foldDigits`).
-/

namespace JsonDoc

namespace Numeral

/-- The value of the digits before the point and of those behind it. -/
def valueOfDigits (cs ds : List Char) : ℚ :=
  Nat.ofDigitChars 10 cs 0 + Nat.ofDigitChars 10 ds 0 / 10 ^ ds.length

/-- The numeral keeps a value to the precision of its mantissa, which is that of nineteen digits if
it could not take a digit. -/
structure Brackets (n : Numeral) (x : ℚ) : Prop where
  mantissa_le : n.mantissa.toNat * 10 ^ n.exponent.toInt ≤ x
  lt_mantissa_succ : x < (n.mantissa.toNat + 1) * 10 ^ n.exponent.toInt
  eq_mantissa_iff : x = n.mantissa.toNat * 10 ^ n.exponent.toInt ↔ n.truncated = false
  mantissa_eq_zero_iff : n.mantissa.toNat = 0 ↔ x = 0
  full : n.overflowed = true →
    1844674407370955161 ≤ n.mantissa.toNat ∧ 19 ≤ decimalLength n.mantissa.toNat

variable {n : Numeral} {whole dropped places : ℕ}

/-- A mantissa that could not take a digit is at least a tenth of what does not fit. -/
theorem Keeps.le_mantissa (h : n.Keeps whole dropped) (hpos : 0 < dropped) :
    UInt64.size / 10 ≤ n.mantissa.toNat := by
  obtain ⟨k, rfl⟩ : ∃ k, dropped = k + 1 := ⟨dropped - 1, by omega⟩
  have hfull := h.full hpos
  rw [Nat.add_sub_cancel] at hfull
  rw [h.mantissa_eq, pow_succ, ← Nat.div_div_eq_div_mul]
  exact Nat.div_le_div_right hfull

/-- What a numeral keeps of a whole number brackets it, at any place. -/
theorem Keeps.brackets (h : n.Keeps whole dropped) (hexp : n.exponent.toInt = dropped - places) :
    n.Brackets (whole / 10 ^ places) := by
  obtain ⟨unit, hunit, hvalue, hscale⟩ : ∃ unit : ℚ, 0 < unit ∧
      whole / 10 ^ places = whole * unit ∧ 10 ^ n.exponent.toInt = 10 ^ dropped * unit := by
    refine ⟨(10 ^ places)⁻¹, by positivity, div_eq_mul_inv _ _, ?_⟩
    rw [hexp, zpow_sub₀ (by norm_num), zpow_natCast, zpow_natCast, div_eq_mul_inv]
  have hlow : n.mantissa.toNat * 10 ^ dropped ≤ whole := by
    rw [h.mantissa_eq]
    exact Nat.div_mul_le_self _ _
  have hhigh : whole < (n.mantissa.toNat + 1) * 10 ^ dropped := by
    rw [h.mantissa_eq]
    exact Nat.lt_mul_of_div_lt (Nat.lt_succ_self _) (by positivity)
  have hexact : whole = n.mantissa.toNat * 10 ^ dropped ↔ n.truncated = false := by
    rw [← Bool.not_eq_true, h.truncated_iff, not_not, h.mantissa_eq, Nat.dvd_iff_div_mul_eq,
      eq_comm]
  rw [hvalue]
  constructor
  case mantissa_le =>
    rw [hscale, ← mul_assoc]
    exact mul_le_mul_of_nonneg_right (by exact_mod_cast hlow) hunit.le
  case lt_mantissa_succ =>
    rw [hscale, ← mul_assoc]
    exact mul_lt_mul_of_pos_right (by exact_mod_cast hhigh) hunit
  case eq_mantissa_iff =>
    rw [hscale, ← mul_assoc, mul_left_inj' hunit.ne', ← hexact]
    exact_mod_cast Iff.rfl
  case mantissa_eq_zero_iff =>
    rw [mul_eq_zero, or_iff_left hunit.ne', Nat.cast_eq_zero]
    constructor
    · intro hm
      rw [h.dropped_eq_zero hm, pow_zero] at hhigh
      omega
    · rintro rfl
      rw [h.mantissa_eq, Nat.zero_div]
  case full =>
    intro hover
    have hm : 1844674407370955161 ≤ n.mantissa.toNat := h.le_mantissa (h.overflowed_iff.mp hover)
    have hlength : ¬ decimalLength n.mantissa.toNat ≤ 18 := by
      rw [decimalLength_le_iff (by decide)]
      omega
    exact ⟨hm, by omega⟩

variable {negative : Bool} {cs ds : List Char}

theorem valueOfDigits_eq (cs ds : List Char) :
    valueOfDigits cs ds = Nat.ofDigitChars 10 (cs ++ ds) 0 / 10 ^ ds.length := by
  rw [Nat.ofDigitChars_append, Nat.ofDigitChars_eq_ofDigitChars_zero, valueOfDigits]
  push_cast
  rw [add_div, mul_div_cancel_left₀ _ (by positivity)]

theorem Holds.brackets (h : n.Holds negative (cs ++ ds) ds.length) :
    n.Brackets (valueOfDigits cs ds) := by
  obtain ⟨-, dropped, -, hkeeps, hexp⟩ := h
  rw [valueOfDigits_eq]
  exact hkeeps.brackets hexp

/-- Digits before and behind the point denote a value that is bracketed by the numeral that takes
them one by one, if they are few enough to be counted. -/
theorem brackets_foldDigits (negative : Bool) (hcs : IsDigits cs) (hds : IsDigits ds)
    (hlen : cs.length + ds.length < 2 ^ 62) :
    (foldDigits pushFraction ds (foldDigits pushInteger cs (new negative))).Brackets
      (valueOfDigits cs ds) := by
  have hlen' : (cs ++ ds).length < 2 ^ 62 := by rwa [List.length_append]
  have hinteger : (foldDigits pushInteger cs (new negative)).Holds negative cs 0 :=
    (holds_new negative).fold_integer hcs (by rw [List.nil_append]; omega)
  have hfraction := hinteger.fold_fraction hds (Nat.zero_le _) hlen'
  rw [Nat.zero_add] at hfraction
  exact hfraction.brackets

/-- The least mantissa that a digit can be left out after: with the first digit behind the point, it
would be the least number that does not fit 64 bits. -/
theorem brackets_foldDigits_least :
    let cs := "1844674407370955161".toList
    let ds := "60".toList
    let n := foldDigits pushFraction ds (foldDigits pushInteger cs (new false))
    IsDigits cs ∧ IsDigits ds ∧ cs.length + ds.length < 2 ^ 62 ∧
      n.Brackets (valueOfDigits cs ds) ∧
      valueOfDigits cs ds = 1844674407370955161 + 6 / 10 ∧ n.overflowed = true ∧
      n.mantissa.toNat = 1844674407370955161 ∧ n.exponent.toInt = 0 := by
  intro cs ds n
  have hcs : IsDigits cs := fun _ => List.all_eq_true.mp (by decide) _
  have hds : IsDigits ds := fun _ => List.all_eq_true.mp (by decide) _
  have hlen : cs.length + ds.length < 2 ^ 62 := by decide
  refine ⟨hcs, hds, hlen, brackets_foldDigits false hcs hds hlen, ?_, by decide +kernel,
    by decide +kernel, by decide +kernel⟩
  have hinteger : Nat.ofDigitChars 10 cs 0 = 1844674407370955161 := by decide
  have hfraction : Nat.ofDigitChars 10 ds 0 = 60 := by decide
  have hplaces : ds.length = 2 := by decide
  rw [valueOfDigits, hinteger, hfraction, hplaces]
  norm_num

end Numeral

/-- What stands before the exponent of a literal is bracketed by the numeral that is read there. -/
theorem NumberLiteral.brackets_fractionNumeral (l : NumberLiteral) (hlen : l.text.length < 2 ^ 62) :
    l.fractionNumeral.Brackets (Numeral.valueOfDigits l.integer.chars l.fractionDigits) :=
  (l.holds_fractionNumeral hlen).brackets

end JsonDoc

import JsonDoc.Proofs.Token.Rounding

/-!
# Integers in a text

A literal is read as an integer iff it has no fraction and no exponent and its value fits 64 bits,
and the integer is that value.  It may have any count of digits: a value that does not fit is read
as a floating point number, or it is out of range.
-/

namespace JsonDoc

namespace NumberLiteral

variable (l : NumberLiteral)

/-- The value of a literal. -/
def value : ℚ := if l.negative then -l.magnitude else l.magnitude

variable {l} in
/-- Without a fraction and an exponent, the value is a whole number. -/
theorem value_eq_intCast (h : l.fraction = none ∧ l.exponent = none) :
    l.value = ((if l.negative then -(l.significand : ℤ) else l.significand : ℤ) : ℚ) := by
  rw [value, magnitude_eq_significand h]
  split <;> push_cast <;> rfl

theorem token_eq_integer_iff_value {i : Int64} :
    l.token = .ok (.integer i) ↔
      (l.fraction = none ∧ l.exponent = none) ∧ l.value = i.toInt := by
  rw [token_eq_integer_iff]
  refine and_congr_right fun h => ?_
  rw [value_eq_intCast h, Int.cast_inj]

/-- A value that fits 64 bits is read as an integer. -/
theorem exists_token_eq_integer_iff :
    (∃ i : Int64, l.token = .ok (.integer i)) ↔
      (l.fraction = none ∧ l.exponent = none) ∧ -2 ^ 63 ≤ l.value ∧ l.value ≤ 2 ^ 63 - 1 := by
  have hmin := Int64.toInt_minValue
  have hmax := Int64.toInt_maxValue
  constructor
  · rintro ⟨i, hi⟩
    obtain ⟨hnone, hvalue⟩ := l.token_eq_integer_iff_value.mp hi
    have hlow : -2 ^ 63 ≤ i.toInt := hmin ▸ i.minValue_le_toInt
    have hhigh : i.toInt ≤ 2 ^ 63 - 1 := Int.le_sub_one_of_lt i.toInt_lt
    refine ⟨hnone, ?_, ?_⟩ <;> rw [hvalue] <;> exact_mod_cast ‹_›
  · rintro ⟨hnone, hlow, hhigh⟩
    rw [value_eq_intCast hnone] at hlow hhigh
    generalize hwhole : (if l.negative then -(l.significand : ℤ) else l.significand) = w at *
    have hlow' : -2 ^ 63 ≤ w := by exact_mod_cast hlow
    have hhigh' : w ≤ 2 ^ 63 - 1 := by exact_mod_cast hhigh
    refine ⟨Int64.ofInt w, l.token_eq_integer_iff.mpr ⟨hnone, ?_⟩⟩
    rw [hwhole, Int64.toInt_ofInt_of_le (by omega) (by omega)]

end NumberLiteral

/-- A literal of any length is read, to its end, as the integer that is its value iff it has no
fraction and no exponent and fits 64 bits, and else as a number that is no integer, or it is out of
range. -/
theorem scan_integer_iff (l : NumberLiteral) {u : List Char} (hu : l.EndsBefore u) (n : ℕ)
    (peeked : Bool) :
    ∃ r, Token.scan ⟨Answer.chars (l.text ++ u), n, peeked⟩ =
        TokenState.settled u (n + l.text.length) r ∧
      (∀ i : Int64, r = .ok (.integer i) ↔
        (l.fraction = none ∧ l.exponent = none) ∧ l.value = i.toInt) ∧
      ((∃ i, r = .ok (.integer i)) ↔
        (l.fraction = none ∧ l.exponent = none) ∧ -2 ^ 63 ≤ l.value ∧ l.value ≤ 2 ^ 63 - 1) ∧
      ((∃ i, r = .ok (.integer i)) ∨ (∃ x : Binary64, x.isFinite ∧ r = .ok (.float x)) ∨
        r = .error .numberOutOfRange) :=
  ⟨l.token, scan_literal l hu n peeked, fun _ => l.token_eq_integer_iff_value,
    l.exists_token_eq_integer_iff, l.numeral.token_cases⟩

/-- The least integer of 64 bits. -/
def leastInteger : NumberLiteral where
  negative := true
  integer := ⟨"9223372036854775808".toList, fun _ => List.all_eq_true.mp (by decide) _, by decide⟩
  no_leading_zero := by decide
  fraction := none
  exponent := none

theorem scan_leastInteger :
    Token.scan ⟨Answer.chars (leastInteger.text ++ [',']), 0, false⟩ =
      TokenState.settled [','] 20 (.ok (.integer Int64.minValue)) := by
  have hends : leastInteger.EndsBefore [','] := by
    rintro _ ⟨⟩
    exact ⟨by decide, by decide, by decide⟩
  have hdigits : leastInteger.significand = 9223372036854775808 := by decide +kernel
  have hvalue : leastInteger.value = Int64.minValue.toInt := by
    rw [NumberLiteral.value_eq_intCast ⟨rfl, rfl⟩, hdigits, Int64.toInt_minValue]
    rfl
  obtain ⟨r, hscan, hinteger, -⟩ := scan_integer_iff leastInteger hends 0 false
  rw [hscan, (hinteger Int64.minValue).mpr ⟨⟨rfl, rfl⟩, hvalue⟩]
  rfl

end JsonDoc

import JsonDoc.Proofs.Decimal.Nearest
import JsonDoc.Token.Numeral

/-!
# What a numeral keeps

A numeral keeps the digits that it was given but for the last ones, and it leaves out as few of them
as 64 bits allow (`Numeral.Keeps`).  Its text is that of a decimal (`Numeral.decimal`), always fits,
and is read back as that decimal, so that a numeral is rounded as its decimal is.
-/

namespace JsonDoc

/-! ### Integers within 64 bits -/

theorem Integer.toInt_saturate_of_mem {i : ℤ} (hlo : -2 ^ 63 ≤ i) (hhi : i < 2 ^ 63) :
    (saturate i).toInt = i := by
  have hmin := Int64.toInt_minValue
  have hmax := Int64.toInt_maxValue
  rw [toInt_saturate]
  omega

/-- Two exponents are equal, or both are beyond a reach on the same side. -/
def SameReach (reach a b : ℤ) : Prop :=
  a = b ∨ (reach ≤ a ∧ reach ≤ b) ∨ (a ≤ -reach ∧ b ≤ -reach)

/-- Beyond the reach of finite numbers, decimals with few digits round alike. -/
theorem SameReach.roundAlike {a b : ℤ} (h : SameReach 400 a b) {m : ℕ} (hm : m < 10 ^ 30) :
    RoundAlike (m * 10 ^ a) (m * 10 ^ b) := by
  have hten : (1 : ℚ) ≤ 10 := by norm_num
  have hm' : (m : ℚ) < 10 ^ (30 : ℤ) := by
    rw [show (10 : ℚ) ^ (30 : ℤ) = 10 ^ 30 from zpow_natCast 10 30]
    exact_mod_cast hm
  rcases Nat.eq_zero_or_pos m with rfl | hpos
  · rw [Nat.cast_zero, zero_mul, zero_mul]
    exact RoundAlike.refl 0
  have hpos' : (1 : ℚ) ≤ m := by exact_mod_cast hpos
  rcases h with rfl | ⟨ha, hb⟩ | ⟨ha, hb⟩
  · exact RoundAlike.refl _
  · have hlarge : ∀ e : ℤ, 400 ≤ e → (10 : ℚ) ^ (310 : ℤ) ≤ m * 10 ^ e := by
      intro e he
      calc (10 : ℚ) ^ (310 : ℤ) ≤ 10 ^ e := zpow_le_zpow_right₀ hten (by omega)
        _ ≤ m * 10 ^ e := le_mul_of_one_le_left (by positivity) hpos'
    exact RoundAlike.of_large (hlarge a ha) (hlarge b hb)
  · have hsmall : ∀ e : ℤ, e ≤ -400 → (m : ℚ) * 10 ^ e ≤ 10 ^ (-330 : ℤ) := by
      intro e he
      calc (m : ℚ) * 10 ^ e ≤ 10 ^ (30 : ℤ) * 10 ^ e :=
            mul_le_mul_of_nonneg_right hm'.le (by positivity)
        _ = 10 ^ (30 + e) := (zpow_add₀ (by norm_num) _ _).symm
        _ ≤ 10 ^ (-330 : ℤ) := zpow_le_zpow_right₀ hten (by omega)
    exact RoundAlike.of_small (hsmall a ha) (hsmall b hb)

namespace Numeral

/-! ### Digits -/

/-- The numeral keeps a whole number but for some of its last digits, no more than need be. -/
structure Keeps (n : Numeral) (whole dropped : ℕ) : Prop where
  mantissa_eq : n.mantissa.toNat = whole / 10 ^ dropped
  truncated_iff : n.truncated = true ↔ ¬ 10 ^ dropped ∣ whole
  overflowed_iff : n.overflowed = true ↔ 0 < dropped
  full : 0 < dropped → UInt64.size ≤ whole / 10 ^ (dropped - 1)

theorem keeps_new (negative : Bool) : (new negative).Keeps 0 0 where
  mantissa_eq := rfl
  truncated_iff := by simp [new]
  overflowed_iff := by simp [new]
  full := fun h => absurd h (lt_irrefl 0)

variable {n : Numeral} {whole dropped d : ℕ}

/-- Nothing is left out of a numeral whose mantissa is zero. -/
theorem Keeps.dropped_eq_zero (h : n.Keeps whole dropped) (hm : n.mantissa.toNat = 0) :
    dropped = 0 := by
  by_contra hne
  have hpos := Nat.pos_of_ne_zero hne
  have hfull := h.full hpos
  have hdiv : whole / 10 ^ dropped = whole / 10 ^ (dropped - 1) / 10 := by
    rw [Nat.div_div_eq_div_mul, ← pow_succ, Nat.sub_add_cancel hpos]
  have hsize : 10 ≤ UInt64.size := by decide
  have := h.mantissa_eq
  omega

/-- No numeral of 64 bits would keep more. -/
theorem Keeps.size_le (h : n.Keeps whole dropped) {fewer : ℕ} (hf : fewer < dropped) :
    UInt64.size ≤ whole / 10 ^ fewer :=
  (h.full (Nat.zero_lt_of_lt hf)).trans
    (Nat.div_le_div_left (Nat.pow_le_pow_right (by decide) (by omega)) (Nat.pow_pos (by decide)))

theorem keeps_push (h : n.Keeps whole dropped) (hd : d < 10) :
    (n.push d).1.Keeps (10 * whole + d) (if (n.push d).2 then dropped else dropped + 1) := by
  have hdiv : (10 * whole + d) / 10 = whole := by omega
  have hdrop : ∀ k, (10 * whole + d) / 10 ^ (k + 1) = whole / 10 ^ k := by
    intro k
    rw [pow_succ', ← Nat.div_div_eq_div_mul, hdiv]
  by_cases ho : n.overflowed = true
  · have hpos := h.overflowed_iff.mp ho
    simp only [push, ho, Bool.not_true, Bool.false_and, Bool.false_eq_true, if_false]
    refine ⟨by rw [hdrop, h.mantissa_eq], ?_, by simp, fun _ => ?_⟩
    · simp only [Bool.or_eq_true, h.truncated_iff, bne_iff_ne]
      have hdvd : 10 ^ (dropped + 1) ∣ 10 * whole + d ↔ d = 0 ∧ 10 ^ dropped ∣ whole := by
        rw [pow_succ']
        constructor
        · intro hdvd
          have h10 : 10 ∣ 10 * whole + d := (Dvd.intro _ rfl).trans hdvd
          obtain rfl : d = 0 := by omega
          exact ⟨rfl, Nat.dvd_of_mul_dvd_mul_left (by decide) hdvd⟩
        · rintro ⟨rfl, hdvd⟩
          exact Nat.mul_dvd_mul_left 10 hdvd
      rw [hdvd]
      tauto
    · obtain ⟨k, rfl⟩ : ∃ k, dropped = k + 1 := ⟨dropped - 1, by omega⟩
      rw [Nat.add_sub_cancel, hdrop]
      exact h.full hpos
  · have hzero : dropped = 0 := by
      have := mt h.overflowed_iff.mpr ho
      omega
    subst hzero
    have hm : n.mantissa.toNat = whole := by rw [h.mantissa_eq, pow_zero, Nat.div_one]
    have ht : n.truncated = false := by
      rw [← Bool.not_eq_true, h.truncated_iff]
      simp
    simp only [push, ho, hm, ht, Bool.not_false, Bool.true_and, Bool.false_or]
    by_cases hfit : whole * 10 + d < UInt64.size
    · simp only [hfit, decide_true, if_true]
      refine ⟨?_, by simp, by simp, fun hpos => absurd hpos (lt_irrefl 0)⟩
      rw [UInt64.toNat_ofNat_of_lt' hfit, pow_zero, Nat.div_one, Nat.mul_comm]
    · simp only [hfit, decide_false, Bool.false_eq_true, if_false]
      refine ⟨by rw [hdrop, hm, pow_zero, Nat.div_one], ?_, by simp, fun _ => ?_⟩
      · simp only [bne_iff_ne]
        omega
      · simp only [Nat.add_sub_cancel, pow_zero, Nat.div_one]
        omega

theorem Keeps.shiftExponent (h : n.Keeps whole dropped) (step : ℤ) :
    (n.shiftExponent step).Keeps whole dropped :=
  ⟨h.mantissa_eq, h.truncated_iff, h.overflowed_iff, h.full⟩

theorem Keeps.asFloat (h : n.Keeps whole dropped) : n.asFloat.Keeps whole dropped :=
  ⟨h.mantissa_eq, h.truncated_iff, h.overflowed_iff, h.full⟩

theorem exists_push (h : n.Keeps whole dropped) (hd : d < 10) :
    ∃ m fits, n.push d = (m, fits) ∧ m.negative = n.negative ∧ m.exponent = n.exponent ∧
      m.Keeps (10 * whole + d) (if fits then dropped else dropped + 1) := by
  refine ⟨(n.push d).1, (n.push d).2, rfl, ?_, ?_, keeps_push h hd⟩ <;>
    (unfold push; dsimp only; split <;> rfl)

/-- The numeral holds digits of which so many stand behind the point. -/
structure Holds (n : Numeral) (negative : Bool) (cs : List Char) (places : ℕ) : Prop where
  negative_eq : n.negative = negative
  exists_keeps : ∃ dropped ≤ cs.length, n.Keeps (Nat.ofDigitChars 10 cs 0) dropped ∧
    n.exponent.toInt = dropped - places

theorem holds_new (negative : Bool) : (new negative).Holds negative [] 0 :=
  ⟨rfl, 0, le_rfl, keeps_new negative, rfl⟩

variable {negative : Bool} {cs ds : List Char} {places : ℕ} {c : Char}

theorem Holds.asFloat (h : n.Holds negative cs places) : n.asFloat.Holds negative cs places := by
  obtain ⟨hneg, k, hk, hkeeps, hexp⟩ := h
  exact ⟨hneg, k, hk, hkeeps.asFloat, hexp⟩

theorem Holds.push_integer (h : n.Holds negative cs 0) (hc : c.isDigit)
    (hlen : cs.length < 2 ^ 62) : (n.pushInteger (c.toNat - 48)).Holds negative (cs ++ [c]) 0 := by
  obtain ⟨hneg, k, hk, hkeeps, hexp⟩ := h
  obtain ⟨m, fits, hpush, hm, he, hkeeps⟩ := exists_push hkeeps (Decimal.digit_lt_ten hc)
  rw [← ofDigitChars_append_singleton] at hkeeps
  have hlen' : (cs ++ [c]).length = cs.length + 1 := List.length_append
  unfold pushInteger
  rw [hpush]
  cases fits with
  | true => exact ⟨hm.trans hneg, k, by omega, hkeeps, by rw [he, hexp]⟩
  | false =>
    refine ⟨hm.trans hneg, k + 1, by omega, hkeeps.shiftExponent 1, ?_⟩
    dsimp only [shiftExponent]
    rw [he, hexp, Integer.toInt_saturate_of_mem (by omega) (by omega)]
    push_cast
    ring

theorem Holds.push_fraction (h : n.Holds negative cs places) (hc : c.isDigit)
    (hplaces : places ≤ cs.length) (hlen : cs.length < 2 ^ 62) :
    (n.pushFraction (c.toNat - 48)).Holds negative (cs ++ [c]) (places + 1) := by
  obtain ⟨hneg, k, hk, hkeeps, hexp⟩ := h
  obtain ⟨m, fits, hpush, hm, he, hkeeps⟩ := exists_push hkeeps (Decimal.digit_lt_ten hc)
  rw [← ofDigitChars_append_singleton] at hkeeps
  have hlen' : (cs ++ [c]).length = cs.length + 1 := List.length_append
  unfold pushFraction
  rw [hpush]
  cases fits with
  | true =>
    refine ⟨hm.trans hneg, k, by omega, hkeeps.shiftExponent (-1), ?_⟩
    dsimp only [shiftExponent]
    rw [he, hexp, Integer.toInt_saturate_of_mem (by omega) (by omega)]
    push_cast
    ring
  | false =>
    refine ⟨hm.trans hneg, k + 1, by omega, hkeeps, ?_⟩
    rw [he, hexp]
    push_cast
    ring

/-! ### Decimals -/

/-- The decimal whose text is that of the numeral. -/
def decimal (n : Numeral) : Decimal :=
  if n.truncated then
    ⟨10 * n.mantissa.toNat + 1, (Integer.saturate (n.exponent.toInt - 1)).toInt⟩
  else ⟨n.mantissa.toNat, n.exponent.toInt⟩

theorem ofText?_text (n : Numeral) : Decimal.ofText? n.text = some n.decimal := by
  have hd := isDigits_toDigits n.mantissa.toNat
  unfold text decimal
  split
  · rw [List.append_cons, Decimal.ofText?_append (hd.append (by simp [IsDigits])) (by simp),
      ofDigitChars_append_singleton, Nat.ofDigitChars_ten_toDigits]
    rfl
  · rw [Decimal.ofText?_append hd Nat.toDigits_ne_nil, Nat.ofDigitChars_ten_toDigits]

theorem length_integerText_le (i : Int64) : (Integer.text i.toInt).length ≤ 20 := by
  have hlo := i.minValue_le_toInt
  have hhi := i.toInt_lt
  have hmin := Int64.toInt_minValue
  have hdigits : decimalLength i.toInt.natAbs ≤ 19 :=
    (decimalLength_le_iff (by decide)).mpr (by omega)
  unfold decimalLength at hdigits
  unfold Integer.text
  split
  · rw [List.length_cons]
    omega
  · omega

/-- The text of a decimal never has more characters than there is room for. -/
theorem length_text_le (n : Numeral) : n.text.length ≤ textCapacity := by
  have hm : decimalLength n.mantissa.toNat ≤ 20 :=
    (decimalLength_le_iff (by decide)).mpr (n.mantissa.toNat_lt.trans (by decide))
  unfold decimalLength at hm
  unfold text textCapacity
  split
  · have := length_integerText_le (Integer.saturate (n.exponent.toInt - 1))
    simp only [List.length_append, List.length_cons]
    omega
  · have := length_integerText_le n.exponent
    simp only [List.length_append, List.length_cons]
    omega

/-- A numeral is rounded as its decimal is, and is in range if the nearest number is finite. -/
theorem float_eq {n : Numeral} (h : n.mantissa.toNat = 0 → n.truncated = false) :
    n.float = if (n.decimal.toBinary64 n.negative).isFinite then
      .ok (n.decimal.toBinary64 n.negative) else .error .numberOutOfRange := by
  unfold float
  split
  case isTrue hm =>
    have hm' : n.mantissa.toNat = 0 := by rw [hm]; rfl
    have hd : n.decimal.toBinary64 n.negative = .finite n.negative .zero := by
      unfold decimal
      rw [h hm', hm', Decimal.toBinary64]
      rfl
    rw [hd]
    rfl
  case isFalse hm =>
    rw [if_neg (not_lt.mpr n.length_text_le), ofText?_text]

theorem float_cases (n : Numeral) :
    (∃ x : Binary64, x.isFinite ∧ n.float = .ok x) ∨ n.float = .error .numberOutOfRange := by
  unfold float
  split
  case isTrue => exact Or.inl ⟨_, rfl, rfl⟩
  case isFalse =>
    rw [if_neg (not_lt.mpr n.length_text_le), ofText?_text]
    dsimp only
    split
    case isTrue hx => exact Or.inl ⟨_, hx, rfl⟩
    case isFalse => exact Or.inr rfl

/-- A numeral is an integer or a finite number, or else it is out of range. -/
theorem token_cases (n : Numeral) :
    (∃ i, n.token = .ok (.integer i)) ∨ (∃ x : Binary64, x.isFinite ∧ n.token = .ok (.float x)) ∨
      n.token = .error .numberOutOfRange := by
  unfold token
  cases n.integer? with
  | some i => exact Or.inl ⟨i, rfl⟩
  | none =>
    right
    rcases n.float_cases with ⟨x, hx, h⟩ | h
    · exact Or.inl ⟨x, hx, by rw [h]; rfl⟩
    · exact Or.inr (by rw [h]; rfl)

/-- The decimal is rounded like the digits that are kept, with one more digit for those that are
not, scaled by the exponent that the numeral would have without a bound. -/
theorem Keeps.roundAlike (h : n.Keeps whole dropped) {power : ℤ}
    (he : SameReach 401 n.exponent.toInt power) :
    RoundAlike n.decimal.value
      (((whole / 10 ^ dropped : ℕ) + if 10 ^ dropped ∣ whole then 0 else 1 / 10) *
        10 ^ power) := by
  have hm := n.mantissa.toNat_lt
  unfold decimal
  by_cases ht : n.truncated = true
  · rw [Decimal.value, if_pos ht, if_neg (h.truncated_iff.mp ht), ← h.mantissa_eq]
    have hscale : ((n.mantissa.toNat : ℚ) + 1 / 10) * 10 ^ power =
        (10 * n.mantissa.toNat + 1 : ℕ) * 10 ^ (power - 1) := by
      rw [zpow_sub₀ (by norm_num), zpow_one]
      push_cast
      field_simp
    rw [hscale]
    dsimp only
    refine SameReach.roundAlike ?_ (by omega)
    have hmin := Int64.toInt_minValue
    have hmax := Int64.toInt_maxValue
    have hlo := n.exponent.minValue_le_toInt
    have hhi := n.exponent.toInt_lt
    rw [Integer.toInt_saturate]
    unfold SameReach at *
    omega
  · rw [Decimal.value, if_neg ht, if_pos (not_not.mp (mt h.truncated_iff.mpr ht)), add_zero,
      ← h.mantissa_eq]
    dsimp only
    refine SameReach.roundAlike ?_ (by omega)
    unfold SameReach at *
    omega

end Numeral

end JsonDoc

import JsonDoc.Proofs.Document.Lexer
import JsonDoc.Proofs.Dump.Equality
import JsonDoc.Proofs.Dump.Float
import JsonDoc.Proofs.Token.Integer

/-!
# Seventeen digits tell all numbers apart

The decimal of seventeen digits that a number is rounded to is nearer to it than to any other number
(`Magnitude.roundsTo_written`), and so the text of the number is read as that number again.  Only
whole numbers that are written without a fraction and an exponent are read as integers, of the same
value.
-/

namespace JsonDoc

/-! ### Whole numbers -/

/-- Whole numbers below `2 ^ 53` are magnitudes. -/
theorem exists_valueAt_eq_natCast {n : ℕ} (h : n < 2 ^ 53) :
    ∃ code ≤ infinityCode, valueAt code = n := by
  rcases Nat.eq_zero_or_pos n with rfl | hpos
  · exact ⟨0, Nat.zero_le _, by rw [valueAt_zero, Nat.cast_zero]⟩
  -- scaled by a power of two, the number has all the 53 binary digits of a step count
  have hlog : n.log2 < 53 := (Nat.log2_lt hpos.ne').mpr h
  obtain ⟨k, hk⟩ : ∃ k, n.log2 + k = 52 := ⟨52 - n.log2, by omega⟩
  obtain ⟨j, hj⟩ : ∃ j, k + j = 1074 := ⟨1074 - k, by omega⟩
  have hlow : stride ≤ n * 2 ^ k := by
    calc stride = 2 ^ n.log2 * 2 ^ k := by rw [← pow_add, hk]; rfl
      _ ≤ n * 2 ^ k := Nat.mul_le_mul_right _ (Nat.log2_self_le hpos.ne')
  have hhigh : n * 2 ^ k ≤ 2 * stride := by
    calc n * 2 ^ k ≤ 2 ^ (n.log2 + 1) * 2 ^ k := Nat.mul_le_mul_right _ Nat.lt_log2_self.le
      _ = 2 * stride := by rw [pow_succ', mul_assoc, ← pow_add, hk]; rfl
  refine ⟨stride * j + n * 2 ^ k, ?_, ?_⟩
  · have hbound : stride * 1076 ≤ infinityCode := by decide
    have hj' : stride * j ≤ stride * 1074 := Nat.mul_le_mul_left _ (by omega)
    omega
  · rw [valueAt, unitsAt_of_steps hhigh (Or.inl hlow), unitsPerOne_eq, mul_assoc, ← pow_add, hj]
    generalize 1074 = places
    push_cast
    exact mul_div_cancel_right₀ _ (by positivity)

/-- A whole number below `10 ^ 9` is a multiple of the unit of its seventeenth digit. -/
theorem exists_eq_mul_lastPlace {n : ℕ} (hpos : 0 < n) (hn : n < 10 ^ 9) :
    ∃ k : ℕ, (n : ℚ) = k * lastPlace 17 n := by
  have hpos' : (0 : ℚ) < n := by exact_mod_cast hpos
  have hlog : Int.log 10 (n : ℚ) < 9 := by
    refine (Int.lt_zpow_iff_log_lt (b := 10) (by decide) hpos').mp ?_
    rw [zpow_ofNat]
    exact_mod_cast hn
  obtain ⟨j, hj⟩ : ∃ j : ℕ, Int.log 10 (n : ℚ) + 1 - (17 : ℕ) = -j :=
    ⟨(16 - Int.log 10 (n : ℚ)).toNat, by omega⟩
  refine ⟨n * 10 ^ j, ?_⟩
  rw [lastPlace, hj, zpow_neg, zpow_natCast]
  push_cast
  field_simp

/-! ### Seventeen digits -/

namespace Magnitude

variable {m : Magnitude}

/-- No digits are cut off if there are as many as possible. -/
theorem written_mostPrecision (hm : m.code ≠ 0) :
    m.written mostPrecision = m.significant mostPrecision :=
  written_of_not_overflows fun hover => lt_irrefl _ (lt_of_overflows hm (by decide) le_rfl hover)

/-- The decimal that is written is nearer to the number than to any other. -/
theorem roundsTo_written (hm : m.code ≠ 0) :
    RoundsTo ((m.written mostPrecision).value mostPrecision) m.code := by
  have hvalue := valueAt_pos hm
  have herror := @abs_sub_significant_le m mostPrecision hm (by decide)
  rw [written_mostPrecision hm]
  refine roundsTo_of_abs_sub_lt m.code_lt ?_
  rw [abs_sub_comm]
  refine herror.trans_lt ?_
  rw [show mostPrecision = 17 from rfl]
  linarith

end Magnitude

namespace Dump

variable {negative : Bool} {m : Magnitude} {l : NumberLiteral}

/-- A literal without an exponent that denotes a whole number has no fraction, as that would end
with zero. -/
theorem IsTidy.fraction_eq_none (h : IsTidy l) (hexponent : l.exponent = none) {n : ℕ}
    (hn : l.magnitude = n) : l.fraction = none := by
  cases hfraction : l.fraction with
  | none => rfl
  | some fs =>
    exfalso
    have hlast := h.fraction_getLast?_ne fs hfraction
    obtain ⟨cs, hcs, hne⟩ := fs
    obtain ⟨cs, c, rfl⟩ := List.eq_nil_or_concat' cs |>.resolve_left hne
    have hc : c.isDigit := hcs c (by simp)
    obtain ⟨w, hw⟩ : ∃ w, l.significand = 10 * w + (c.toNat - 48) := by
      rw [NumberLiteral.significand, NumberLiteral.fractionDigits, hfraction, ← List.append_assoc,
        ofDigitChars_append_singleton]
      exact ⟨_, rfl⟩
    have hwhole : l.significand = n * 10 ^ (cs.length + 1) := by
      have hpower : l.power = -(cs.length + 1 : ℕ) := by
        rw [NumberLiteral.power, hexponent, NumberLiteral.fractionDigits, hfraction]
        simp
      rw [NumberLiteral.magnitude, hpower, zpow_neg, zpow_natCast,
        mul_inv_eq_iff_eq_mul₀ (by positivity)] at hn
      exact_mod_cast hn
    have hdigit := Decimal.digit_lt_ten hc
    rw [pow_succ, ← mul_assoc] at hwhole
    have hzero : c = '0' := Decimal.eq_of_digit_eq hc (by decide) (by
      rw [show '0'.toNat - 48 = 0 from rfl]
      omega)
    exact hlast (by simp [hzero])

/-- What is written as a literal of its own value is the value of the literal. -/
theorem WritesMagnitude.value_eq (h : WritesMagnitude negative m mostPrecision l)
    (hvalue : l.magnitude = valueAt m.code) :
    l.value = (Binary64.finite negative m).toRat := by
  rw [NumberLiteral.value, h.negative_eq, hvalue, Binary64.toRat_finite]

section

variable (h : WritesMagnitude negative m mostPrecision l) (hm : m.code ≠ 0)

include h hm

theorem WritesMagnitude.roundsTo : RoundsTo l.magnitude m.code := by
  rw [h.magnitude_eq]
  exact Magnitude.roundsTo_written hm

/-- A number whose text is read as an integer is that integer, and is less than `10 ^ 9`. -/
theorem WritesMagnitude.toRat_of_token {i : Int64} (htoken : l.token = .ok (.integer i)) :
    (Binary64.finite negative m).toRat = i.toInt ∧
      |(Binary64.finite negative m).toRat| < 10 ^ 9 := by
  obtain ⟨hnone, hi⟩ := l.token_eq_integer_iff_value.mp htoken
  have hwhole := NumberLiteral.magnitude_eq_significand hnone
  have hsmall : l.magnitude < 10 ^ 9 := by
    by_contra hlarge
    have hexponent := h.exponent_iff.mpr (Or.inl (not_lt.mp hlarge))
    rw [hnone.2] at hexponent
    cases hexponent
  have hlt : l.significand < 2 ^ 53 := by
    rw [hwhole] at hsmall
    have hsmall' : l.significand < 10 ^ 9 := by exact_mod_cast hsmall
    omega
  obtain ⟨code, hcode, hvalue⟩ := exists_valueAt_eq_natCast hlt
  rw [← hwhole] at hvalue
  obtain rfl : code = m.code := by
    have hself := roundsTo_valueAt hcode
    rw [hvalue] at hself
    exact hself.unique (h.roundsTo hm)
  rw [Binary64.abs_toRat, ← h.value_eq hvalue.symm, hvalue]
  exact ⟨hi, hsmall⟩

/-- The text of a whole number less than `10 ^ 9` is read as an integer. -/
theorem WritesMagnitude.exists_token_integer {z : ℤ}
    (hz : (Binary64.finite negative m).toRat = z)
    (hsmall : |(Binary64.finite negative m).toRat| < 10 ^ 9) :
    ∃ i : Int64, l.token = .ok (.integer i) := by
  have habs := Binary64.abs_toRat negative m
  obtain ⟨n, hn⟩ : ∃ n : ℕ, valueAt m.code = n :=
    ⟨z.natAbs, by rw [← habs, hz, Nat.cast_natAbs, Int.cast_abs]⟩
  have hpos : 0 < n := by
    have := Magnitude.valueAt_pos hm
    rw [hn] at this
    exact_mod_cast this
  have hlt : n < 10 ^ 9 := by
    rw [habs, hn] at hsmall
    exact_mod_cast hsmall
  obtain ⟨k, hk⟩ := exists_eq_mul_lastPlace hpos hlt
  have hmagnitude : l.magnitude = valueAt m.code := by
    rw [h.magnitude_eq, Magnitude.written_mostPrecision hm]
    refine (Magnitude.roundsToDigits_significant hm (by decide)).eq_self (n := k) ?_
    rw [hn]
    exact hk
  have hexponent : l.exponent = none := by
    rw [← Option.not_isSome_iff_eq_none, h.exponent_iff, hmagnitude, hn]
    have hone : (1 : ℚ) ≤ n := by exact_mod_cast hpos
    have hlt' : (n : ℚ) < 10 ^ 9 := by exact_mod_cast hlt
    rintro (hlarge | htiny)
    · linarith
    · norm_num at htiny
      linarith
  have hfraction := h.isTidy.fraction_eq_none hexponent (hmagnitude.trans hn)
  obtain ⟨hlow, hhigh⟩ := abs_lt.mp hsmall
  rw [l.exists_token_eq_integer_iff, h.value_eq hmagnitude]
  exact ⟨⟨hfraction, hexponent⟩, by linarith, by linarith⟩

/-- The text of a number is read as an integer or as the number. -/
theorem WritesMagnitude.token_eq :
    (∃ i : Int64, l.token = .ok (.integer i)) ∨
      l.token = .ok (.float (.finite negative m)) := by
  have hround := h.roundsTo hm
  have hpos : 0 < l.magnitude := by
    rw [h.magnitude_eq]
    exact (Magnitude.isWritten_written hm (by decide) le_rfl).value_pos
  obtain ⟨y, hy, -, htoken | ⟨i, htoken, -⟩⟩ := l.exists_isNearest_token h.length_lt
    h.significand_lt hpos (h.magnitude_lt hm (by decide) le_rfl)
  · right
    rw [htoken, hy.unique (Binary64.isNearest_finite_iff.mpr ⟨h.negative_eq.symm, hround⟩)]
  · exact Or.inl ⟨i, htoken⟩

end

theorem toRat_eq_zero (hm : m.code = 0) : (Binary64.finite negative m).toRat = 0 := by
  rw [← abs_eq_zero, Binary64.abs_toRat, hm, valueAt_zero]

end Dump

/-- A literal that is read is a single token. -/
theorem Lexer.readsAlone_literal {l : NumberLiteral} {tok : Token} (h : l.token = .ok tok) :
    ReadsAlone l.text tok := by
  have hscans := ScansTo.number isBlanks_nil (delimited_nil.endsBefore l) h
  rw [List.nil_append, List.append_nil] at hscans
  exact readsAlone_of_scansTo hscans

/-- The text of a finite number, to seventeen digits, is a single token.  It is an integer iff the
number is a whole one less than `10 ^ 9`, and then it is that one; otherwise it is the number
itself. -/
theorem Lexer.exists_readsAlone_float (o : DumpOptions) (negative : Bool) (m : Magnitude) :
    ∃ tok,
      ReadsAlone ((Value.float (.finite negative m)).dumpWith (o.withPrecision 17)).toList tok ∧
      (∀ i : Int64, tok = .integer i → (Binary64.finite negative m).toRat = i.toInt) ∧
      ((∃ i : Int64, tok = .integer i) ↔
        (∃ z : ℤ, (Binary64.finite negative m).toRat = z) ∧
          |(Binary64.finite negative m).toRat| < 10 ^ 9) ∧
      ((∃ i : Int64, tok = .integer i) ∨ tok = .float (.finite negative m)) := by
  have hprecision : ((o.withPrecision 17).withPrecision (o.withPrecision 17).precision).precision =
      mostPrecision := rfl
  rw [Value.toList_dumpWith_float, hprecision]
  by_cases hm : m.code = 0
  · obtain ⟨l, htext, htoken⟩ := Dump.exists_integer_literal 0
    rw [Dump.flatten_floatPieces_zero _ negative hm, htext, Dump.toRat_eq_zero hm]
    refine ⟨.integer 0, readsAlone_literal htoken, ?_, ?_, Or.inl ⟨0, rfl⟩⟩
    · rintro _ ⟨⟩
      rfl
    · exact iff_of_true ⟨0, rfl⟩ ⟨⟨0, Int.cast_zero.symm⟩, by norm_num⟩
  · obtain ⟨l, hl⟩ := Dump.exists_writesMagnitude negative hm (by decide) (le_refl mostPrecision)
    have hinteger : ∀ i : Int64, l.token = .ok (.integer i) →
        (Binary64.finite negative m).toRat = i.toInt ∧
          |(Binary64.finite negative m).toRat| < 10 ^ 9 := fun i => hl.toRat_of_token hm
    rw [← hl.text_eq]
    rcases hl.token_eq hm with ⟨i, htoken⟩ | htoken
    · obtain ⟨hi, hsmall⟩ := hinteger i htoken
      refine ⟨.integer i, readsAlone_literal htoken, ?_, ?_, Or.inl ⟨i, rfl⟩⟩
      · rintro _ ⟨⟩
        exact hi
      · exact iff_of_true ⟨i, rfl⟩ ⟨⟨i.toInt, hi⟩, hsmall⟩
    · refine ⟨.float (.finite negative m), readsAlone_literal htoken, nofun, ?_, Or.inr rfl⟩
      refine iff_of_false nofun ?_
      rintro ⟨⟨z, hz⟩, hsmall⟩
      obtain ⟨i, hi⟩ := hl.exists_token_integer hm hz hsmall
      rw [hi] at htoken
      cases htoken

end JsonDoc

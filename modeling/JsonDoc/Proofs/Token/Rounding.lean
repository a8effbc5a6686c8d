import JsonDoc.Proofs.Token.Numeral
import JsonDoc.Proofs.Token.NumberLiteral

/-!
# What a number literal is rounded to

The numeral of a literal keeps the leading digits of it that fit 64 bits, and puts one tenth of the
last digit that it keeps for all that it leaves out.  So a literal that is no integer is read as the
number nearest to what is kept of it (`NumberLiteral.keptMagnitude`), and that is the number nearest
to the literal itself iff no midpoint between two neighbours separates the two
(`scan_rounds_kept`).
-/

namespace JsonDoc

namespace NumberLiteral

/-! ### Values -/

/-- The digits before and behind the point, read as one whole number. -/
def significand (l : NumberLiteral) : ℕ :=
  Nat.ofDigitChars 10 (l.integer.chars ++ l.fractionDigits) 0

/-- The power of ten of the last of these digits. -/
def power (l : NumberLiteral) : ℤ :=
  (match l.exponent with | none => 0 | some x => x.value) - l.fractionDigits.length

/-- The value of a literal but for its sign. -/
def magnitude (l : NumberLiteral) : ℚ := l.significand * 10 ^ l.power

theorem exists_dropped (whole : ℕ) : ∃ k, whole / 10 ^ k < UInt64.size :=
  ⟨whole, by
    have : whole < 10 ^ whole := Nat.lt_pow_self (by decide)
    rw [Nat.div_eq_of_lt this]
    decide⟩

/-- The fewest digits that have to be left out at the end for the rest to fit 64 bits. -/
def dropped (l : NumberLiteral) : ℕ := Nat.find (exists_dropped l.significand)

/-- What is kept of the value: digits that fit 64 bits, and a tenth more if a digit other than zero
was left out. -/
def keptMagnitude (l : NumberLiteral) : ℚ :=
  ((l.significand / 10 ^ l.dropped : ℕ) + if 10 ^ l.dropped ∣ l.significand then 0 else 1 / 10) *
    10 ^ (l.dropped + l.power)

theorem dropped_eq_zero {l : NumberLiteral} (h : l.significand < UInt64.size) : l.dropped = 0 :=
  (Nat.find_eq_zero _).mpr (by rwa [pow_zero, Nat.div_one])

/-- Nothing is lost if only zeros were left out, or no digit at all. -/
theorem keptMagnitude_of_dvd {l : NumberLiteral} (h : 10 ^ l.dropped ∣ l.significand) :
    l.keptMagnitude = l.magnitude := by
  rw [keptMagnitude, if_pos h, add_zero, Nat.cast_div h (by positivity), magnitude,
    zpow_add₀ (by norm_num), zpow_natCast]
  push_cast
  field_simp

/-- The outcome is the number nearest to a value, or that no finite number is. -/
def RoundsFrom (l : NumberLiteral) (x : ℚ) (r : Except Cause Token) : Prop :=
  ∃ f, Binary64.IsNearest l.negative x f ∧
    r = if f.isFinite then .ok (.float f) else .error .numberOutOfRange

theorem RoundsFrom.congr {l : NumberLiteral} {x y : ℚ} {r : Except Cause Token}
    (h : l.RoundsFrom x r) (hxy : RoundAlike x y) : l.RoundsFrom y r := by
  obtain ⟨f, hf, hr⟩ := h
  exact ⟨f, hf.congr hxy, hr⟩

/-- One outcome is right for two values only if they are rounded alike. -/
theorem RoundsFrom.roundAlike {l : NumberLiteral} {x y : ℚ} {r : Except Cause Token}
    (hx : l.RoundsFrom x r) (hy : l.RoundsFrom y r) : RoundAlike x y := by
  obtain ⟨f, hf, hrf⟩ := hx
  obtain ⟨g, hg, hrg⟩ := hy
  rw [hrf] at hrg
  cases f with
  | nan => exact absurd hf id
  | infinite s =>
    cases g with
    | nan => exact absurd hg id
    | infinite t => exact (hf.2.eq_iff hg.2).mp rfl
    | finite t m => cases hrg
  | finite s m =>
    cases g with
    | nan => exact absurd hg id
    | infinite t => cases hrg
    | finite t k =>
      cases hrg
      exact hf.roundAlike hg

end NumberLiteral

/-! ### The numeral of a literal -/

namespace Numeral

variable {n : Numeral} {negative : Bool} {cs ds : List Char} {places : ℕ}

theorem Holds.fold_integer (h : n.Holds negative cs 0) (hds : IsDigits ds)
    (hlen : (cs ++ ds).length < 2 ^ 62) :
    (foldDigits pushInteger ds n).Holds negative (cs ++ ds) 0 := by
  induction ds generalizing n cs with
  | nil =>
    rw [List.append_nil]
    exact h
  | cons d ds ih =>
    obtain ⟨hd, hds⟩ := hds.of_cons
    rw [List.append_cons] at hlen ⊢
    have hlen' : cs.length < 2 ^ 62 := by
      simp only [List.length_append, List.length_cons] at hlen
      omega
    exact ih (h.push_integer hd hlen') hds hlen

theorem Holds.fold_fraction (h : n.Holds negative cs places) (hds : IsDigits ds)
    (hplaces : places ≤ cs.length) (hlen : (cs ++ ds).length < 2 ^ 62) :
    (foldDigits pushFraction ds n).Holds negative (cs ++ ds) (places + ds.length) := by
  induction ds generalizing n cs places with
  | nil =>
    rw [List.append_nil]
    exact h
  | cons d ds ih =>
    obtain ⟨hd, hds⟩ := hds.of_cons
    rw [List.append_cons] at hlen ⊢
    have hlen' : cs.length < 2 ^ 62 := by
      simp only [List.length_append, List.length_cons] at hlen
      omega
    have := ih (h.push_fraction hd hplaces hlen') hds (by simpa using hplaces) hlen
    rw [List.length_cons, Nat.add_comm ds.length, ← Nat.add_assoc]
    exact this

/-- The digits of an exponent are read as the exponent, or as the largest one of 64 bits. -/
theorem toInt_fold_exponent (hds : IsDigits ds) {v : Int64} {a : ℕ}
    (hv : v.toInt = min (a : ℤ) Int64.maxValue.toInt) :
    (foldDigits pushExponent ds v).toInt =
      min (Nat.ofDigitChars 10 ds a : ℤ) Int64.maxValue.toInt := by
  have hmin := Int64.toInt_minValue
  have hmax := Int64.toInt_maxValue
  induction ds generalizing v a with
  | nil => rw [Nat.ofDigitChars_nil]; exact hv
  | cons d ds ih =>
    rw [foldDigits_cons, Nat.ofDigitChars_cons]
    refine ih hds.of_cons.2 ?_
    rw [pushExponent, Integer.toInt_saturate, Integer.toInt_saturate, hv]
    have h48 : '0'.toNat = 48 := rfl
    rw [h48]
    push_cast
    omega

/-- Digits do not change the sign and the kind of a numeral. -/
def SameForm (n m : Numeral) : Prop := m.negative = n.negative ∧ m.isFloat = n.isFloat

theorem SameForm.trans {n m k : Numeral} (h : n.SameForm m) (h' : m.SameForm k) : n.SameForm k :=
  ⟨h'.1.trans h.1, h'.2.trans h.2⟩

theorem sameForm_push (d : ℕ) (n : Numeral) : n.SameForm (n.push d).1 := by
  unfold push
  dsimp only
  split <;> exact ⟨rfl, rfl⟩

theorem sameForm_pushInteger (d : ℕ) (n : Numeral) : n.SameForm (n.pushInteger d) := by
  have hpush := sameForm_push d n
  unfold pushInteger
  generalize n.push d = pushed at *
  obtain ⟨m, fits⟩ := pushed
  cases fits <;> exact hpush

theorem sameForm_pushFraction (d : ℕ) (n : Numeral) : n.SameForm (n.pushFraction d) := by
  have hpush := sameForm_push d n
  unfold pushFraction
  generalize n.push d = pushed at *
  obtain ⟨m, fits⟩ := pushed
  cases fits <;> exact hpush

theorem sameForm_foldDigits {push : ℕ → Numeral → Numeral}
    (h : ∀ (d : ℕ) (n : Numeral), n.SameForm (push d n)) (cs : List Char) (n : Numeral) :
    n.SameForm (foldDigits push cs n) := by
  induction cs generalizing n with
  | nil => exact ⟨rfl, rfl⟩
  | cons c cs ih => exact (h _ n).trans (ih _)

/-! ### What is kept of any count of digits -/

theorem Keeps.exists_pushInteger {whole dropped d : ℕ} (h : n.Keeps whole dropped) (hd : d < 10) :
    ∃ k, (n.pushInteger d).Keeps (10 * whole + d) k := by
  obtain ⟨m, fits, hpush, -, -, hkeeps⟩ := exists_push h hd
  unfold pushInteger
  rw [hpush]
  cases fits with
  | true => exact ⟨_, hkeeps⟩
  | false => exact ⟨_, hkeeps.shiftExponent 1⟩

theorem Keeps.exists_pushFraction {whole dropped d : ℕ} (h : n.Keeps whole dropped) (hd : d < 10) :
    ∃ k, (n.pushFraction d).Keeps (10 * whole + d) k := by
  obtain ⟨m, fits, hpush, -, -, hkeeps⟩ := exists_push h hd
  unfold pushFraction
  rw [hpush]
  cases fits with
  | true => exact ⟨_, hkeeps.shiftExponent (-1)⟩
  | false => exact ⟨_, hkeeps⟩

/-- However many digits there are, a numeral keeps the number that they denote. -/
theorem Keeps.exists_foldDigits {push : ℕ → Numeral → Numeral}
    (hpush : ∀ {n : Numeral} {whole dropped d : ℕ}, n.Keeps whole dropped → d < 10 →
      ∃ k, (push d n).Keeps (10 * whole + d) k)
    {whole dropped : ℕ} (h : n.Keeps whole dropped) (hds : IsDigits ds) :
    ∃ k, (foldDigits push ds n).Keeps (Nat.ofDigitChars 10 ds whole) k := by
  induction ds generalizing n whole dropped with
  | nil => exact ⟨dropped, h⟩
  | cons d ds ih =>
    obtain ⟨hd, hds⟩ := hds.of_cons
    obtain ⟨k, hk⟩ := hpush h (Decimal.digit_lt_ten hd)
    rw [foldDigits_cons, Nat.ofDigitChars_cons]
    exact ih hk hds

end Numeral

namespace NumberLiteral

variable (l : NumberLiteral)

theorem length_digits_le : (l.integer.chars ++ l.fractionDigits).length ≤ l.text.length := by
  have hf : l.fractionDigits.length ≤ l.fractionText.length := by
    unfold fractionDigits fractionText
    cases l.fraction with
    | none => exact le_rfl
    | some ds => exact Nat.le_succ _
  simp only [text, List.length_append]
  omega

theorem holds_fractionNumeral (hlen : l.text.length < 2 ^ 62) :
    l.fractionNumeral.Holds l.negative (l.integer.chars ++ l.fractionDigits)
      l.fractionDigits.length := by
  have hlen := l.length_digits_le.trans_lt hlen
  have hint : l.integerNumeral.Holds l.negative l.integer.chars 0 := by
    refine (Numeral.holds_new l.negative).fold_integer l.integer.isDigits ?_
    simp only [List.length_append, List.nil_append] at hlen ⊢
    omega
  unfold fractionNumeral
  unfold fractionDigits at hlen ⊢
  cases hf : l.fraction with
  | none =>
    rw [List.append_nil]
    exact hint
  | some ds =>
    rw [hf] at hlen
    have := hint.asFloat.fold_fraction ds.isDigits (Nat.zero_le _) hlen
    rw [Nat.zero_add] at this
    exact this

variable {l} in
/-- No two counts of digits are the fewest that have to be left out. -/
theorem dropped_eq {n : Numeral} {k : ℕ} (h : n.Keeps l.significand k) : l.dropped = k := by
  refine (Nat.find_eq_iff _).mpr ⟨?_, fun j hj => not_lt.mpr (h.size_le hj)⟩
  rw [← h.mantissa_eq]
  exact UInt64.toNat_lt_size _

theorem sameForm_integerNumeral : (Numeral.new l.negative).SameForm l.integerNumeral :=
  Numeral.sameForm_foldDigits Numeral.sameForm_pushInteger _ _

theorem negative_numeral : l.numeral.negative = l.negative := by
  have hint := l.sameForm_integerNumeral.1
  have hfraction : l.fractionNumeral.negative = l.negative := by
    unfold fractionNumeral
    cases l.fraction with
    | none => exact hint
    | some ds =>
      exact (Numeral.sameForm_foldDigits Numeral.sameForm_pushFraction _ _).1.trans hint
  unfold numeral
  cases l.exponent with
  | none => exact hfraction
  | some x => exact hfraction

/-- A numeral is that of an integer iff its literal has no fraction and no exponent. -/
theorem isFloat_eq_false_iff :
    l.numeral.isFloat = false ↔ l.fraction = none ∧ l.exponent = none := by
  unfold numeral
  cases l.exponent with
  | some x => exact iff_of_false Bool.noConfusion fun h => nomatch h.2
  | none =>
    dsimp only
    unfold fractionNumeral
    cases l.fraction with
    | none => exact iff_of_true l.sameForm_integerNumeral.2 ⟨rfl, rfl⟩
    | some ds =>
      have htrue := (Numeral.sameForm_foldDigits Numeral.sameForm_pushFraction ds.chars
        l.integerNumeral.asFloat).2
      refine iff_of_false (fun h => ?_) fun h => nomatch h.1
      cases htrue.symm.trans h

/-- The numeral of a literal of any length keeps as many digits as fit. -/
theorem keeps_numeral : l.numeral.Keeps l.significand l.dropped := by
  obtain ⟨i, hi⟩ : ∃ k, l.integerNumeral.Keeps (Nat.ofDigitChars 10 l.integer.chars 0) k :=
    (Numeral.keeps_new l.negative).exists_foldDigits Numeral.Keeps.exists_pushInteger
      l.integer.isDigits
  obtain ⟨k, hk⟩ : ∃ k, l.fractionNumeral.Keeps l.significand k := by
    unfold fractionNumeral significand fractionDigits
    cases l.fraction with
    | none => exact ⟨i, by rwa [List.append_nil]⟩
    | some ds =>
      rw [Nat.ofDigitChars_append]
      exact hi.asFloat.exists_foldDigits Numeral.Keeps.exists_pushFraction ds.isDigits
  rw [dropped_eq hk]
  unfold numeral
  cases l.exponent with
  | none => exact hk
  | some x => exact hk.asFloat.shiftExponent _

/-- Nothing is left out of a literal whose mantissa is zero. -/
theorem truncated_eq_false (h : l.numeral.mantissa.toNat = 0) : l.numeral.truncated = false := by
  rw [← Bool.not_eq_true, l.keeps_numeral.truncated_iff, l.keeps_numeral.dropped_eq_zero h]
  simp

/-- The exponent of the numeral is that of the last digit it keeps, unless both are far out of
reach. -/
theorem sameReach_exponent (hlen : l.text.length < 2 ^ 62) :
    SameReach (2 ^ 61) l.numeral.exponent.toInt (l.dropped + l.power) := by
  obtain ⟨-, k, hk, hkeeps, hexp⟩ := l.holds_fractionNumeral hlen
  have hdigits := l.length_digits_le.trans_lt hlen
  have hplaces : l.fractionDigits.length ≤ (l.integer.chars ++ l.fractionDigits).length := by
    rw [List.length_append]
    omega
  have hmin := Int64.toInt_minValue
  have hmax := Int64.toInt_maxValue
  rw [dropped_eq hkeeps]
  unfold numeral power
  cases l.exponent with
  | none => exact Or.inl (by rw [hexp]; ring)
  | some x =>
    have hkept : x.kept.toInt = min (x.digits.value : ℤ) Int64.maxValue.toInt :=
      Numeral.toInt_fold_exponent x.digits.isDigits (by decide)
    dsimp only [Numeral.scale, Numeral.shiftExponent, Numeral.asFloat, ExponentPart.value]
    rw [Integer.toInt_saturate, hexp, hkept]
    unfold SameReach
    split <;> omega

/-- The integer that is read, of a literal of any length. -/
theorem integer?_eq_some_iff {i : Int64} :
    l.numeral.integer? = some i ↔ (l.fraction = none ∧ l.exponent = none) ∧
      (if l.negative then -(l.significand : ℤ) else l.significand) = i.toInt := by
  have hkeeps := l.keeps_numeral
  have hsize : UInt64.size = 2 ^ 64 := rfl
  have hmin := Int64.toInt_minValue
  have hlo := i.minValue_le_toInt
  have hhi := i.toInt_lt
  have hfits : l.dropped = 0 ↔ l.numeral.overflowed = false := by
    rw [← Bool.not_eq_true, hkeeps.overflowed_iff, Nat.pos_iff_ne_zero, not_not]
  have hread : l.dropped = 0 → ((if l.numeral.negative then -(l.numeral.mantissa.toNat : ℤ) else
      l.numeral.mantissa.toNat) = if l.negative then -(l.significand : ℤ) else l.significand) := by
    intro h
    rw [l.negative_numeral, hkeeps.mantissa_eq, h, pow_zero, Nat.div_one]
  unfold Numeral.integer?
  split
  case isTrue hplain =>
    refine iff_of_false nofun ?_
    rintro ⟨hnone, hi⟩
    have hzero : l.dropped = 0 := dropped_eq_zero (by split at hi <;> omega)
    rw [l.isFloat_eq_false_iff.mpr hnone, hfits.mp hzero] at hplain
    cases hplain
  case isFalse hplain =>
    obtain ⟨hfloat, hoverflowed⟩ := Bool.or_eq_false_iff.mp (Bool.eq_false_iff.mpr hplain)
    rw [Integer.ofInt?_eq_some_iff, hread (hfits.mpr hoverflowed), eq_comm]
    exact (and_iff_right (l.isFloat_eq_false_iff.mp hfloat)).symm

/-- A literal without a fraction and an exponent, and no other, is read as the integer of 64 bits
that it is. -/
theorem token_eq_integer_iff {i : Int64} :
    l.token = .ok (.integer i) ↔ (l.fraction = none ∧ l.exponent = none) ∧
      (if l.negative then -(l.significand : ℤ) else l.significand) = i.toInt := by
  rw [← integer?_eq_some_iff, token, Numeral.token]
  cases l.numeral.integer? with
  | some j => simp
  | none => cases l.numeral.float <;> simp [Except.map]

variable {l} in
/-- Without a fraction and an exponent, the digits are the value. -/
theorem magnitude_eq_significand (h : l.fraction = none ∧ l.exponent = none) :
    l.magnitude = l.significand := by
  rw [magnitude, power, h.2, fractionDigits, h.1]
  exact mul_one _

/-- A literal that is no integer is read as the number nearest to what is kept of it. -/
theorem roundsFrom_token (hlen : l.text.length < 2 ^ 62) (hint : l.numeral.integer? = none) :
    l.RoundsFrom l.keptMagnitude l.token := by
  have hkeeps := l.keeps_numeral
  have hexp := l.sameReach_exponent hlen
  have halike : RoundAlike l.numeral.decimal.value l.keptMagnitude := by
    refine hkeeps.roundAlike ?_
    unfold SameReach at *
    omega
  refine ⟨l.numeral.decimal.toBinary64 l.negative,
    (Decimal.isNearest_toBinary64 l.negative _).congr halike, ?_⟩
  rw [token, Numeral.token, hint, Numeral.float_eq l.truncated_eq_false, l.negative_numeral]
  dsimp only
  split <;> rfl

theorem integer?_eq_none (h : ∀ i, l.token ≠ .ok (.integer i)) : l.numeral.integer? = none :=
  Option.eq_none_iff_forall_ne_some.mpr fun i hi =>
    h i (l.token_eq_integer_iff.mpr (l.integer?_eq_some_iff.mp hi))

/-- A literal whose digits are all kept is read if it is below the last midpoint. -/
theorem token_ne_of_lt (hlen : l.text.length < 2 ^ 62) (hfit : l.significand < UInt64.size)
    (hlt : l.magnitude < midpointAt (infinityCode - 1)) : l.token ≠ .error .numberOutOfRange := by
  intro herror
  have hint := l.integer?_eq_none fun i hi => by rw [hi] at herror; cases herror
  obtain ⟨f, hf, htoken⟩ := l.roundsFrom_token hlen hint
  rw [keptMagnitude_of_dvd (by rw [dropped_eq_zero hfit, pow_zero]; exact one_dvd _)] at hf
  rw [htoken, if_pos (hf.isFinite hlt)] at herror
  cases herror

end NumberLiteral

theorem scan_literal (l : NumberLiteral) {u : List Char} (hu : l.EndsBefore u) (n : ℕ)
    (peeked : Bool) :
    Token.scan ⟨Answer.chars (l.text ++ u), n, peeked⟩ =
      TokenState.settled u (n + l.text.length) l.token :=
  TokenState.read_literal l hu n

/-- A literal that is not read as an integer is read, to its end, as the number nearest to what is
kept of it.  This is the number nearest to the literal iff no midpoint between neighbours lies
between the literal and what is kept of it. -/
theorem scan_rounds_kept (l : NumberLiteral) (hlen : l.text.length < 2 ^ 62) {u : List Char}
    (hu : l.EndsBefore u) (n : ℕ) (peeked : Bool)
    (hint : ∀ i cur, Token.scan ⟨Answer.chars (l.text ++ u), n, peeked⟩ ≠ .ok (.integer i) cur) :
    ∃ r, Token.scan ⟨Answer.chars (l.text ++ u), n, peeked⟩ =
        TokenState.settled u (n + l.text.length) r ∧
      l.RoundsFrom l.keptMagnitude r ∧
      (l.RoundsFrom l.magnitude r ↔ RoundAlike l.keptMagnitude l.magnitude) := by
  have hscan := scan_literal l hu n peeked
  have htoken : ∀ i, l.token ≠ .ok (.integer i) := by
    intro i hi
    rw [hi] at hscan
    exact hint i _ hscan
  have hkept := l.roundsFrom_token hlen (l.integer?_eq_none htoken)
  exact ⟨l.token, hscan, hkept, fun hl => hkept.roundAlike hl, fun h => hkept.congr h⟩

/-- A literal that is separated from what is kept of it: the midpoint `2 ^ 64 + 2 ^ 11` is one less
than the literal. -/
def aboveMidpoint : NumberLiteral where
  negative := false
  integer := ⟨"18446744073709553665".toList, fun _ => List.all_eq_true.mp (by decide) _, by decide⟩
  no_leading_zero := by decide
  fraction := none
  exponent := none

theorem midpointAt_aboveMidpoint : midpointAt 0x43F0000000000000 = 2 ^ 64 + 2 ^ 11 := by
  obtain ⟨k, hk⟩ : ∃ k, k = 1074 := ⟨_, rfl⟩
  have hlow : 0x43F0000000000000 = stride * (k + 12) + stride := by rw [hk]; decide
  have hhigh : 0x43F0000000000000 + 1 = stride * (k + 12) + (stride + 1) := by rw [hk]; decide
  have hstride : (stride : ℚ) = 2 ^ 52 := by norm_num [stride]
  rw [midpointAt, valueAt, valueAt, hhigh, hlow, unitsAt_of_steps (by decide) (Or.inl le_rfl),
    unitsAt_of_steps (by decide) (Or.inl (by decide)), unitsPerOne_eq, ← hk]
  generalize stride = steps at *
  push_cast
  rw [hstride, pow_add]
  field_simp
  norm_num

theorem scan_aboveMidpoint :
    ∃ r, Token.scan ⟨Answer.chars (aboveMidpoint.text ++ []), 0, false⟩ =
        TokenState.settled [] (0 + aboveMidpoint.text.length) r ∧
      aboveMidpoint.RoundsFrom aboveMidpoint.keptMagnitude r ∧
      ¬ aboveMidpoint.RoundsFrom aboveMidpoint.magnitude r := by
  have hends : aboveMidpoint.EndsBefore [] := nofun
  have hint : ∀ i cur, Token.scan ⟨Answer.chars (aboveMidpoint.text ++ []), 0, false⟩ ≠
      .ok (.integer i) cur := by
    intro i cur h
    have hnone : aboveMidpoint.numeral.integer? = none := by decide +kernel
    rw [scan_literal _ hends, TokenState.settled_eq_ok_iff, NumberLiteral.token, Numeral.token,
      hnone] at h
    cases hf : aboveMidpoint.numeral.float <;> rw [hf] at h <;> cases h.1
  obtain ⟨r, hscan, hkept, hiff⟩ :=
    scan_rounds_kept aboveMidpoint (by decide) hends 0 false hint
  refine ⟨r, hscan, hkept, fun h => ?_⟩
  have hwhole : aboveMidpoint.significand = 18446744073709553665 := by decide +kernel
  have hdropped : aboveMidpoint.dropped = 1 := by
    refine (Nat.find_eq_iff _).mpr ⟨?_, fun j hj => ?_⟩
    · rw [hwhole]
      decide
    · obtain rfl : j = 0 := by omega
      rw [hwhole]
      decide
  have hpower : aboveMidpoint.power = 0 := rfl
  have hbelow : RoundsAtMost aboveMidpoint.keptMagnitude 0x43F0000000000000 := by
    left
    rw [midpointAt_aboveMidpoint, NumberLiteral.keptMagnitude, hdropped, hwhole, hpower]
    norm_num
  have habove := (hiff.mp h _ (by decide)).mp hbelow
  unfold RoundsAtMost at habove
  rw [midpointAt_aboveMidpoint, NumberLiteral.magnitude, hwhole, hpower] at habove
  norm_num at habove

end JsonDoc

import JsonDoc.Dump.Scraped
import JsonDoc.Proofs.Dump.Number

/-!
# What is read off a text is what it was made of

The digits and the exponent of a text in scientific notation are read back, in whatever pieces the
text is handed over (`Scraped.reads_scientific`).  Comparing, cutting off and leaving out zeros by the
characters comes to the same as by the numbers that they denote, so what is read off is what is
written (`Magnitude.reads_scrapeWritten`).
-/

namespace JsonDoc

variable {s : Scraped} {d : Significant} {ds : List Char} {count : ℕ}

namespace Scraped

/-! ### One text -/

theorem ofPieces_eq (pieces : List (List Char)) : ofPieces pieces = pieces.flatten.foldl push empty :=
  List.foldl_flatten.symm

theorem push_of_isDigit {c : Char} (hc : c.isDigit) (s : Scraped) :
    s.push c =
      if s.inExponent then
        { s with exponentMagnitude := Numeral.pushExponent (c.toNat - 48) s.exponentMagnitude }
      else if s.digits.length < mostPrecision then { s with digits := s.digits ++ [c] }
      else s := by
  have he : ¬(c = 'e' ∨ c = 'E') := by
    rintro (rfl | rfl) <;> exact absurd hc (by decide)
  have hminus : ¬(c = '-' ∧ s.inExponent) := by
    rintro ⟨rfl, -⟩
    exact absurd hc (by decide)
  rw [push, if_neg he, if_neg hminus, Decimal.digit?_of_isDigit hc]

/-- Digits before the letter are kept, as long as there is room for them. -/
theorem foldl_push_digits (hds : IsDigits ds) (hs : s.inExponent = false)
    (hlen : s.digits.length + ds.length ≤ mostPrecision) :
    ds.foldl push s = { s with digits := s.digits ++ ds } := by
  induction ds generalizing s with
  | nil => rw [List.append_nil, List.foldl_nil]
  | cons c ds ih =>
    rw [List.length_cons] at hlen
    obtain ⟨hc, hds⟩ := hds.of_cons
    have hpush : s.push c = { s with digits := s.digits ++ [c] } := by
      rw [push_of_isDigit hc, hs, if_neg (by decide), if_pos (by omega)]
    rw [List.foldl_cons, hpush, ih hds]
    · rw [List.append_assoc, List.singleton_append]
    · exact hs
    · rw [List.length_append, List.length_singleton]
      omega

/-- Digits behind the letter are those of the exponent. -/
theorem foldl_push_exponent (hds : IsDigits ds) (hs : s.inExponent = true) :
    ds.foldl push s =
      { s with exponentMagnitude := foldDigits Numeral.pushExponent ds s.exponentMagnitude } := by
  induction ds generalizing s with
  | nil => rfl
  | cons c ds ih =>
    obtain ⟨hc, hds⟩ := hds.of_cons
    rw [List.foldl_cons, push_of_isDigit hc, if_pos hs, ih hds, foldDigits_cons]
    exact hs

/-- The digits and the exponent that have been read are those of a decimal. -/
structure Reads (s : Scraped) (d : Significant) : Prop where
  digits_eq : s.digits = Nat.toDigits 10 d.coefficient
  exponent_eq : s.exponent = d.exponent

/-- The exponent is read, with its sign. -/
theorem reads_exponent (hs : s = ⟨Nat.toDigits 10 d.coefficient, true, false, 0⟩)
    (hexponent : d.exponent.natAbs < 2 ^ 63) :
    ((Integer.text d.exponent).foldl push s).Reads d := by
  have hvalue : (foldDigits Numeral.pushExponent (Nat.toDigits 10 d.exponent.natAbs) 0).toInt =
      d.exponent.natAbs := by
    have hmax := Int64.toInt_maxValue
    rw [Numeral.toInt_fold_exponent (isDigits_toDigits _) (a := 0) (by decide),
      Nat.ofDigitChars_ten_toDigits]
    omega
  subst hs
  rw [Integer.text]
  split
  case isTrue hneg =>
    rw [List.foldl_cons, foldl_push_exponent (isDigits_toDigits _) rfl]
    refine ⟨rfl, ?_⟩
    change -(foldDigits Numeral.pushExponent _ 0).toInt = _
    omega
  case isFalse hneg =>
    rw [foldl_push_exponent (isDigits_toDigits _) rfl]
    refine ⟨rfl, ?_⟩
    change (foldDigits Numeral.pushExponent _ 0).toInt = _
    omega

/-- The point is left out. -/
theorem push_point (s : Scraped) : s.push '.' = s := by
  rw [push, if_neg (by decide), if_neg fun h => absurd h.1 (by decide)]
  rfl

theorem foldl_push_mantissa (hds : IsDigits ds) (hlen : ds.length ≤ mostPrecision) :
    (ds.take 1 ++ if ds.drop 1 = [] then [] else '.' :: ds.drop 1).foldl push empty =
      ⟨ds, false, false, 0⟩ := by
  have hsplit := List.take_append_drop 1 ds
  have htake : IsDigits (ds.take 1) := fun c hc => hds c (List.mem_of_mem_take hc)
  have hdrop : IsDigits (ds.drop 1) := fun c hc => hds c (List.mem_of_mem_drop hc)
  have hlength : (ds.take 1).length + (ds.drop 1).length = ds.length := by
    rw [← List.length_append, hsplit]
  generalize ds.take 1 = first, ds.drop 1 = fraction at *
  rw [List.foldl_append, foldl_push_digits htake rfl]
  · split
    case isTrue hnil =>
      rw [hnil, List.append_nil] at hsplit
      rw [← hsplit]
      rfl
    case isFalse =>
      rw [List.foldl_cons, push_point, foldl_push_digits hdrop rfl]
      · rw [← hsplit]
        rfl
      · change first.length + fraction.length ≤ mostPrecision
        omega
  · change 0 + first.length ≤ mostPrecision
    omega

/-- A text in scientific notation is read back, if there is room for its digits and its exponent. -/
theorem reads_scientific {pieces : List (List Char)} (hpieces : pieces.flatten = d.scientific)
    (hlen : decimalLength d.coefficient ≤ mostPrecision) (hexponent : d.exponent.natAbs < 2 ^ 63) :
    (ofPieces pieces).Reads d := by
  rw [ofPieces_eq, hpieces, Significant.scientific, List.foldl_append,
    foldl_push_mantissa (isDigits_toDigits _) hlen, List.foldl_cons]
  exact reads_exponent rfl hexponent

/-- A text in three pieces. -/
example : (ofPieces [['1', '.'], ['2', '5', 'e'], ['-', '7']]).digits = ['1', '2', '5'] ∧
    (ofPieces [['1', '.'], ['2', '5', 'e'], ['-', '7']]).exponent = -7 := by
  decide

/-! ### Digits by their characters -/

/-- Digits are compared by their characters as the numbers that they denote are. -/
theorem Reads.overflows_eq (h : s.Reads d) (hlen : decimalLength d.coefficient = count)
    (hcount : count ≤ mostPrecision) : s.overflows = d.overflows count := by
  have hdigits := isDigits_toDigits d.coefficient
  have hvalue : Nat.ofDigitChars 10 (Nat.toDigits 10 d.coefficient ++
      List.replicate (mostPrecision - count) '0') 0 =
        d.coefficient * 10 ^ (mostPrecision - count) := by
    rw [Nat.ofDigitChars_append, Nat.ofDigitChars_ten_toDigits, Nat.ofDigitChars_replicate_zero,
      mul_comm]
  have hlonger : (Nat.toDigits 10 largestCoefficient).length =
      (Nat.toDigits 10 d.coefficient ++ List.replicate (mostPrecision - count) '0').length := by
    rw [List.length_append, List.length_replicate, ← decimalLength, ← decimalLength, hlen]
    have hlargest : decimalLength largestCoefficient = mostPrecision := by decide +kernel
    omega
  have hlt := ofDigitChars_lt_iff (isDigits_toDigits largestCoefficient)
    (hdigits.append (isDigits_replicate_zero _)) hlonger 0
  rw [hvalue, Nat.ofDigitChars_ten_toDigits] at hlt
  have hlength : s.digits.length = count := by
    rw [h.digits_eq]
    exact hlen
  rw [overflows, Significant.overflows, h.exponent_eq, hlength, h.digits_eq, tenPow_eq]
  by_cases heq : d.exponent = largestExponent
  · rw [if_pos heq]
    simp [heq, hlt]
  · rw [if_neg heq]
    simp [heq]

theorem lengthWithoutZeros_append (hne : ds ≠ []) (hlast : ds.getLast? ≠ some '0') {k zeros : ℕ}
    (hk : k ≤ zeros) :
    lengthWithoutZeros (ds ++ List.replicate zeros '0') (ds.length + k) = ds.length := by
  have hpos := List.length_pos_iff.mpr hne
  induction k with
  | zero =>
    rw [Nat.add_zero]
    rcases hlen : ds.length with _ | _ | len
    · omega
    · rfl
    · have hchar : (ds ++ List.replicate zeros '0')[len + 1]? = ds.getLast? := by
        rw [List.getElem?_append_left (by omega), List.getLast?_eq_getElem?, hlen]
        rfl
      rw [lengthWithoutZeros, hchar, if_neg hlast]
  | succ k ih =>
    obtain ⟨len, hlen⟩ : ∃ len, ds.length = len + 1 := ⟨ds.length - 1, by omega⟩
    have hchar : (ds ++ List.replicate zeros '0')[len + k + 1]? = some '0' := by
      rw [List.getElem?_append_right (by omega), List.getElem?_replicate, if_pos (by omega)]
    have hstep := ih (by omega)
    rw [show ds.length + k = len + k + 1 by omega] at hstep
    rw [show ds.length + (k + 1) = len + k + 2 by omega, lengthWithoutZeros, if_pos hchar, hstep]

/-- The zeros at the end are those that stripped digits leave out. -/
theorem Reads.withoutZeros_eq (h : s.Reads d) (hpos : 0 < d.coefficient) :
    s.withoutZeros = Dump.strippedDigits d.coefficient := by
  obtain ⟨-, hne, -, hlast, zeros, hzeros⟩ := Dump.strips_strippedDigits hpos
  have hlength : (Nat.toDigits 10 d.coefficient).length =
      (Dump.strippedDigits d.coefficient).length + zeros := by
    rw [hzeros, List.length_append, List.length_replicate]
  rw [withoutZeros, h.digits_eq, hlength, hzeros, lengthWithoutZeros_append hne hlast le_rfl,
    List.take_left]

/-- Digits that are cut off are those of a quotient. -/
theorem Reads.take (h : s.Reads d) (hpos : 0 < d.coefficient) (hcount : 0 < count)
    (hle : count ≤ decimalLength d.coefficient) :
    Reads { s with digits := s.digits.take count }
      ⟨d.coefficient / 10 ^ (decimalLength d.coefficient - count), d.exponent⟩ :=
  ⟨by rw [h.digits_eq, take_toDigits hpos hcount hle], h.exponent_eq⟩

end Scraped

/-! ### The digits of a magnitude -/

namespace Magnitude

variable {m : Magnitude}

theorem decimalLength_significant (hm : m.code ≠ 0) (hpos : 0 < count) :
    decimalLength (m.significant count).coefficient = count := by
  obtain ⟨hlow, hhigh⟩ := significant_coefficient hm hpos
  exact decimalLength_eq hlow hhigh hpos

/-- The digits of a magnitude are read off its text, in whatever pieces it is handed over. -/
theorem reads_ofPieces (hm : m.code ≠ 0) (hpos : 0 < count) (hcount : count ≤ mostPrecision)
    {pieces : List (List Char)} (hpieces : pieces.flatten = (m.significant count).scientific) :
    (Scraped.ofPieces pieces).Reads (m.significant count) := by
  refine Scraped.reads_scientific hpieces ((decimalLength_significant hm hpos).trans_le hcount) ?_
  have hlow := m.le_leadingExponent
  have hhigh : m.leadingExponent ≤ 308 := leadingExponent_le hm
  rw [significant_eq]
  split <;> dsimp only <;> omega

theorem reads_scrape (hm : m.code ≠ 0) (hpos : 0 < count) (hcount : count ≤ mostPrecision) :
    (m.scrape count).Reads (m.significant count) :=
  reads_ofPieces hm hpos hcount List.flatten_singleton

/-- What a magnitude is written with is read off its text. -/
theorem reads_scrapeWritten (hm : m.code ≠ 0) (hpos : 0 < count) (hcount : count ≤ mostPrecision) :
    (m.scrapeWritten count).Reads (m.written count) := by
  have hrounded := reads_scrape hm hpos hcount
  rw [scrapeWritten, written, hrounded.overflows_eq (decimalLength_significant hm hpos) hcount]
  dsimp only
  split
  case isTrue =>
    have hfull := reads_scrape hm (by decide) (le_refl mostPrecision)
    have hlength := decimalLength_significant hm (show 0 < mostPrecision by decide)
    have hlow := (significant_coefficient hm (show 0 < mostPrecision by decide)).1
    have hcut := hfull.take ((Nat.pow_pos (by decide)).trans_le hlow) hpos (hcount.trans hlength.ge)
    rwa [hlength] at hcut
  case isFalse => exact hrounded

/-- The digits without the zeros at their end are read off as well. -/
theorem withoutZeros_scrapeWritten (hm : m.code ≠ 0) (hpos : 0 < count)
    (hcount : count ≤ mostPrecision) :
    (m.scrapeWritten count).withoutZeros = Dump.strippedDigits (m.written count).coefficient :=
  (reads_scrapeWritten hm hpos hcount).withoutZeros_eq
    (isWritten_written hm hpos hcount).coefficient_pos

end Magnitude

end JsonDoc

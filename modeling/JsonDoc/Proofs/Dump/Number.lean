import Mathlib.Data.List.TakeWhile
import JsonDoc.Proofs.Dump.Quotation
import JsonDoc.Proofs.Dump.Written
import JsonDoc.Proofs.Token.Rounding

/-!
# The text of numbers is a literal

A finite number other than zero is written as a literal, in each of the three layouts, whose value
is that of its significant digits (`Dump.exists_writesDigits`), with no zero at the end of a fraction
(`Dump.IsTidy`).  So the literal is never out of range (`Dump.WritesMagnitude.token_ne`), and that of
an integer is read as the integer (`Dump.exists_integer_literal`).
-/

namespace JsonDoc

namespace Dump

/-! ### Digits without trailing zeros -/

/-- Digits, neither starting nor ending with zero, of a number but for the zeros at its end. -/
structure Strips (ds : List Char) (n : ℕ) : Prop where
  isDigits : IsDigits ds
  ne_nil : ds ≠ []
  head?_ne : ds.head? ≠ some '0'
  getLast?_ne : ds.getLast? ≠ some '0'
  exists_zeros : ∃ zeros, Nat.toDigits 10 n = ds ++ List.replicate zeros '0'

theorem strips_strippedDigits {n : ℕ} (hn : 0 < n) : Strips (strippedDigits n) n := by
  obtain ⟨zeros, hzeros⟩ : ∃ zeros, (Nat.toDigits 10 n).reverse.takeWhile (· == '0') =
      List.replicate zeros '0' :=
    ⟨_, List.eq_replicate_of_mem fun c hc => by simpa using (List.mem_takeWhile_imp hc)⟩
  have hsplit : Nat.toDigits 10 n =
      ((Nat.toDigits 10 n).reverse.dropWhile (· == '0')).reverse ++ List.replicate zeros '0' := by
    rw [← List.reverse_replicate, ← hzeros, ← List.reverse_append, List.takeWhile_append_dropWhile,
      List.reverse_reverse]
  have hne : (Nat.toDigits 10 n).reverse.dropWhile (· == '0') ≠ [] := by
    intro hnil
    have hvalue := @Nat.ofDigitChars_ten_toDigits n
    rw [hsplit, hnil, List.reverse_nil, List.nil_append, Nat.ofDigitChars_replicate_zero,
      mul_zero] at hvalue
    exact hn.ne hvalue
  have hstripped : strippedDigits n =
      ((Nat.toDigits 10 n).reverse.dropWhile (· == '0')).reverse := by
    unfold strippedDigits
    split
    case h_1 hnil => exact absurd hnil hne
    case h_2 => rfl
  have hlast : ((Nat.toDigits 10 n).reverse.dropWhile (· == '0')).head? ≠ some '0' := by
    intro hzero
    have := List.head?_dropWhile_not (· == '0') (Nat.toDigits 10 n).reverse
    rw [hzero] at this
    cases this
  rw [hstripped]
  generalize (Nat.toDigits 10 n).reverse.dropWhile (· == '0') = kept at *
  refine ⟨?_, by simpa using hne, ?_, by rwa [List.getLast?_reverse], zeros, hsplit⟩
  · intro c hc
    exact isDigits_toDigits n c (hsplit ▸ List.mem_append_left _ hc)
  · have hhead := head?_toDigits_ne hn
    rwa [hsplit, List.head?_append_of_ne_nil _ (by simpa using hne)] at hhead

/-! ### Literals -/

/-- Digits behind the point, if there are any. -/
def fractionOf (cs : List Char) (h : IsDigits cs) : Option Digits :=
  if hne : cs = [] then none else some ⟨cs, h, hne⟩

theorem fractionText_fractionOf {l : NumberLiteral} {cs : List Char} {h : IsDigits cs}
    (hl : l.fraction = fractionOf cs h) :
    l.fractionText = if cs = [] then [] else '.' :: cs := by
  unfold NumberLiteral.fractionText
  by_cases hne : cs = []
  · rw [hl, fractionOf, dif_pos hne, if_pos hne]
  · rw [hl, fractionOf, dif_neg hne, if_neg hne]

theorem fractionDigits_fractionOf {l : NumberLiteral} {cs : List Char} {h : IsDigits cs}
    (hl : l.fraction = fractionOf cs h) : l.fractionDigits = cs := by
  unfold NumberLiteral.fractionDigits
  by_cases hne : cs = []
  · rw [hl, fractionOf, dif_pos hne, hne]
  · rw [hl, fractionOf, dif_neg hne]

theorem chars_of_mem_fractionOf {cs : List Char} {h : IsDigits cs} {fs : Digits}
    (hfs : fs ∈ fractionOf cs h) : fs.chars = cs := by
  unfold fractionOf at hfs
  split at hfs
  · cases hfs
  · cases hfs
    rfl

theorem getLast?_drop_ne {ds : List Char} {c : Char} (h : ds.getLast? ≠ some c) (k : ℕ) :
    (ds.drop k).getLast? ≠ some c := by
  rw [List.getLast?_drop]
  split
  · exact nofun
  · exact h

/-- The digits of an exponent, at least two. -/
def exponentDigits (exponent : ℤ) : Digits where
  chars := if (Nat.toDigits 10 exponent.natAbs).length < 2 then
    '0' :: Nat.toDigits 10 exponent.natAbs else Nat.toDigits 10 exponent.natAbs
  isDigits := by
    have h := isDigits_toDigits exponent.natAbs
    split
    · exact List.forall_mem_cons.mpr ⟨by decide, h⟩
    · exact h
  ne_nil := by
    split
    · exact List.cons_ne_nil _ _
    · exact Nat.toDigits_ne_nil

theorem two_le_length_exponentDigits (exponent : ℤ) :
    2 ≤ (exponentDigits exponent).chars.length := by
  have hpos := List.length_pos_iff.mpr (@Nat.toDigits_ne_nil exponent.natAbs 10)
  unfold exponentDigits
  dsimp only
  split
  · rw [List.length_cons]
    omega
  · omega

theorem value_exponentDigits (exponent : ℤ) :
    (exponentDigits exponent).value = exponent.natAbs := by
  unfold Digits.value exponentDigits
  dsimp only
  split
  · rw [Nat.ofDigitChars_cons]
    exact Nat.ofDigitChars_ten_toDigits
  · exact Nat.ofDigitChars_ten_toDigits

/-- An exponent, as it is written. -/
def exponentPart (exponent : ℤ) : ExponentPart where
  letter := 'e'
  letter_eq := Or.inl rfl
  sign := some (if exponent < 0 then '-' else '+')
  sign_eq := by
    intro c hc
    cases hc
    split
    · exact Or.inl rfl
    · exact Or.inr rfl
  digits := exponentDigits exponent

theorem text_exponentPart (exponent : ℤ) :
    (exponentPart exponent).text = 'e' :: exponentText exponent := rfl

theorem value_exponentPart (exponent : ℤ) : (exponentPart exponent).value = exponent := by
  have hdigits := value_exponentDigits exponent
  unfold ExponentPart.value ExponentPart.negative
  rw [show (exponentPart exponent).digits = exponentDigits exponent from rfl, hdigits,
    show (exponentPart exponent).sign = some (if exponent < 0 then '-' else '+') from rfl]
  by_cases h : exponent < 0
  · rw [if_pos h, if_pos (by decide)]
    omega
  · rw [if_neg h, if_neg (by decide)]
    omega

/-- Where a literal has an exponent, one digit other than zero stands before the point, and the
exponent has a sign and at least two digits.  What stands behind the point does not end with
zero. -/
structure IsTidy (l : NumberLiteral) : Prop where
  integer_of_exponent : ∀ x ∈ l.exponent, ∃ d, l.integer.chars = [d] ∧ d ≠ '0'
  sign_of_exponent : ∀ x ∈ l.exponent, x.sign.isSome
  digits_of_exponent : ∀ x ∈ l.exponent, 2 ≤ x.digits.chars.length
  fraction_getLast?_ne : ∀ fs ∈ l.fraction, fs.chars.getLast? ≠ some '0'

theorem IsTidy.of_exponent_eq_none {l : NumberLiteral} (h : l.exponent = none)
    (hlast : ∀ fs ∈ l.fraction, fs.chars.getLast? ≠ some '0') : IsTidy l where
  integer_of_exponent := by simp [h]
  sign_of_exponent := by simp [h]
  digits_of_exponent := by simp [h]
  fraction_getLast?_ne := hlast

/-- The literal is what digits are written as, of which the first stands for a power of ten. -/
structure WritesDigits (negative : Bool) (ds : List Char) (exponent : ℤ) (l : NumberLiteral) :
    Prop where
  negative_eq : l.negative = negative
  text_eq : l.text = (if negative then ['-'] else []) ++ (digitPieces ds exponent).flatten
  magnitude_eq : l.magnitude = Nat.ofDigitChars 10 ds 0 * 10 ^ (exponent + 1 - ds.length)
  significand_lt : l.significand < 10 ^ max ds.length 9
  exponent_iff : l.exponent.isSome ↔ exponent < -6 ∨ 9 ≤ exponent
  isTidy : IsTidy l

section Layouts

variable {ds : List Char} {exponent : ℤ}

theorem ofDigitChars_lt_pow_max (h : IsDigits ds) :
    Nat.ofDigitChars 10 ds 0 < 10 ^ max ds.length 9 := by
  have hlt := h.ofDigitChars_lt 0
  rw [zero_add, one_mul] at hlt
  exact hlt.trans_le (Nat.pow_le_pow_right (by decide) (le_max_left _ _))

/-- Scientific notation: one digit stands before the point. -/
theorem exists_scientific (negative : Bool) (hds : IsDigits ds) (hne : ds ≠ [])
    (hhead : ds.head? ≠ some '0') (hlast : ds.getLast? ≠ some '0')
    (hexp : exponent < -6 ∨ 9 ≤ exponent) : ∃ l, WritesDigits negative ds exponent l := by
  obtain ⟨d, rest, rfl⟩ := List.exists_cons_of_ne_nil hne
  obtain ⟨hd, hrest⟩ := hds.of_cons
  obtain ⟨l, hl⟩ : ∃ l : NumberLiteral, l = ⟨negative, ⟨[d], by simpa [IsDigits] using hd, by simp⟩,
    fun h => absurd h hhead, fractionOf rest hrest, some (exponentPart exponent)⟩ := ⟨_, rfl⟩
  have hdigits : l.fractionDigits = rest := fractionDigits_fractionOf (by rw [hl])
  have hfraction : l.fractionText = if rest = [] then [] else '.' :: rest :=
    fractionText_fractionOf (by rw [hl])
  have hsignificand : l.significand = Nat.ofDigitChars 10 (d :: rest) 0 := by
    rw [NumberLiteral.significand, hdigits, hl]
    rfl
  have hpieces : digitPieces (d :: rest) exponent = Piece.singles
      ([d] ++ (if rest = [] then [] else '.' :: rest) ++ 'e' :: exponentText exponent) := by
    rw [digitPieces, if_pos hexp]
    rfl
  refine ⟨l, by rw [hl], ?_, ?_, ?_, ?_, ?_⟩
  · rw [NumberLiteral.text, hfraction, hpieces, flatten_singles, hl]
    dsimp only [NumberLiteral.exponentText]
    rw [text_exponentPart]
    simp
  · rw [NumberLiteral.magnitude, hsignificand, NumberLiteral.power, hdigits, hl]
    dsimp only
    rw [value_exponentPart, List.length_cons]
    congr 2
    omega
  · rw [hsignificand]
    exact ofDigitChars_lt_pow_max hds
  · rw [hl]
    exact iff_of_true rfl hexp
  · rw [hl]
    refine ⟨fun x _ => ⟨d, rfl, ?_⟩, ?_, ?_, fun fs hfs => ?_⟩
    · rintro rfl
      exact hhead rfl
    · rintro x ⟨⟩
      rfl
    · rintro x ⟨⟩
      exact two_le_length_exponentDigits exponent
    · rw [chars_of_mem_fractionOf hfs]
      exact getLast?_drop_ne hlast 1

/-- A number below one in positional notation: zeros stand between the point and its digits. -/
theorem exists_fraction (negative : Bool) (hds : IsDigits ds) (hne : ds ≠ [])
    (hlast : ds.getLast? ≠ some '0') (hlow : -6 ≤ exponent) (hneg : exponent < 0) :
    ∃ l, WritesDigits negative ds exponent l := by
  have hall := (isDigits_replicate_zero (exponent.natAbs - 1)).append hds
  obtain ⟨l, hl⟩ : ∃ l : NumberLiteral, l = ⟨negative, ⟨['0'], by simp [IsDigits], by simp⟩,
    fun _ => rfl, some ⟨_, hall, by simp [hne]⟩, none⟩ := ⟨_, rfl⟩
  have hsignificand : l.significand = Nat.ofDigitChars 10 ds 0 := by
    rw [NumberLiteral.significand, hl]
    dsimp only [NumberLiteral.fractionDigits]
    rw [List.singleton_append, Nat.ofDigitChars_cons, Nat.ofDigitChars_append]
    simp
  have hpieces : digitPieces ds exponent =
      ['0', '.'] :: Piece.singles (List.replicate (exponent.natAbs - 1) '0' ++ ds) := by
    rw [digitPieces, if_neg (by omega), if_pos hneg]
  refine ⟨l, by rw [hl], ?_, ?_, ?_, ?_, ?_⟩
  · rw [hpieces, List.flatten_cons, flatten_singles, hl]
    simp [NumberLiteral.text, NumberLiteral.fractionText, NumberLiteral.exponentText]
  · rw [NumberLiteral.magnitude, hsignificand, NumberLiteral.power, hl]
    dsimp only [NumberLiteral.fractionDigits]
    rw [List.length_append, List.length_replicate]
    congr 2
    omega
  · rw [hsignificand]
    exact ofDigitChars_lt_pow_max hds
  · rw [hl]
    exact iff_of_false Bool.false_ne_true (by omega)
  · refine .of_exponent_eq_none (by rw [hl]) ?_
    rw [hl]
    rintro fs ⟨⟩
    dsimp only
    rwa [List.getLast?_append_of_ne_nil _ hne]

/-- Digits with zeros up to so many places. -/
theorem ofDigitChars_places (ds : List Char) (places : ℕ) :
    Nat.ofDigitChars 10 (ds.take places ++ List.replicate (places - ds.length) '0' ++
      ds.drop places) 0 = Nat.ofDigitChars 10 ds 0 * 10 ^ (places - ds.length) := by
  rcases le_total ds.length places with hlen | hlen
  · rw [List.take_of_length_le hlen, List.drop_eq_nil_of_le hlen, List.append_nil,
      Nat.ofDigitChars_append, Nat.ofDigitChars_replicate_zero, mul_comm]
  · rw [Nat.sub_eq_zero_of_le hlen, List.replicate_zero, List.append_nil, List.take_append_drop,
      pow_zero, mul_one]

theorem ofDigitChars_places_lt (hds : IsDigits ds) {places : ℕ} (hplaces : places ≤ 9) :
    Nat.ofDigitChars 10 ds 0 * 10 ^ (places - ds.length) < 10 ^ max ds.length 9 := by
  calc Nat.ofDigitChars 10 ds 0 * 10 ^ (places - ds.length)
      < 10 ^ ds.length * 10 ^ (places - ds.length) :=
        Nat.mul_lt_mul_of_pos_right (by simpa using hds.ofDigitChars_lt 0) (by positivity)
    _ = 10 ^ (ds.length + (places - ds.length)) := by rw [pow_add]
    _ ≤ 10 ^ max ds.length 9 := Nat.pow_le_pow_right (by decide) (by omega)

/-- A number of at least one in positional notation: zeros stand where it has no digits. -/
theorem exists_positional (negative : Bool) (hds : IsDigits ds) (hne : ds ≠ [])
    (hhead : ds.head? ≠ some '0') (hlast : ds.getLast? ≠ some '0') (hpos : 0 ≤ exponent)
    (hhigh : exponent < 9) : ∃ l, WritesDigits negative ds exponent l := by
  obtain ⟨places, rfl⟩ := Int.eq_ofNat_of_zero_le hpos
  have htake : IsDigits (ds.take (places + 1)) := fun c hc => hds c (List.mem_of_mem_take hc)
  have hdrop : IsDigits (ds.drop (places + 1)) := fun c hc => hds c (List.mem_of_mem_drop hc)
  have htakene : ds.take (places + 1) ≠ [] := by simpa using hne
  have hzero : (ds.take (places + 1) ++ List.replicate (places + 1 - ds.length) '0').head? =
      some '0' → ds.take (places + 1) ++ List.replicate (places + 1 - ds.length) '0' = ['0'] := by
    intro h
    rw [List.head?_append_of_ne_nil _ htakene, List.head?_take, if_neg (Nat.succ_ne_zero _)] at h
    exact absurd h hhead
  obtain ⟨l, hl⟩ : ∃ l : NumberLiteral, l = ⟨negative, ⟨ds.take (places + 1) ++
      List.replicate (places + 1 - ds.length) '0', htake.append (isDigits_replicate_zero _),
    by simp [hne]⟩, hzero, fractionOf _ hdrop, none⟩ := ⟨_, rfl⟩
  have hdigits : l.fractionDigits = ds.drop (places + 1) := fractionDigits_fractionOf (by rw [hl])
  have hfraction := fractionText_fractionOf (l := l) (h := hdrop) (by rw [hl])
  have hsignificand : l.significand =
      Nat.ofDigitChars 10 ds 0 * 10 ^ (places + 1 - ds.length) := by
    rw [NumberLiteral.significand, hdigits, hl]
    exact ofDigitChars_places ds (places + 1)
  have hpieces : (digitPieces ds places).flatten =
      ds.take (places + 1) ++ List.replicate (places + 1 - ds.length) '0' ++
        if ds.drop (places + 1) = [] then [] else '.' :: ds.drop (places + 1) := by
    rw [digitPieces, if_neg (by omega), if_neg (by omega)]
    exact flatten_singles _
  refine ⟨l, by rw [hl], ?_, ?_, ?_, ?_, ?_⟩
  · rw [hpieces, NumberLiteral.text, hfraction, hl]
    simp [NumberLiteral.exponentText]
  · have hpow : (10 : ℚ) ^ (places + 1 - ds.length : ℤ) =
        10 ^ (places + 1 - ds.length) * 10 ^ (-(ds.length - (places + 1) : ℕ) : ℤ) := by
      rw [← zpow_natCast, ← zpow_add₀ (by norm_num)]
      congr 1
      omega
    rw [NumberLiteral.magnitude, hsignificand, NumberLiteral.power, hdigits, hl, hpow]
    dsimp only
    rw [List.length_drop, zero_sub]
    push_cast
    ring
  · rw [hsignificand]
    exact ofDigitChars_places_lt hds (by omega)
  · rw [hl]
    exact iff_of_false Bool.false_ne_true (by omega)
  · refine .of_exponent_eq_none (by rw [hl]) ?_
    rw [hl]
    intro fs hfs
    rw [chars_of_mem_fractionOf hfs]
    exact getLast?_drop_ne hlast _

theorem exists_writesDigits (negative : Bool) (hds : IsDigits ds) (hne : ds ≠ [])
    (hhead : ds.head? ≠ some '0') (hlast : ds.getLast? ≠ some '0') (exponent : ℤ) :
    ∃ l, WritesDigits negative ds exponent l := by
  by_cases hexp : exponent < -6 ∨ 9 ≤ exponent
  · exact exists_scientific negative hds hne hhead hlast hexp
  · rcases lt_or_ge exponent 0 with hneg | hpos
    · exact exists_fraction negative hds hne hlast (by omega) hneg
    · exact exists_positional negative hds hne hhead hlast hpos (by omega)

theorem length_exponentText_le (exponent : ℤ) :
    (exponentText exponent).length ≤ exponent.natAbs + 3 := by
  have hlen : decimalLength exponent.natAbs ≤ exponent.natAbs + 1 :=
    (decimalLength_le_iff (Nat.succ_pos _)).mpr
      ((Nat.lt_succ_self _).trans (Nat.lt_pow_self (by decide)))
  unfold decimalLength at hlen
  unfold exponentText
  dsimp only
  rw [List.length_cons]
  split
  · rw [List.length_cons]
    omega
  · omega

theorem length_digitPieces_le (ds : List Char) (exponent : ℤ) :
    (digitPieces ds exponent).flatten.length ≤ ds.length + exponent.natAbs + 5 := by
  have hexp := length_exponentText_le exponent
  have hpoint (cs : List Char) :
      (if cs = [] then [] else '.' :: cs).length ≤ cs.length + 1 := by
    split
    · exact Nat.zero_le _
    · exact le_rfl
  unfold digitPieces
  split
  case isTrue =>
    have := hpoint (ds.drop 1)
    rw [flatten_singles]
    simp only [List.length_append, List.length_cons, List.length_take, List.length_drop] at *
    omega
  case isFalse =>
    split
    case isTrue =>
      rw [List.flatten_cons, flatten_singles]
      simp only [List.length_append, List.length_cons, List.length_nil, List.length_replicate]
      omega
    case isFalse =>
      have := hpoint (ds.drop (exponent.toNat + 1))
      rw [flatten_singles]
      simp only [List.length_append, List.length_take, List.length_drop, List.length_replicate] at *
      omega

end Layouts

/-! ### Floating point numbers -/

/-- Digits that are stripped have the value of all the digits. -/
theorem Strips.value_eq {ds : List Char} {s : Significant} {count : ℕ}
    (h : Strips ds s.coefficient) (hlen : decimalLength s.coefficient = count) :
    Nat.ofDigitChars 10 ds 0 * 10 ^ (s.exponent + 1 - ds.length) = s.value count := by
  obtain ⟨zeros, hzeros⟩ := h.exists_zeros
  have hcoefficient : s.coefficient = 10 ^ zeros * Nat.ofDigitChars 10 ds 0 := by
    rw [← Nat.ofDigitChars_replicate_zero, ← Nat.ofDigitChars_append, ← hzeros,
      Nat.ofDigitChars_ten_toDigits]
  have hcount : count = ds.length + zeros := by
    rw [← hlen, decimalLength, hzeros, List.length_append, List.length_replicate]
  have hpow : s.exponent + 1 - ds.length = zeros + (s.exponent + 1 - count) := by omega
  rw [Significant.value, hcoefficient, hpow, zpow_add₀ (by norm_num), zpow_natCast]
  push_cast
  ring

/-- The literal is what a magnitude other than zero is written as. -/
structure WritesMagnitude (negative : Bool) (m : Magnitude) (count : ℕ) (l : NumberLiteral) :
    Prop where
  negative_eq : l.negative = negative
  text_eq : l.text = (floatPieces count (.finite negative m)).flatten
  magnitude_eq : l.magnitude = (m.written count).value count
  significand_lt : l.significand < UInt64.size
  length_lt : l.text.length < 2 ^ 62
  exponent_iff : l.exponent.isSome ↔ 10 ^ 9 ≤ l.magnitude ∨ l.magnitude < 10 ^ (-6 : ℤ)
  isTidy : IsTidy l

/-- The text of a magnitude other than zero depends on its digits only. -/
theorem flatten_floatPieces (negative : Bool) {m : Magnitude} (hm : m.code ≠ 0) (count : ℕ) :
    (floatPieces count (.finite negative m)).flatten = (if negative then ['-'] else []) ++
      (digitPieces (strippedDigits (m.written count).coefficient)
        (m.written count).exponent).flatten := by
  simp only [floatPieces, hm, if_false]
  cases negative <;> rfl

theorem exists_writesMagnitude (negative : Bool) {m : Magnitude} (hm : m.code ≠ 0) {count : ℕ}
    (hpos : 0 < count) (hcount : count ≤ mostPrecision) :
    ∃ l, WritesMagnitude negative m count l := by
  have hpieces := flatten_floatPieces negative hm count
  have hwritten := Magnitude.isWritten_written hm hpos hcount
  have htop : (m.written count).exponent ≤ 308 := hwritten.exponent_le hpos
  have hnine := @Magnitude.IsWritten.pow_le_value_iff count _ hwritten hpos 9
  have hsix := @Magnitude.IsWritten.pow_le_value_iff count _ hwritten hpos (-6)
  obtain ⟨hlow, hhigh, hexp, -⟩ := hwritten
  have hstrips := strips_strippedDigits ((Nat.pow_pos (by decide)).trans_le hlow)
  have hlen := decimalLength_eq hlow hhigh hpos
  obtain ⟨l, hnegative, htext, hmagnitude, hsignificand, hexponent, htidy⟩ := exists_writesDigits
    negative hstrips.isDigits hstrips.ne_nil hstrips.head?_ne hstrips.getLast?_ne
    (m.written count).exponent
  rw [hstrips.value_eq hlen] at hmagnitude
  have hdigits : (strippedDigits (m.written count).coefficient).length ≤ mostPrecision := by
    obtain ⟨zeros, hzeros⟩ := hstrips.exists_zeros
    rw [decimalLength, hzeros, List.length_append] at hlen
    omega
  refine ⟨l, hnegative, by rw [htext, hpieces], hmagnitude, ?_, ?_, ?_, htidy⟩
  · refine hsignificand.trans_le ((Nat.pow_le_pow_right (by decide) ?_).trans
      (show 10 ^ mostPrecision ≤ UInt64.size by decide))
    exact max_le hdigits (by decide)
  · have hpieces := length_digitPieces_le (strippedDigits (m.written count).coefficient)
      (m.written count).exponent
    have hsign : (if negative then ['-'] else []).length ≤ 1 := by cases negative <;> decide
    rw [htext, List.length_append]
    unfold mostPrecision at hdigits
    omega
  · rw [zpow_ofNat] at hnine
    rw [hexponent, hmagnitude, or_comm, hnine, ← not_le, ← hsix, not_le]

section

variable {negative : Bool} {m : Magnitude} {count : ℕ} {l : NumberLiteral}

/-- A literal that a magnitude is written as is closer to a finite number than to an infinity. -/
theorem WritesMagnitude.magnitude_lt (h : WritesMagnitude negative m count l) (hm : m.code ≠ 0)
    (hpos : 0 < count) (hcount : count ≤ mostPrecision) :
    l.magnitude < midpointAt (infinityCode - 1) := by
  rw [h.magnitude_eq]
  exact (Magnitude.isWritten_written hm hpos hcount).value_le.trans_lt
    largestWritten_lt_midpointAt

theorem WritesMagnitude.token_ne (h : WritesMagnitude negative m count l) (hm : m.code ≠ 0)
    (hpos : 0 < count) (hcount : count ≤ mostPrecision) : l.token ≠ .error .numberOutOfRange :=
  l.token_ne_of_lt h.length_lt h.significand_lt (h.magnitude_lt hm hpos hcount)

end

/-! ### Integers -/

/-- An integer is written as a literal that is read as the integer. -/
theorem exists_integer_literal (i : Int64) :
    ∃ l : NumberLiteral, (integerPieces i.toInt).flatten = l.text ∧ l.token = .ok (.integer i) := by
  have hzero : (Nat.toDigits 10 i.toInt.natAbs).head? = some '0' →
      Nat.toDigits 10 i.toInt.natAbs = ['0'] := by
    intro h
    rcases Nat.eq_zero_or_pos i.toInt.natAbs with h₀ | hpos
    · rw [h₀]
      rfl
    · exact absurd h (head?_toDigits_ne hpos)
  obtain ⟨l, hl⟩ : ∃ l : NumberLiteral, l = ⟨decide (i.toInt < 0),
    ⟨_, isDigits_toDigits i.toInt.natAbs, Nat.toDigits_ne_nil⟩, hzero, none, none⟩ := ⟨_, rfl⟩
  have htext : l.text = Integer.text i.toInt := by
    rw [hl]
    by_cases hneg : i.toInt < 0 <;>
      simp [NumberLiteral.text, NumberLiteral.fractionText, NumberLiteral.exponentText,
        Integer.text, hneg]
  have hsignificand : l.significand = i.toInt.natAbs := by
    rw [NumberLiteral.significand, hl]
    dsimp only [NumberLiteral.fractionDigits]
    rw [List.append_nil, Nat.ofDigitChars_ten_toDigits]
  refine ⟨l, ?_, ?_⟩
  · rw [integerPieces, flatten_singles, htext]
  · refine l.token_eq_integer_iff.mpr ⟨⟨by rw [hl], by rw [hl]⟩, ?_⟩
    rw [hsignificand, hl]
    by_cases hneg : i.toInt < 0
    · rw [if_pos (decide_eq_true hneg)]
      omega
    · rw [if_neg (by simpa using hneg)]
      omega

/-- A zero of either sign is written as the integer. -/
theorem flatten_floatPieces_zero (count : ℕ) (negative : Bool) {m : Magnitude} (hm : m.code = 0) :
    (floatPieces count (.finite negative m)).flatten =
      (integerPieces (0 : Int64).toInt).flatten := by
  rw [floatPieces, if_pos hm]
  rfl

/-- A finite number is written as a literal that is read as some number. -/
theorem exists_float_literal {count : ℕ} (hpos : 0 < count) (hcount : count ≤ mostPrecision)
    (negative : Bool) (m : Magnitude) :
    ∃ (l : NumberLiteral) (tok : Token),
      (floatPieces count (.finite negative m)).flatten = l.text ∧ l.token = .ok tok := by
  by_cases hm : m.code = 0
  · obtain ⟨l, htext, htoken⟩ := exists_integer_literal 0
    exact ⟨l, .integer 0, (flatten_floatPieces_zero count negative hm).trans htext, htoken⟩
  · obtain ⟨l, hl⟩ := exists_writesMagnitude negative hm hpos hcount
    rcases l.numeral.token_cases with ⟨i, htoken⟩ | ⟨x, -, htoken⟩ | herror
    · exact ⟨l, .integer i, hl.text_eq.symm, htoken⟩
    · exact ⟨l, .float x, hl.text_eq.symm, htoken⟩
    · exact absurd herror (hl.token_ne hm hpos hcount)

end Dump

end JsonDoc

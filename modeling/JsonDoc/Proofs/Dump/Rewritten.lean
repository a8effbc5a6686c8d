import JsonDoc.Proofs.Dump.Equality
import JsonDoc.Proofs.Dump.Reread

/-!
# Numbers that are read and written again

The text of a number is read as a number, which is written again.  The texts are the same unless the
digits drift (`Dump.flatten_floatPieces_eq_iff`), for then the first of them is no longer a one.
Integers do not drift: powers of ten that are written without an exponent are numbers themselves.
-/

namespace JsonDoc

/-- The digits that the number is written with drift. -/
def Binary64.Drifts (count : ℕ) : Binary64 → Prop
  | finite _ m => m.code ≠ 0 ∧ (m.written count).Drifts count
  | _ => False

namespace Dump

variable {ds : List Char} {m k : Magnitude} {count : ℕ}

/-! ### The first digit -/

/-- The first character that is a digit other than zero. -/
def firstDigit (cs : List Char) : Option Char := cs.find? fun c => c.isDigit && c != '0'

theorem firstDigit_digitPieces (hds : IsDigits ds) (hne : ds ≠ []) (hhead : ds.head? ≠ some '0')
    (exponent : ℤ) : firstDigit (digitPieces ds exponent).flatten = ds.head? := by
  obtain ⟨d, rest, rfl⟩ := List.exists_cons_of_ne_nil hne
  have hd : (d.isDigit && d != '0') = true := by
    rw [Bool.and_eq_true, bne_iff_ne]
    exact ⟨hds.of_cons.1, fun heq => hhead (congrArg some heq)⟩
  have hstart (cs : List Char) : firstDigit (d :: cs) = some d := List.find?_cons_of_pos hd
  rw [List.head?_cons]
  unfold digitPieces
  split
  · rw [flatten_singles]
    exact hstart _
  · split
    · have hzeros : (List.replicate (exponent.natAbs - 1) '0').find?
          (fun c => c.isDigit && c != '0') = none := by simp
      rw [List.flatten_cons, flatten_singles, firstDigit, List.find?_append, List.find?_append,
        hzeros]
      exact hstart rest
    · rw [flatten_singles]
      exact hstart _

theorem head?_strippedDigits {n : ℕ} (hn : 0 < n) :
    (strippedDigits n).head? = (Nat.toDigits 10 n).head? := by
  have hstrips := strips_strippedDigits hn
  obtain ⟨zeros, hzeros⟩ := hstrips.exists_zeros
  rw [hzeros, List.head?_append_of_ne_nil _ hstrips.ne_nil]

/-- The first digit of a text is that of the coefficient. -/
theorem firstDigit_floatPieces (negative : Bool) (hm : m.code ≠ 0)
    (hwritten : 0 < (m.written count).coefficient) :
    firstDigit (floatPieces count (.finite negative m)).flatten =
      (Nat.toDigits 10 (m.written count).coefficient).head? := by
  have hstrips := strips_strippedDigits hwritten
  have hsign (cs : List Char) :
      firstDigit ((if negative then ['-'] else []) ++ cs) = firstDigit cs := by
    cases negative <;> rfl
  rw [flatten_floatPieces negative hm, hsign,
    firstDigit_digitPieces hstrips.isDigits hstrips.ne_nil hstrips.head?_ne,
    head?_strippedDigits hwritten]

/-! ### The text of what is read -/

/-- What is nearest to the digits of a magnitude is written as the magnitude is, unless the digits
drift. -/
theorem flatten_floatPieces_eq_iff (negative : Bool) (hm : m.code ≠ 0) (hpos : 0 < count)
    (hcount : count ≤ mostPrecision) (hk : RoundsTo ((m.written count).value count) k.code) :
    (floatPieces count (.finite negative k)).flatten =
      (floatPieces count (.finite negative m)).flatten ↔ ¬ (m.written count).Drifts count := by
  have hs := Magnitude.isWritten_written hm hpos hcount
  have hnear := Magnitude.isNear_written hm hpos hcount hk
  have hk' := Magnitude.code_ne_zero_of_isNear hs hnear
  constructor
  · intro htext hdrift
    obtain ⟨n, hlow, hhigh, hwritten⟩ := Magnitude.exists_written_of_drifts hpos hs hnear hk hdrift
    have hten : 10 ^ count = 10 ^ (count - 1 + 1) := by rw [Nat.sub_add_cancel hpos]
    have hfirst := @firstDigit_floatPieces k count negative hk'
      (by rw [hwritten]; dsimp only; omega)
    rw [htext, firstDigit_floatPieces negative hm hs.coefficient_pos, hwritten, hdrift.1,
      head?_toDigits_pow] at hfirst
    have htwo : 2 * 10 ^ (count - 1) ≤ n := by omega
    exact head?_toDigits_ne_one htwo (hten ▸ hhigh) hfirst.symm
  · intro hdrift
    have hwritten := Magnitude.written_eq_of_not_drifts hpos hs hnear hk hcount hdrift
    rw [flatten_floatPieces negative hk', hwritten, flatten_floatPieces negative hm]

end Dump

/-! ### Integers -/

/-- Powers of ten that are integers of 64 bits are floating point numbers. -/
theorem exists_valueAt_eq_pow {e : ℕ} (he : e < 19) :
    ∃ code ≤ infinityCode, valueAt code = 10 ^ e := by
  have hunits : ∀ e < 19, (Magnitude.nearest? (10 ^ e * unitsPerOne) 1).map Magnitude.units =
      some (10 ^ e * unitsPerOne) := by decide +kernel
  obtain ⟨m, -, hm⟩ := Option.map_eq_some_iff.mp (hunits e he)
  refine ⟨m.code, m.code_lt.le, ?_⟩
  rw [Magnitude.valueAt_code, hm, Nat.cast_mul, mul_div_cancel_right₀ _ unitsPerOne_pos.ne']
  push_cast
  rfl

/-- Digits of a whole number of 64 bits do not drift. -/
theorem Significant.not_drifts {s : Significant} {count n : ℕ} (hpos : 0 < count)
    (hvalue : s.value count = n) (hn : n < 10 ^ 19) : ¬ s.Drifts count := by
  rintro ⟨hcoefficient, code, hcode, hlt⟩
  rw [value_eq_pow hcoefficient hpos] at hvalue
  have hone : (1 : ℚ) < 10 := by norm_num
  have hn' : (n : ℚ) < 10 ^ (19 : ℤ) := by exact_mod_cast hn
  have hpow : (10 : ℚ) ^ (-1 : ℤ) < 10 ^ s.exponent := by
    have hwhole : (0 : ℚ) < n := hvalue ▸ by positivity
    have hwhole' : (1 : ℚ) ≤ n := by exact_mod_cast hwhole
    rw [hvalue, zpow_neg_one]
    linarith
  have hexp : -1 < s.exponent := (zpow_lt_zpow_iff_right₀ hone).mp hpow
  have hexp' : s.exponent < 19 := (zpow_lt_zpow_iff_right₀ hone).mp (hvalue ▸ hn')
  obtain ⟨e, he⟩ : ∃ e : ℕ, s.exponent = e := ⟨s.exponent.toNat, by omega⟩
  obtain ⟨exact, hle, hexact⟩ := @exists_valueAt_eq_pow e (by omega)
  have hnear := hcode.abs_sub_le_abs_sub hle
  rw [hexact, he, zpow_natCast, sub_self, abs_zero] at hnear
  have heq := sub_eq_zero.mp (abs_nonpos_iff.mp hnear)
  rw [he, zpow_natCast, heq] at hlt
  have hstep : (0 : ℚ) < 10 ^ ((e : ℤ) - count) := by positivity
  linarith

namespace NumberLiteral

variable {l : NumberLiteral} {i : Int64}

/-- A literal other than zero that is read as an integer is the text of the integer. -/
theorem text_of_token_integer (h : l.token = .ok (.integer i)) (hpos : 0 < l.significand) :
    l.text = Integer.text i.toInt := by
  obtain ⟨⟨hfraction, hexponent⟩, hi⟩ := l.token_eq_integer_iff.mp h
  have hsignificand : l.significand = Nat.ofDigitChars 10 l.integer.chars 0 := by
    rw [significand, fractionDigits, hfraction, List.append_nil]
  have hhead : l.integer.chars.head? ≠ some '0' := by
    intro hzero
    rw [hsignificand, l.no_leading_zero hzero] at hpos
    exact absurd hpos (by decide)
  have hdigits : Nat.toDigits 10 i.toInt.natAbs = l.integer.chars := by
    have habs : i.toInt.natAbs = l.significand := by
      rw [← hi]
      split <;> omega
    rw [habs, hsignificand, toDigits_ofDigitChars l.integer.isDigits l.integer.ne_nil hhead]
  rw [text, fractionText, exponentText, hfraction, hexponent, Integer.text, hdigits, ← hi]
  cases l.negative with
  | true =>
    rw [if_pos rfl, if_pos rfl, if_pos (by omega)]
    simp
  | false => simp

/-- A literal ends where the text goes on with something else. -/
theorem append_inj {l' : NumberLiteral} {tok tok' : Token} {u u' : List Char}
    (hl : l.token = .ok tok) (hl' : l'.token = .ok tok') (hu : Delimited u) (hu' : Delimited u')
    (h : l'.text ++ u' = l.text ++ u) : l'.text = l.text ∧ u' = u := by
  have hread := TokenState.read_literal l (hu.endsBefore l) 0
  rw [← h, TokenState.read_literal l' (hu'.endsBefore l'), hl, hl'] at hread
  simp only [TokenState.settled, EStateM.Result.ok.injEq, Cursor.mk.injEq] at hread
  have hrest : u' = u := Answer.chars_injective hread.2.1
  rw [hrest] at h
  exact ⟨List.append_cancel_right h, hrest⟩

end NumberLiteral

/-! ### Floating point numbers in a text -/

/-- The value is written as the number is, whatever follows, unless the digits of the number
drift. -/
def Value.Rewrites (o : DumpOptions) (x : Binary64) (w : Value) : Prop :=
  ∀ depth r r', Delimited (Run.text r) → Delimited (Run.text r') →
    (Run.text (w.runs o depth r') = Run.text ((Value.float x).runs o depth r) ↔
      ¬ x.Drifts o.precision ∧ Run.text r' = Run.text r)

section

variable {o : DumpOptions} {x : Binary64} {w : Value} {l l' : NumberLiteral} {tok tok' : Token}

/-- Literals are compared by themselves. -/
theorem rewrites_of_literals
    (hw : ∀ depth r, Run.text (w.runs o depth r) = l'.text ++ Run.text r)
    (hx : (Dump.floatPieces o.precision x).flatten = l.text) (hl : l.token = .ok tok)
    (hl' : l'.token = .ok tok') (h : l'.text = l.text ↔ ¬ x.Drifts o.precision) :
    w.Rewrites o x := by
  intro depth r r' hr hr'
  rw [hw, Value.text_runs_float, hx, ← h]
  constructor
  · exact NumberLiteral.append_inj hl hl' hr hr'
  · rintro ⟨htext, hrest⟩
    rw [htext, hrest]

theorem rewrites_null (hx : ¬ x.isFinite) : Value.null.Rewrites o x := by
  have hpieces : (Dump.floatPieces o.precision x).flatten = ['n', 'u', 'l', 'l'] := by
    cases x with
    | finite s m => exact absurd rfl hx
    | _ => rfl
  have hdrift : ¬ x.Drifts o.precision := by
    cases x with
    | finite s m => exact absurd rfl hx
    | _ => exact id
  intro depth r r' _ _
  rw [Value.text_runs_float, hpieces, Value.runs, Run.text_once_cons, List.append_cancel_left_eq,
    iff_and_self]
  exact fun _ => hdrift

/-- A magnitude that is read as an integer is written as the integer. -/
theorem rewrites_integer {s : Bool} {m : Magnitude} {i : Int64} (hm : m.code ≠ 0)
    (ho : o.IsReadable) (hl : Dump.WritesMagnitude s m o.precision l)
    (htoken : l.token = .ok (.integer i)) : (Value.integer i).Rewrites o (.finite s m) := by
  obtain ⟨hnone, hi⟩ := l.token_eq_integer_iff.mp htoken
  have hmagnitude := NumberLiteral.magnitude_eq_significand hnone
  have hwritten := Magnitude.isWritten_written hm ho.precision_pos ho.precision_le
  have hvalue : (m.written o.precision).value o.precision = l.significand := by
    rw [← hl.magnitude_eq, hmagnitude]
  have hpos : 0 < l.significand := by
    have hwhole : (0 : ℚ) < l.significand := hvalue ▸ hwritten.value_pos
    exact_mod_cast hwhole
  have hsmall : l.significand < 10 ^ 19 := by
    have hlow := i.minValue_le_toInt
    have hmin := Int64.toInt_minValue
    have hhigh := i.toInt_lt
    split at hi <;> omega
  have hdrift : ¬ (m.written o.precision).Drifts o.precision :=
    Significant.not_drifts ho.precision_pos hvalue hsmall
  have htext : (Dump.integerPieces i.toInt).flatten = l.text := by
    rw [Dump.integerPieces, Dump.flatten_singles, NumberLiteral.text_of_token_integer htoken hpos]
  refine rewrites_of_literals (fun depth r => ?_) hl.text_eq.symm htoken htoken
    (iff_of_true rfl fun h => hdrift h.2)
  rw [Value.text_runs_integer, htext]

/-- A magnitude that is read as a floating point number is written as that number, unless its digits
drift. -/
theorem rewrites_float {s : Bool} {m : Magnitude} {y : Binary64} (hm : m.code ≠ 0)
    (ho : o.IsReadable) (hl : Dump.WritesMagnitude s m o.precision l)
    (htoken : l.token = .ok (.float y)) (hy : Binary64.IsNearest l.negative l.magnitude y)
    (hfinite : y.isFinite) : (Value.float y).Rewrites o (.finite s m) := by
  cases y with
  | nan => cases hfinite
  | infinite t => cases hfinite
  | finite t k =>
    obtain ⟨hsign, hround⟩ := hy
    obtain rfl : t = s := hsign.trans hl.negative_eq
    rw [hl.magnitude_eq] at hround
    obtain ⟨l', tok', htext', htoken'⟩ :=
      Dump.exists_float_literal ho.precision_pos ho.precision_le t k
    refine rewrites_of_literals (fun depth r => ?_) hl.text_eq.symm htoken htoken' ?_
    · rw [Value.text_runs_float, htext']
    · rw [hl.text_eq, ← htext', Dump.flatten_floatPieces_eq_iff t hm ho.precision_pos
        ho.precision_le hround]
      exact not_congr (iff_and_self.mpr fun _ => hm)

/-- The text of a floating point number spells what is written like it, unless its digits drift. -/
theorem exists_spells_rewrites (order : MemberOrder) (ho : o.IsReadable) (x : Binary64) :
    ∃ w, SpellsValue NumberLiteral.Denotes order (Dump.floatPieces o.precision x).flatten w ∧
      w.Rewrites o x := by
  cases x with
  | nan => exact ⟨.null, .null, rewrites_null (by decide)⟩
  | infinite s => exact ⟨.null, .null, rewrites_null (by simp [Binary64.isFinite])⟩
  | finite s m =>
    by_cases hm : m.code = 0
    · obtain ⟨l, htext, htoken⟩ := Dump.exists_integer_literal 0
      have hzero := (Dump.flatten_floatPieces_zero o.precision s hm).trans htext
      refine ⟨.integer 0, spells_zero _ s hm, rewrites_of_literals (fun depth r => ?_) hzero htoken
        htoken (iff_of_true rfl fun h => h.1 hm)⟩
      rw [Value.text_runs_integer, htext]
    · obtain ⟨l, hl⟩ := Dump.exists_writesMagnitude s hm ho.precision_pos ho.precision_le
      have hwritten := Magnitude.isWritten_written hm ho.precision_pos ho.precision_le
      have hmagnitude : 0 < l.magnitude := hl.magnitude_eq ▸ hwritten.value_pos
      obtain ⟨y, hnearest, hfinite, htoken⟩ := l.exists_isNearest_token hl.length_lt
        hl.significand_lt hmagnitude (hl.magnitude_lt hm ho.precision_pos ho.precision_le)
      rw [← hl.text_eq]
      rcases htoken with htoken | ⟨i, htoken, -⟩
      · exact ⟨.float y, .number (Or.inr ⟨y, htoken, rfl⟩),
          rewrites_float hm ho hl htoken hnearest hfinite⟩
      · exact ⟨.integer i, .number (Or.inl ⟨i, htoken, rfl⟩), rewrites_integer hm ho hl htoken⟩

end

end JsonDoc

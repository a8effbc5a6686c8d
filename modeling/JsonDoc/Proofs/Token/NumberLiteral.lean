import JsonDoc.Proofs.Decimal.Digits
import JsonDoc.Proofs.Token.Text

/-!
# Number literals

A number literal of the grammar, as data: its sign, its digits before the point, and the digits of
its fraction and its exponent if it has them.  A number that is read is the longest literal at the
front of the text, and it is settled by the numeral of that literal: `read_literal` reads every
literal, and `exists_literal` finds one in every number that was read.
-/

namespace JsonDoc

/-! ### Literals -/

/-- Decimal digits, at least one. -/
structure Digits where
  chars : List Char
  isDigits : IsDigits chars
  ne_nil : chars ≠ []

theorem Digits.exists_cons (ds : Digits) :
    ∃ c cs, ds.chars = c :: cs ∧ c.isDigit ∧ IsDigits cs := by
  obtain ⟨_ | ⟨c, cs⟩, hds, hne⟩ := ds
  · exact absurd rfl hne
  · exact ⟨c, cs, rfl, hds.of_cons⟩

/-- The number that digits denote. -/
def Digits.value (ds : Digits) : ℕ := Nat.ofDigitChars 10 ds.chars 0

/-- The part of a literal from the letter of the exponent on. -/
structure ExponentPart where
  letter : Char
  letter_eq : letter = 'e' ∨ letter = 'E'
  sign : Option Char
  sign_eq : ∀ c ∈ sign, c = '-' ∨ c = '+'
  digits : Digits

namespace ExponentPart

/-- What stands after the letter. -/
def body (x : ExponentPart) : List Char := x.sign.toList ++ x.digits.chars

/-- The characters of the exponent. -/
def text (x : ExponentPart) : List Char := x.letter :: x.body

/-- The test for a minus sign. -/
def negative (x : ExponentPart) : Bool := x.sign = some '-'

/-- The exponent that is denoted. -/
def value (x : ExponentPart) : ℤ := if x.negative then -x.digits.value else x.digits.value

theorem small_letter_eq : 'e' = 'e' ∨ 'e' = 'E' := Or.inl rfl

/-- An exponent with its minus sign, if it has one. -/
def ofInt (i : ℤ) : ExponentPart where
  letter := 'e'
  letter_eq := small_letter_eq
  sign := if i < 0 then some '-' else none
  sign_eq := by
    intro c hc
    split at hc
    · cases hc
      exact Or.inl rfl
    · cases hc
  digits := ⟨Nat.toDigits 10 i.natAbs, isDigits_toDigits _, Nat.toDigits_ne_nil⟩

theorem body_ofInt (i : ℤ) : (ofInt i).body = Integer.text i := by
  unfold body ofInt Integer.text
  dsimp only
  split <;> rfl

theorem value_ofInt (i : ℤ) : (ofInt i).value = i := by
  have hdigits : (ofInt i).digits.value = i.natAbs := Nat.ofDigitChars_ten_toDigits
  have hnegative : (ofInt i).negative = decide (i < 0) := by
    unfold negative ofInt
    dsimp only
    split <;> simp [*]
  rw [value, hdigits, hnegative]
  simp only [decide_eq_true_eq]
  split <;> omega

end ExponentPart

/-- A number literal. -/
structure NumberLiteral where
  negative : Bool
  integer : Digits
  /-- Only a zero that stands alone before the point may be the first digit. -/
  no_leading_zero : integer.chars.head? = some '0' → integer.chars = ['0']
  fraction : Option Digits
  exponent : Option ExponentPart

namespace NumberLiteral

/-- The characters from the point to the last digit of the fraction. -/
def fractionText (l : NumberLiteral) : List Char :=
  match l.fraction with
  | none => []
  | some ds => '.' :: ds.chars

/-- The characters of the exponent. -/
def exponentText (l : NumberLiteral) : List Char :=
  match l.exponent with
  | none => []
  | some x => x.text

/-- The characters of a literal. -/
def text (l : NumberLiteral) : List Char :=
  (if l.negative then ['-'] else []) ++ (l.integer.chars ++ (l.fractionText ++ l.exponentText))

theorem length_text_pos (l : NumberLiteral) : 0 < l.text.length := by
  have := List.length_pos_iff.mpr l.integer.ne_nil
  simp only [text, List.length_append]
  omega

/-- The digits of the fraction, none if there is no fraction. -/
def fractionDigits (l : NumberLiteral) : List Char :=
  match l.fraction with
  | none => []
  | some ds => ds.chars

/-- The literal goes no further than the text before it: what follows does not continue it. -/
def EndsBefore (l : NumberLiteral) (u : List Char) : Prop :=
  ∀ c ∈ u.head?, ¬ c.isDigit ∧ (l.exponent = none → c ≠ 'e' ∧ c ≠ 'E') ∧
    (l.fraction = none → l.exponent = none → c ≠ '.')

end NumberLiteral

/-! ### Numerals of literals -/

/-- The state after digits that are pushed one after the other. -/
def foldDigits {α : Type} (push : ℕ → α → α) (cs : List Char) (a : α) : α :=
  cs.foldl (fun a c => push (c.toNat - 48) a) a

@[simp] theorem foldDigits_nil {α : Type} (push : ℕ → α → α) (a : α) : foldDigits push [] a = a :=
  rfl

@[simp] theorem foldDigits_cons {α : Type} (push : ℕ → α → α) (c : Char) (cs : List Char) (a : α) :
    foldDigits push (c :: cs) a = foldDigits push cs (push (c.toNat - 48) a) := rfl

/-- The value of the exponent as it is kept, within 64 bits. -/
def ExponentPart.kept (x : ExponentPart) : Int64 :=
  foldDigits Numeral.pushExponent x.digits.chars 0

namespace NumberLiteral

/-- The numeral after the digits before the point. -/
def integerNumeral (l : NumberLiteral) : Numeral :=
  foldDigits Numeral.pushInteger l.integer.chars (.new l.negative)

/-- The numeral after the digits behind the point. -/
def fractionNumeral (l : NumberLiteral) : Numeral :=
  match l.fraction with
  | none => l.integerNumeral
  | some ds => foldDigits Numeral.pushFraction ds.chars l.integerNumeral.asFloat

/-- The numeral of a literal. -/
def numeral (l : NumberLiteral) : Numeral :=
  match l.exponent with
  | none => l.fractionNumeral
  | some x => l.fractionNumeral.asFloat.scale x.negative x.kept

/-- The token of a literal, or the reason why it has none. -/
def token (l : NumberLiteral) : Except Cause Token := l.numeral.token

end NumberLiteral

/-! ### Reading digits -/

/-- The text does not go on with a digit. -/
def NoDigit (u : List Char) : Prop := ∀ c ∈ u.head?, ¬ c.isDigit

theorem noDigit_nil : NoDigit [] := by simp [NoDigit]

theorem noDigit_cons {c : Char} {u : List Char} : NoDigit (c :: u) ↔ ¬ c.isDigit := by
  simp [NoDigit]

/-- Every text is digits and a text that does not go on with one. -/
theorem exists_digits_append (u : List Char) :
    ∃ ds v, u = ds ++ v ∧ IsDigits ds ∧ NoDigit v := by
  induction u with
  | nil => exact ⟨[], [], rfl, by simp [IsDigits], noDigit_nil⟩
  | cons c u ih =>
    by_cases hc : c.isDigit
    · obtain ⟨ds, v, rfl, hds, hv⟩ := ih
      refine ⟨c :: ds, v, rfl, ?_, hv⟩
      intro d hd
      rcases List.mem_cons.mp hd with rfl | hd
      · exact hc
      · exact hds d hd
    · exact ⟨[], c :: u, rfl, by simp [IsDigits], noDigit_cons.mpr hc⟩

namespace TokenState

theorem read_number_of_shift {s t : NumberState} {c : Char} {u : List Char} {k : ℕ}
    (h : s.step c = .shift t) : (number s).read (c :: u) k = (number t).read u (k + 1) := by
  apply read_of_shift
  rw [step, h]
  rfl

theorem read_number_of_settle {s : NumberState} {c : Char} {u : List Char} {k : ℕ}
    {r : Except Cause Token} (h : s.step c = .settle r) :
    (number s).read (c :: u) k = settled (c :: u) k r := by
  apply read_of_settle
  rw [step, h]
  cases r <;> rfl

theorem read_number_ne_ok {s : NumberState} {c : Char} {u : List Char} {k : ℕ} {cause : Cause}
    {t : Token} {cur : Cursor} (h : s.step c = .rejectBefore cause ∨ s.step c = .reject cause) :
    (number s).read (c :: u) k ≠ .ok t cur := by
  intro hok
  rw [read_cons, step] at hok
  rcases h with h | h <;> rw [h] at hok <;> cases hok

/-- Digits are taken in turn by a state that each digit brings back to its kind. -/
theorem read_digits {α : Type} {st : α → NumberState} {push : ℕ → α → α}
    (hst : ∀ a c d, Decimal.digit? c = some d → (st a).step c = .shift (st (push d a)))
    {cs : List Char} (h : IsDigits cs) (a : α) (u : List Char) (k : ℕ) :
    (number (st a)).read (cs ++ u) k =
      (number (st (foldDigits push cs a))).read u (k + cs.length) := by
  induction cs generalizing a k with
  | nil => rfl
  | cons c cs ih =>
    obtain ⟨hc, hcs⟩ := h.of_cons
    rw [List.cons_append, read_number_of_shift (hst a c _ (Decimal.digit?_of_isDigit hc)), ih hcs,
      foldDigits_cons, List.length_cons, Nat.add_assoc, Nat.add_comm 1]

theorem read_integer {cs : List Char} (h : IsDigits cs) (n : Numeral) (u : List Char) (k : ℕ) :
    (number (.integer n)).read (cs ++ u) k =
      (number (.integer (foldDigits Numeral.pushInteger cs n))).read u (k + cs.length) :=
  read_digits (fun a c d hd => by rw [NumberState.step, hd]) h n u k

theorem read_fraction {cs : List Char} (h : IsDigits cs) (n : Numeral) (u : List Char) (k : ℕ) :
    (number (.fraction n)).read (cs ++ u) k =
      (number (.fraction (foldDigits Numeral.pushFraction cs n))).read u (k + cs.length) :=
  read_digits (fun a c d hd => by rw [NumberState.step, hd]) h n u k

theorem read_exponent {cs : List Char} (h : IsDigits cs) (n : Numeral) (negative : Bool)
    (v : Int64) (u : List Char) (k : ℕ) :
    (number (.exponent n negative v)).read (cs ++ u) k =
      (number (.exponent n negative (foldDigits Numeral.pushExponent cs v))).read u
        (k + cs.length) :=
  read_digits (fun a c d hd => by rw [NumberState.step, hd]) h v u k

/-! ### Reading literals -/

theorem read_exponent_of_noDigit {n : Numeral} {negative : Bool} {v : Int64} {u : List Char}
    (h : NoDigit u) (k : ℕ) :
    (number (.exponent n negative v)).read u k = settled u k (n.scale negative v).token := by
  cases u with
  | nil => exact read_of_atEnd_settle rfl
  | cons c u =>
    apply read_number_of_settle
    rw [NumberState.step, Decimal.digit?_eq_none_iff.mpr (noDigit_cons.mp h)]

theorem read_markSign (n : Numeral) (negative : Bool) (ds : Digits) {u : List Char}
    (h : NoDigit u) (k : ℕ) :
    (number (.markSign n negative)).read (ds.chars ++ u) k =
      settled u (k + ds.chars.length)
        (n.scale negative (foldDigits Numeral.pushExponent ds.chars 0)).token := by
  obtain ⟨c, cs, hds, hc, hcs⟩ := ds.exists_cons
  have hstep : (NumberState.markSign n negative).step c =
      .shift (.exponent n negative (Numeral.pushExponent (c.toNat - 48) 0)) := by
    rw [NumberState.step, Decimal.digit?_of_isDigit hc]
  rw [hds, List.cons_append, read_number_of_shift hstep, read_exponent hcs,
    read_exponent_of_noDigit h, List.length_cons, foldDigits_cons, Nat.add_assoc, Nat.add_comm 1]

theorem read_mark (n : Numeral) (x : ExponentPart) {u : List Char} (h : NoDigit u) (k : ℕ) :
    (number (.mark n)).read (x.body ++ u) k =
      settled u (k + x.body.length) (n.scale x.negative x.kept).token := by
  obtain ⟨letter, -, sign, hsign, ds⟩ := x
  simp only [ExponentPart.body, ExponentPart.negative, ExponentPart.kept]
  cases sign with
  | none =>
    obtain ⟨c, cs, hds, hc, -⟩ := ds.exists_cons
    have hstep : (NumberState.mark n).step c = (NumberState.markSign n false).step c := by
      have h₁ : c ≠ '-' := by rintro rfl; exact absurd hc (by decide)
      have h₂ : c ≠ '+' := by rintro rfl; exact absurd hc (by decide)
      rw [NumberState.step, if_neg h₁, if_neg h₂]
      rfl
    have hread := read_markSign n false ds h k
    rw [hds, List.cons_append, read_cons, step, ← hstep] at hread
    rw [Option.toList_none, List.nil_append, hds, List.cons_append, read_cons, step, hread]
    rfl
  | some c =>
    have hread := read_markSign n (c = '-') ds h (k + 1)
    have hstep : (NumberState.mark n).step c = .shift (.markSign n (c = '-')) := by
      rcases hsign c rfl with rfl | rfl <;> rfl
    rw [Option.toList_some, List.singleton_append, List.cons_append, read_number_of_shift hstep,
      hread, List.length_cons, Nat.add_assoc, Nat.add_comm 1]
    simp only [Option.some.injEq]

theorem read_fraction_letter (n : Numeral) {c : Char} (h : c = 'e' ∨ c = 'E') (u : List Char)
    (k : ℕ) :
    (number (.fraction n)).read (c :: u) k = (number (.mark n.asFloat)).read u (k + 1) := by
  apply read_number_of_shift
  rcases h with rfl | rfl <;> rfl

theorem read_fraction_of_end (n : Numeral) {u : List Char}
    (h : ∀ c ∈ u.head?, ¬ c.isDigit ∧ c ≠ 'e' ∧ c ≠ 'E') (k : ℕ) :
    (number (.fraction n)).read u k = settled u k n.token := by
  cases u with
  | nil => exact read_of_atEnd_settle rfl
  | cons c u =>
    obtain ⟨hc, he, hE⟩ := h c rfl
    apply read_number_of_settle
    rw [NumberState.step, Decimal.digit?_eq_none_iff.mpr hc]
    simp only [he, hE, or_self, if_false]

theorem read_integer_letter (n : Numeral) {c : Char} (h : c = 'e' ∨ c = 'E') (u : List Char)
    (k : ℕ) :
    (number (.integer n)).read (c :: u) k = (number (.mark n.asFloat)).read u (k + 1) := by
  apply read_number_of_shift
  rcases h with rfl | rfl <;> rfl

theorem read_integer_point (n : Numeral) (ds : Digits) (u : List Char) (k : ℕ) :
    (number (.integer n)).read ('.' :: (ds.chars ++ u)) k =
      (number (.fraction (foldDigits Numeral.pushFraction ds.chars n.asFloat))).read u
        (k + 1 + ds.chars.length) := by
  obtain ⟨c, cs, hds, hc, hcs⟩ := ds.exists_cons
  have hstep : (NumberState.point n.asFloat).step c =
      .shift (.fraction (n.asFloat.pushFraction (c.toNat - 48))) := by
    rw [NumberState.step, Decimal.digit?_of_isDigit hc]
  rw [read_number_of_shift (show (NumberState.integer n).step '.' = .shift (.point n.asFloat) from
    rfl), hds, List.cons_append, read_number_of_shift hstep, read_fraction hcs, foldDigits_cons,
    List.length_cons, Nat.add_assoc (k + 1), Nat.add_comm 1]

theorem read_integer_of_end (n : Numeral) {u : List Char}
    (h : ∀ c ∈ u.head?, ¬ c.isDigit ∧ (c ≠ 'e' ∧ c ≠ 'E') ∧ c ≠ '.') (k : ℕ) :
    (number (.integer n)).read u k = settled u k n.token := by
  cases u with
  | nil => exact read_of_atEnd_settle rfl
  | cons c u =>
    obtain ⟨hc, ⟨he, hE⟩, hp⟩ := h c rfl
    apply read_number_of_settle
    rw [NumberState.step, Decimal.digit?_eq_none_iff.mpr hc]
    simp only [NumberState.afterInteger, he, hE, hp, or_self, if_false]

/-- A zero that no digit follows goes on as other digits do. -/
theorem read_zero (n : Numeral) {u : List Char} (h : NoDigit u) (k : ℕ) :
    (number (.zero n)).read u k = (number (.integer n)).read u k := by
  cases u with
  | nil => rfl
  | cons c u =>
    have hd := Decimal.digit?_eq_none_iff.mpr (noDigit_cons.mp h)
    have hstep : (NumberState.zero n).step c = (NumberState.integer n).step c := by
      rw [NumberState.step, NumberState.step, hd]
    rw [read_cons, read_cons, step, step, hstep]

theorem read_integer_rest (l : NumberLiteral) {u : List Char} (h : l.EndsBefore u) (k : ℕ) :
    (number (.integer l.integerNumeral)).read (l.fractionText ++ (l.exponentText ++ u)) k =
      settled u (k + (l.fractionText ++ l.exponentText).length) l.token := by
  have hd : NoDigit u := fun c hc => (h c hc).1
  obtain ⟨negative, integer, hzero, fraction, exponent⟩ := l
  simp only [NumberLiteral.fractionText, NumberLiteral.exponentText, NumberLiteral.token,
    NumberLiteral.numeral, NumberLiteral.fractionNumeral]
  cases fraction with
  | none =>
    cases exponent with
    | none => exact read_integer_of_end _ (fun c hc => ⟨(h c hc).1, (h c hc).2.1 rfl,
        (h c hc).2.2 rfl rfl⟩) k
    | some x =>
      dsimp only
      rw [List.nil_append, List.nil_append, ExponentPart.text, List.cons_append,
        read_integer_letter _ x.letter_eq, read_mark _ x hd, List.length_cons, Nat.add_assoc,
        Nat.add_comm 1]
  | some ds =>
    cases exponent with
    | none =>
      rw [List.nil_append, List.append_nil, List.cons_append, read_integer_point,
        read_fraction_of_end _ (fun c hc => ⟨(h c hc).1, (h c hc).2.1 rfl⟩), List.length_cons,
        Nat.add_assoc, Nat.add_comm 1]
    | some x =>
      dsimp only
      rw [ExponentPart.text, List.cons_append, List.cons_append, read_integer_point,
        read_fraction_letter _ x.letter_eq, read_mark _ x hd]
      congr 1
      simp only [List.length_cons, List.length_append, List.cons_append]
      omega

/-- The state after the first digit of a number. -/
def firstDigit (n : Numeral) (c : Char) : NumberState :=
  if c = '0' then .zero n else .integer (n.pushInteger (c.toNat - 48))

theorem digit?_eq_succ {c : Char} (hc : c.isDigit) (h : c ≠ '0') :
    ∃ d, c.toNat - 48 = d + 1 ∧ Decimal.digit? c = some (d + 1) := by
  obtain ⟨d, hd⟩ : ∃ d, c.toNat - 48 = d + 1 :=
    Nat.exists_eq_succ_of_ne_zero fun h₀ => h (Decimal.eq_of_digit_eq hc (by decide) h₀)
  exact ⟨d, hd, by rw [Decimal.digit?_of_isDigit hc, hd]⟩

theorem step_sign (n : Numeral) {c : Char} (hc : c.isDigit) :
    (NumberState.sign n).step c = .shift (firstDigit n c) := by
  by_cases h : c = '0'
  · subst h
    rfl
  · obtain ⟨d, hd, hc⟩ := digit?_eq_succ hc h
    rw [NumberState.step, hc, firstDigit, if_neg h, hd]
    rfl

theorem start?_of_isDigit {c : Char} (hc : c.isDigit) :
    NumberState.start? c = some (firstDigit (.new false) c) := by
  by_cases h : c = '0'
  · subst h
    rfl
  · have hne : c ≠ '-' := by rintro rfl; exact absurd hc (by decide)
    obtain ⟨d, hd, hc⟩ := digit?_eq_succ hc h
    rw [NumberState.start?, if_neg hne, hc, firstDigit, if_neg h, hd]
    rfl

theorem step_blank {c : Char} (hc : c.isDigit) :
    blank.step c = .shift (number (firstDigit (.new false) c)) := by
  have hblank : isBlank c = false := by
    have h : ∀ d : Char, d.isDigit = false → c ≠ d := by
      rintro d hd rfl
      exact absurd hc (by rw [hd]; decide)
    simp [isBlank, h]
  simp only [step, hblank, Bool.false_eq_true, if_false]
  unfold first
  split <;> first | exact absurd hc (by decide) | rw [start?_of_isDigit hc]

theorem read_firstDigit (l : NumberLiteral) {c : Char} {cs : List Char}
    (hl : l.integer.chars = c :: cs) {u : List Char} (h : NoDigit u) (k : ℕ) :
    (number (firstDigit (.new l.negative) c)).read (cs ++ u) k =
      (number (.integer l.integerNumeral)).read u (k + cs.length) := by
  have hcs := (hl ▸ l.integer.isDigits).of_cons.2
  rw [NumberLiteral.integerNumeral, hl, foldDigits_cons, firstDigit]
  by_cases hc : c = '0'
  · have hnil : cs = [] := by
      have := l.no_leading_zero (by rw [hl, hc]; rfl)
      rw [hl] at this
      exact (List.cons.inj this).2
    rw [if_pos hc, hnil, hc]
    exact read_zero _ h k
  · rw [if_neg hc]
    exact read_integer hcs _ u k

/-- A literal is read to its end, and settles to its token. -/
theorem read_literal (l : NumberLiteral) {u : List Char} (h : l.EndsBefore u) (k : ℕ) :
    blank.read (l.text ++ u) k = settled u (k + l.text.length) l.token := by
  obtain ⟨c, cs, hl, hc, -⟩ := l.integer.exists_cons
  have hrest : NoDigit (l.fractionText ++ (l.exponentText ++ u)) := by
    rw [NumberLiteral.fractionText, NumberLiteral.exponentText]
    cases hf : l.fraction with
    | some ds => exact noDigit_cons.mpr (by decide)
    | none =>
      cases hx : l.exponent with
      | some x =>
        refine noDigit_cons.mpr ?_
        rcases x.letter_eq with he | he <;> rw [he] <;> decide
      | none => exact fun d hd => (h d hd).1
  have hbody : ∀ k, (number (firstDigit (.new l.negative) c)).read
      (cs ++ (l.fractionText ++ (l.exponentText ++ u))) k =
      settled u (k + cs.length + (l.fractionText ++ l.exponentText).length) l.token := by
    intro k
    rw [read_firstDigit l hl hrest, read_integer_rest l h]
  rw [NumberLiteral.text, hl]
  cases hneg : l.negative with
  | false =>
    rw [hneg] at hbody
    simp only [Bool.false_eq_true, if_false, List.nil_append, List.cons_append, List.append_assoc]
    rw [read_of_shift (step_blank hc), hbody]
    congr 1
    simp only [List.length_cons, List.length_append]
    omega
  | true =>
    rw [hneg] at hbody
    simp only [if_true, List.cons_append, List.nil_append, List.append_assoc]
    rw [read_of_shift (show blank.step '-' = .shift (number (.sign (.new true))) from rfl),
      read_number_of_shift (step_sign _ hc), hbody]
    congr 1
    simp only [List.length_cons, List.length_append]
    omega

/-! ### Finding literals -/

variable {n : Numeral} {u : List Char} {k : ℕ} {tok : Token} {cur : Cursor}

theorem exists_digits {s : NumberState}
    (hstep : ∀ c, ¬ c.isDigit → ∃ cause, s.step c = .rejectBefore cause ∨ s.step c = .reject cause)
    (hend : ∃ cause, s.atEnd = .rejectBefore cause ∨ s.atEnd = .reject cause)
    (h : (number s).read u k = .ok tok cur) :
    ∃ (ds : Digits) (v : List Char), u = ds.chars ++ v ∧ NoDigit v := by
  obtain ⟨ds, v, rfl, hds, hv⟩ := exists_digits_append u
  cases ds with
  | cons c ds => exact ⟨⟨c :: ds, hds, List.cons_ne_nil c ds⟩, v, rfl, hv⟩
  | nil =>
    exfalso
    cases v with
    | nil =>
      obtain ⟨cause, hcause⟩ := hend
      rw [List.nil_append, read_nil, atEnd] at h
      rcases hcause with hc | hc <;> rw [hc] at h <;> cases h
    | cons c v =>
      obtain ⟨cause, hcause⟩ := hstep c (noDigit_cons.mp hv)
      exact read_number_ne_ok hcause h

theorem exists_digits_markSign {negative : Bool}
    (h : (number (.markSign n negative)).read u k = .ok tok cur) :
    ∃ (ds : Digits) (v : List Char), u = ds.chars ++ v ∧ NoDigit v := by
  refine exists_digits (fun c hc => ⟨.invalidNumber, Or.inl ?_⟩) ⟨_, Or.inl rfl⟩ h
  rw [NumberState.step, Decimal.digit?_eq_none_iff.mpr hc]

theorem exists_digits_point (h : (number (.point n)).read u k = .ok tok cur) :
    ∃ (ds : Digits) (v : List Char), u = ds.chars ++ v ∧ NoDigit v := by
  refine exists_digits (fun c hc => ⟨.invalidNumber, Or.inl ?_⟩) ⟨_, Or.inl rfl⟩ h
  rw [NumberState.step, Decimal.digit?_eq_none_iff.mpr hc]

theorem exists_exponent {c : Char} (hc : c = 'e' ∨ c = 'E')
    (h : (number (.mark n)).read u k = .ok tok cur) :
    ∃ (x : ExponentPart) (v : List Char), c :: u = x.text ++ v ∧ NoDigit v := by
  have hsigned : ∀ (d : Char) (v : List Char), d = '-' ∨ d = '+' → u = d :: v →
      ∃ (x : ExponentPart) (v : List Char), c :: u = x.text ++ v ∧ NoDigit v := by
    intro d v hd hu
    have hstep : (NumberState.mark n).step d = .shift (.markSign n (d = '-')) := by
      rcases hd with rfl | rfl <;> rfl
    rw [hu, read_number_of_shift hstep] at h
    obtain ⟨ds, w, rfl, hw⟩ := exists_digits_markSign h
    refine ⟨⟨c, hc, some d, ?_, ds⟩, w, ?_, hw⟩
    · rintro _ ⟨⟩
      exact hd
    · rw [hu]
      rfl
  cases u with
  | nil => cases h
  | cons d v =>
    by_cases hminus : d = '-'
    · exact hsigned d v (Or.inl hminus) rfl
    by_cases hplus : d = '+'
    · exact hsigned d v (Or.inr hplus) rfl
    have hstep : (NumberState.mark n).step d = (NumberState.markSign n false).step d := by
      rw [NumberState.step, if_neg hminus, if_neg hplus]
      rfl
    have hread : (number (.markSign n false)).read (d :: v) k = .ok tok cur := by
      rw [read_cons, step, ← hstep, ← step, ← read_cons]
      exact h
    obtain ⟨ds, w, hds, hw⟩ := exists_digits_markSign hread
    refine ⟨⟨c, hc, none, by simp, ds⟩, w, ?_, hw⟩
    rw [hds]
    rfl

theorem exists_rest (negative : Bool) (integer : Digits)
    (hzero : integer.chars.head? = some '0' → integer.chars = ['0']) (hu : NoDigit u)
    (h : (number (.integer n)).read u k = .ok tok cur) :
    ∃ (l : NumberLiteral) (v : List Char), l.negative = negative ∧ l.integer = integer ∧
      u = l.fractionText ++ (l.exponentText ++ v) ∧ l.EndsBefore v := by
  -- what may follow a fraction, or the digits before the point if there is none
  have hexponent : ∀ (c : Char) (w : List Char) (m : Numeral) (k : ℕ) (fraction : Option Digits),
      (c = 'e' ∨ c = 'E') → (number (.mark m)).read w k = .ok tok cur →
      ∃ (l : NumberLiteral) (v : List Char), l.negative = negative ∧ l.integer = integer ∧
        l.fraction = fraction ∧ c :: w = l.exponentText ++ v ∧ l.EndsBefore v := by
    intro c w m k fraction hc h
    obtain ⟨x, v, hx, hv⟩ := exists_exponent hc h
    exact ⟨⟨negative, integer, hzero, fraction, some x⟩, v, rfl, rfl, rfl, hx,
      fun d hd => ⟨hv d hd, nofun, nofun⟩⟩
  cases u with
  | nil => exact ⟨⟨negative, integer, hzero, none, none⟩, [], rfl, rfl, rfl, nofun⟩
  | cons c w =>
    by_cases hletter : c = 'e' ∨ c = 'E'
    · rw [read_integer_letter n hletter] at h
      obtain ⟨l, v, hneg, hint, hf, hw, hv⟩ := hexponent c w _ _ none hletter h
      exact ⟨l, v, hneg, hint, by rw [hw, NumberLiteral.fractionText, hf]; rfl, hv⟩
    by_cases hpoint : c = '.'
    · subst hpoint
      rw [read_number_of_shift (show (NumberState.integer n).step '.' = .shift (.point n.asFloat)
        from rfl)] at h
      obtain ⟨ds, w, rfl, hw⟩ := exists_digits_point h
      have hread := read_integer_point n ds w k
      rw [read_number_of_shift (show (NumberState.integer n).step '.' = .shift (.point n.asFloat)
        from rfl), h] at hread
      cases w with
      | nil =>
        exact ⟨⟨negative, integer, hzero, some ds, none⟩, [], rfl, rfl, by
          simp [NumberLiteral.fractionText, NumberLiteral.exponentText], nofun⟩
      | cons d w =>
        by_cases hletter : d = 'e' ∨ d = 'E'
        · rw [read_fraction_letter _ hletter] at hread
          obtain ⟨l, v, hneg, hint, hf, hw, hv⟩ := hexponent d w _ _ (some ds) hletter hread.symm
          exact ⟨l, v, hneg, hint, by rw [hw, NumberLiteral.fractionText, hf]; rfl, hv⟩
        · refine ⟨⟨negative, integer, hzero, some ds, none⟩, d :: w, rfl, rfl, rfl, ?_⟩
          rintro _ ⟨⟩
          exact ⟨noDigit_cons.mp hw, fun _ => not_or.mp hletter, nofun⟩
    · refine ⟨⟨negative, integer, hzero, none, none⟩, c :: w, rfl, rfl, rfl, ?_⟩
      rintro _ ⟨⟩
      exact ⟨noDigit_cons.mp hu, fun _ => not_or.mp hletter, fun _ _ => hpoint⟩

theorem exists_literal_firstDigit (negative : Bool) {c : Char} (hc : c.isDigit)
    (h : (number (firstDigit n c)).read u k = .ok tok cur) :
    ∃ (l : NumberLiteral) (v : List Char), l.negative = negative ∧
      c :: u = l.integer.chars ++ (l.fractionText ++ (l.exponentText ++ v)) ∧ l.EndsBefore v := by
  by_cases hzero : c = '0'
  · subst hzero
    have hu : NoDigit u := by
      cases u with
      | nil => exact noDigit_nil
      | cons d u =>
        refine noDigit_cons.mpr fun hd => ?_
        have hstep : (firstDigit n '0').step d = .rejectBefore .invalidNumber := by
          rw [firstDigit, if_pos rfl, NumberState.step, Decimal.digit?_of_isDigit hd]
        exact read_number_ne_ok (Or.inl hstep) h
    rw [firstDigit, if_pos rfl, read_zero n hu] at h
    obtain ⟨l, v, hneg, hint, rfl, hv⟩ := exists_rest negative
      ⟨['0'], by simp [IsDigits], List.cons_ne_nil _ _⟩ (fun _ => rfl) hu h
    exact ⟨l, v, hneg, by rw [hint]; rfl, hv⟩
  · obtain ⟨cs, w, rfl, hcs, hw⟩ := exists_digits_append u
    rw [firstDigit, if_neg hzero, read_integer hcs] at h
    have hdigits : IsDigits (c :: cs) := fun d hd => by
      rcases List.mem_cons.mp hd with rfl | hd
      · exact hc
      · exact hcs d hd
    obtain ⟨l, v, hneg, hint, rfl, hv⟩ := exists_rest negative ⟨c :: cs, hdigits, by simp⟩
      (fun h => absurd (Option.some.inj h) hzero) hw h
    exact ⟨l, v, hneg, by rw [hint]; rfl, hv⟩

/-- A number that is read has a literal at the front of its text. -/
theorem exists_literal {c : Char} {s : NumberState} (hs : NumberState.start? c = some s)
    (h : (number s).read u k = .ok tok cur) :
    ∃ (l : NumberLiteral) (v : List Char), c :: u = l.text ++ v ∧ l.EndsBefore v := by
  by_cases hminus : c = '-'
  · subst hminus
    cases hs
    obtain ⟨ds, w, rfl, hw⟩ := exists_digits (fun c hc => ⟨.invalidNumber, Or.inr (by
      rw [NumberState.step, Decimal.digit?_eq_none_iff.mpr hc])⟩) ⟨_, Or.inr rfl⟩ h
    obtain ⟨d, ds, hds, hd, -⟩ := ds.exists_cons
    rw [hds, List.cons_append, read_number_of_shift (step_sign _ hd)] at h
    obtain ⟨l, v, hneg, hu, hv⟩ := exists_literal_firstDigit true hd h
    refine ⟨l, v, ?_, hv⟩
    rw [hds, List.cons_append, hu, NumberLiteral.text, if_pos hneg]
    simp only [List.cons_append, List.nil_append, List.append_assoc]
  · have hc : c.isDigit := by
      by_contra hc
      rw [NumberState.start?, if_neg hminus, Decimal.digit?_eq_none_iff.mpr hc] at hs
      cases hs
    cases (start?_of_isDigit hc).symm.trans hs
    obtain ⟨l, v, hneg, hu, hv⟩ := exists_literal_firstDigit false hc h
    refine ⟨l, v, ?_, hv⟩
    rw [hu, NumberLiteral.text, if_neg (by rw [hneg]; decide)]
    simp only [List.nil_append, List.append_assoc]

end TokenState

end JsonDoc

import Mathlib.Tactic
import JsonDoc.Decimal
import JsonDoc.Integer

/-!
# Decimal digits

The digits of a whole number and the number that digits denote, and the same of the text of a
decimal: `ofText?_append` reads back a coefficient and an exponent that were written one after the
other.
-/

namespace JsonDoc

@[simp] theorem tenPow_eq (n : ℕ) : tenPow n = 10 ^ n := rfl

/-! ### The count of digits -/

theorem decimalLength_pos (n : ℕ) : 0 < decimalLength n := Nat.length_toDigits_pos

theorem decimalLength_le_iff {n k : ℕ} (hk : 0 < k) : decimalLength n ≤ k ↔ n < 10 ^ k :=
  Nat.length_toDigits_le_iff (by decide) hk

theorem lt_pow_decimalLength (n : ℕ) : n < 10 ^ decimalLength n :=
  (decimalLength_le_iff (decimalLength_pos n)).mp le_rfl

theorem pow_decimalLength_le {n : ℕ} (hn : 0 < n) : 10 ^ (decimalLength n - 1) ≤ n := by
  rcases Nat.eq_zero_or_pos (decimalLength n - 1) with h | h
  · rw [h, pow_zero]
    exact hn
  · by_contra hlt
    have := (decimalLength_le_iff h).mpr (not_le.mp hlt)
    omega

theorem decimalLength_eq {n k : ℕ} (hlow : 10 ^ (k - 1) ≤ n) (hhigh : n < 10 ^ k) (hk : 0 < k) :
    decimalLength n = k := by
  have hle := (decimalLength_le_iff hk).mpr hhigh
  have hpos := decimalLength_pos n
  rcases Nat.eq_zero_or_pos (k - 1) with h | h
  · omega
  · have := mt (decimalLength_le_iff h).mp (not_lt.mpr hlow)
    omega

/-! ### The number that digits denote -/

/-- All characters are decimal digits. -/
def IsDigits (cs : List Char) : Prop := ∀ c ∈ cs, c.isDigit

theorem isDigits_toDigits (n : ℕ) : IsDigits (Nat.toDigits 10 n) :=
  fun _ hc => Nat.isDigit_of_mem_toDigits (by decide) (by decide) hc

theorem IsDigits.append {cs ds : List Char} (hc : IsDigits cs) (hd : IsDigits ds) :
    IsDigits (cs ++ ds) := by
  intro c h
  rcases List.mem_append.mp h with h | h
  · exact hc c h
  · exact hd c h

theorem IsDigits.of_cons {c : Char} {cs : List Char} (h : IsDigits (c :: cs)) :
    c.isDigit ∧ IsDigits cs :=
  ⟨h c List.mem_cons_self, fun d hd => h d (List.mem_cons_of_mem c hd)⟩

/-- Only the digits of zero start with one. -/
theorem head?_toDigits_ne {n : ℕ} (hn : 0 < n) : (Nat.toDigits 10 n).head? ≠ some '0' := by
  induction n using Nat.base_induction 10 (by decide) with
  | single n hlt =>
    have h : ∀ n < 10, 0 < n → n.digitChar ≠ '0' := by decide
    rw [Nat.toDigits_of_lt_base hlt, List.head?_singleton, ne_eq, Option.some.injEq]
    exact h n hlt hn
  | digit m k hk hm ih =>
    rw [← Nat.toDigits_append_toDigits (by decide) hm hk, List.head?_append_of_ne_nil _
      Nat.toDigits_ne_nil]
    exact ih hm

theorem isDigits_replicate_zero (n : ℕ) : IsDigits (List.replicate n '0') := by
  intro c hc
  rw [List.eq_of_mem_replicate hc]
  decide

namespace Decimal

theorem isDigit_iff (c : Char) : c.isDigit ↔ '0' ≤ c ∧ c ≤ '9' := by
  simp [Char.isDigit, Char.le_def]

theorem digit?_of_isDigit {c : Char} (h : c.isDigit) : digit? c = some (c.toNat - 48) := by
  rw [digit?, if_pos ((isDigit_iff c).mp h)]

theorem digit?_eq_none_iff {c : Char} : digit? c = none ↔ ¬ c.isDigit := by
  unfold digit?
  rw [isDigit_iff]
  split <;> simp_all

theorem digit_lt_ten {c : Char} (h : c.isDigit) : c.toNat - 48 < 10 := by
  obtain ⟨-, h⟩ := (isDigit_iff c).mp h
  have : c.toNat ≤ 57 := h
  omega

/-- A character that is a digit is the one of its value. -/
theorem eq_of_digit_eq {c d : Char} (hc : c.isDigit) (hd : d.isDigit)
    (h : c.toNat - 48 = d.toNat - 48) : c = d := by
  have h₁ : 48 ≤ c.toNat := ((isDigit_iff c).mp hc).1
  have h₂ : 48 ≤ d.toNat := ((isDigit_iff d).mp hd).1
  exact Char.toNat_inj.mp (by omega)

theorem foldlM_digit? {cs : List Char} (h : IsDigits cs) (n : ℕ) :
    cs.foldlM (fun n c => (digit? c).map (10 * n + ·)) n = some (Nat.ofDigitChars 10 cs n) := by
  induction cs generalizing n with
  | nil => simp
  | cons c cs ih =>
    obtain ⟨hc, hcs⟩ := h.of_cons
    rw [List.foldlM_cons, digit?_of_isDigit hc, Nat.ofDigitChars_cons]
    exact ih hcs _

theorem natural?_of_isDigits {cs : List Char} (h : IsDigits cs) (hne : cs ≠ []) :
    natural? cs = some (Nat.ofDigitChars 10 cs 0) := by
  cases cs with
  | nil => exact absurd rfl hne
  | cons c cs => exact foldlM_digit? h 0

theorem natural?_toDigits (n : ℕ) : natural? (Nat.toDigits 10 n) = some n := by
  rw [natural?_of_isDigits (isDigits_toDigits n) Nat.toDigits_ne_nil, Nat.ofDigitChars_ten_toDigits]

theorem integer?_text (i : ℤ) : integer? (Integer.text i) = some i := by
  unfold Integer.text
  split
  case isTrue h =>
    rw [integer?, natural?_toDigits]
    have : -(i.natAbs : ℤ) = i := by omega
    exact congrArg some this
  case isFalse h =>
    have hd := isDigits_toDigits i.natAbs
    have hne : Nat.toDigits 10 i.natAbs ≠ [] := Nat.toDigits_ne_nil
    have hval := natural?_toDigits i.natAbs
    generalize Nat.toDigits 10 i.natAbs = cs at *
    unfold integer?
    split
    · exact absurd hd.of_cons.1 (by decide)
    · rw [hval, Option.map_some, Int.ofNat_eq_natCast, Option.some.injEq]
      omega

/-- A coefficient and an exponent are read back from their digits. -/
theorem ofText?_append {cs : List Char} (h : IsDigits cs) (hne : cs ≠ []) (i : ℤ) :
    ofText? (cs ++ 'e' :: Integer.text i) = some ⟨Nat.ofDigitChars 10 cs 0, i⟩ := by
  have he : ∀ c ∈ cs, (c != 'e') = true := by
    intro c hc
    simp only [bne_iff_ne, ne_eq]
    rintro rfl
    exact absurd (h _ hc) (by decide)
  have ht : (cs ++ 'e' :: Integer.text i).takeWhile (· != 'e') = cs := by
    rw [List.takeWhile_append_of_pos he]
    simp
  have hd : (cs ++ 'e' :: Integer.text i).dropWhile (· != 'e') = 'e' :: Integer.text i := by
    rw [List.dropWhile_append_of_pos he]
    simp
  unfold ofText?
  rw [ht, hd, natural?_of_isDigits h hne]
  simp only [integer?_text, Option.map_some]

end Decimal

/-- Digits denote less than the power of ten of their count. -/
theorem IsDigits.ofDigitChars_lt {cs : List Char} (h : IsDigits cs) (a : ℕ) :
    Nat.ofDigitChars 10 cs a < (a + 1) * 10 ^ cs.length := by
  induction cs generalizing a with
  | nil => simp
  | cons c cs ih =>
    obtain ⟨hc, hcs⟩ := h.of_cons
    have hd : c.toNat - '0'.toNat < 10 := Decimal.digit_lt_ten hc
    rw [Nat.ofDigitChars_cons, List.length_cons, pow_succ']
    calc Nat.ofDigitChars 10 cs (10 * a + (c.toNat - '0'.toNat))
        < (10 * a + (c.toNat - '0'.toNat) + 1) * 10 ^ cs.length := ih hcs _
      _ ≤ (10 * (a + 1)) * 10 ^ cs.length := Nat.mul_le_mul_right _ (by omega)
      _ = (a + 1) * (10 * 10 ^ cs.length) := by ring

/-- A smaller first digit is not made up for by the others. -/
theorem IsDigits.ofDigitChars_cons_lt {c d : Char} {cs ds : List Char} (hcs : IsDigits cs)
    (hlen : cs.length = ds.length) (h : c.toNat - 48 < d.toNat - 48) (a : ℕ) :
    Nat.ofDigitChars 10 (c :: cs) a < Nat.ofDigitChars 10 (d :: ds) a := by
  rw [Nat.ofDigitChars_cons, Nat.ofDigitChars_cons]
  calc Nat.ofDigitChars 10 cs (10 * a + (c.toNat - 48))
      < (10 * a + (c.toNat - 48) + 1) * 10 ^ cs.length := hcs.ofDigitChars_lt _
    _ ≤ (10 * a + (d.toNat - 48)) * 10 ^ cs.length := Nat.mul_le_mul_right _ (by omega)
    _ = 10 ^ ds.length * (10 * a + (d.toNat - 48)) := by rw [hlen, mul_comm]
    _ ≤ Nat.ofDigitChars 10 ds (10 * a + (d.toNat - 48)) := by
      rw [Nat.ofDigitChars_eq_ofDigitChars_zero]
      exact Nat.le_add_right _ _

/-- Of digits of one length those denote less that come first by their characters. -/
theorem ofDigitChars_lt_iff {cs ds : List Char} (hcs : IsDigits cs) (hds : IsDigits ds)
    (hlen : cs.length = ds.length) (a : ℕ) :
    Nat.ofDigitChars 10 cs a < Nat.ofDigitChars 10 ds a ↔ cs < ds := by
  induction cs generalizing ds a with
  | nil =>
    rw [List.eq_nil_of_length_eq_zero hlen.symm]
    exact iff_of_false (lt_irrefl _) (List.not_lt_nil [])
  | cons c cs ih =>
    obtain _ | ⟨d, ds⟩ := ds
    · cases hlen
    · obtain ⟨hc, hcs'⟩ := hcs.of_cons
      obtain ⟨hd, hds'⟩ := hds.of_cons
      have hlen' : cs.length = ds.length := Nat.succ.inj hlen
      have hchar : c < d ↔ c.toNat - 48 < d.toNat - 48 := by
        have h₁ : 48 ≤ c.toNat := ((Decimal.isDigit_iff c).mp hc).1
        have h₂ : 48 ≤ d.toNat := ((Decimal.isDigit_iff d).mp hd).1
        change c.toNat < d.toNat ↔ _
        omega
      rw [List.cons_lt_cons_iff, hchar]
      rcases lt_trichotomy (c.toNat - 48) (d.toNat - 48) with hlt | heq | hgt
      · exact iff_of_true (hcs'.ofDigitChars_cons_lt hlen' hlt a) (Or.inl hlt)
      · obtain rfl := Decimal.eq_of_digit_eq hc hd heq
        rw [Nat.ofDigitChars_cons, Nat.ofDigitChars_cons, ih hcs' hds' hlen']
        simp
      · refine iff_of_false (hds'.ofDigitChars_cons_lt hlen'.symm hgt a).not_gt ?_
        rintro (hlt | ⟨rfl, -⟩)
        · exact hlt.not_gt hgt
        · exact lt_irrefl _ hgt

/-! ### The digits of the number that digits denote -/

theorem ofDigitChars_append_singleton (cs : List Char) (c : Char) :
    Nat.ofDigitChars 10 (cs ++ [c]) 0 = 10 * Nat.ofDigitChars 10 cs 0 + (c.toNat - 48) := by
  rw [Nat.ofDigitChars_append, Nat.ofDigitChars_cons, Nat.ofDigitChars_nil]
  rfl

theorem toDigits_of_isDigit {c : Char} (hc : c.isDigit) : Nat.toDigits 10 (c.toNat - 48) = [c] := by
  have hlt := Decimal.digit_lt_ten hc
  have hvalue := Nat.toNat_digitChar_of_lt_ten hlt
  rw [Nat.toDigits_of_lt_base hlt, List.singleton_inj]
  refine Decimal.eq_of_digit_eq ?_ hc (by omega)
  rw [Nat.isDigit_digitChar, decide_eq_true_eq]
  exact hlt

/-- Digits that do not start with zero are those of the number that they denote. -/
theorem toDigits_ofDigitChars {ds : List Char} (h : IsDigits ds) (hne : ds ≠ [])
    (hhead : ds.head? ≠ some '0') : Nat.toDigits 10 (Nat.ofDigitChars 10 ds 0) = ds := by
  induction ds using List.reverseRecOn with
  | nil => exact absurd rfl hne
  | append_singleton cs c ih =>
    have hc : c.isDigit := h c (by simp)
    rw [ofDigitChars_append_singleton]
    rcases cs with _ | ⟨d, cs⟩
    · rw [Nat.ofDigitChars_nil, mul_zero, zero_add]
      exact toDigits_of_isDigit hc
    · have hcs : IsDigits (d :: cs) := fun e he => h e (List.mem_append_left _ he)
      have hfirst : (d :: cs).head? ≠ some '0' := hhead
      have hdigits := ih hcs (List.cons_ne_nil _ _) hfirst
      have hpos : 0 < Nat.ofDigitChars 10 (d :: cs) 0 := by
        refine Nat.pos_of_ne_zero fun hzero => hfirst ?_
        rw [← hdigits, hzero]
        rfl
      rw [← Nat.toDigits_append_toDigits (by decide) hpos (Decimal.digit_lt_ten hc), hdigits]
      exact congrArg _ (toDigits_of_isDigit hc)

/-- The first digits of a number are those of its quotient by a power of ten. -/
theorem take_toDigits {n k : ℕ} (hn : 0 < n) (hk : 0 < k) (hlen : k ≤ decimalLength n) :
    (Nat.toDigits 10 n).take k = Nat.toDigits 10 (n / 10 ^ (decimalLength n - k)) := by
  have hdigits := isDigits_toDigits n
  have hhead := head?_toDigits_ne hn
  have hvalue := @Nat.ofDigitChars_ten_toDigits n
  unfold decimalLength at hlen ⊢
  generalize Nat.toDigits 10 n = ds at *
  have htake : IsDigits (ds.take k) := fun c hc => hdigits c (List.mem_of_mem_take hc)
  have hdrop : IsDigits (ds.drop k) := fun c hc => hdigits c (List.mem_of_mem_drop hc)
  have hlt := hdrop.ofDigitChars_lt 0
  rw [List.length_drop, zero_add, one_mul] at hlt
  rw [← List.take_append_drop k ds, Nat.ofDigitChars_append, Nat.ofDigitChars_eq_ofDigitChars_zero,
    List.length_drop] at hvalue
  rw [← hvalue, Nat.mul_add_div (by positivity), Nat.div_eq_of_lt hlt, add_zero,
    toDigits_ofDigitChars htake]
  · rw [← List.length_pos_iff, List.length_take]
    omega
  · rwa [List.head?_take, if_neg hk.ne']

theorem head?_toDigits_pow (k : ℕ) : (Nat.toDigits 10 (10 ^ k)).head? = some '1' := by
  induction k with
  | zero => rfl
  | succ k ih =>
    have hpos : 0 < 10 ^ k := Nat.pow_pos (by decide)
    rw [pow_succ', ← add_zero (10 * 10 ^ k), ← Nat.toDigits_append_toDigits (by decide) hpos
      (by decide), List.head?_append_of_ne_nil _ Nat.toDigits_ne_nil]
    exact ih

/-- What starts with a one is less than twice the power of ten. -/
theorem head?_toDigits_ne_one {n k : ℕ} (hlow : 2 * 10 ^ k ≤ n) (hhigh : n < 10 ^ (k + 1)) :
    (Nat.toDigits 10 n).head? ≠ some '1' := by
  intro hhead
  have hlen : (Nat.toDigits 10 n).length ≤ k + 1 :=
    (decimalLength_le_iff (Nat.succ_pos k)).mpr hhigh
  have hvalue := @Nat.ofDigitChars_ten_toDigits n
  have hdigits := isDigits_toDigits n
  rcases hcons : Nat.toDigits 10 n with _ | ⟨c, cs⟩
  · exact Nat.toDigits_ne_nil hcons
  · rw [hcons] at hhead hlen hvalue hdigits
    obtain rfl : c = '1' := by simpa using hhead
    have hlt := hdigits.of_cons.2.ofDigitChars_lt 1
    rw [Nat.ofDigitChars_cons] at hvalue
    have hle : 10 ^ cs.length ≤ 10 ^ k := Nat.pow_le_pow_right (by decide) (by simpa using hlen)
    have hvalue' : Nat.ofDigitChars 10 cs 1 = n := hvalue
    omega

end JsonDoc

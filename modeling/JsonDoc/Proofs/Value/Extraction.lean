import JsonDoc.Proofs.Binary64.Tolerance
import JsonDoc.Value.Convert

/-!
# Integers extracted from values

An integer of a type is extracted through one of 64 bits: of a floating point number the integer
part is kept within the bounds of 64 bits, and only then compared with those of the type.  So what
is extracted is the integer part of the number and no other one, but that not-a-number gives zero,
and a number too large for 64 bits the largest integer of them, where that is of the type
(`Value.extracts_integer_iff`).
-/

namespace JsonDoc

/-! ### Integer parts -/

/-- The integer part of a number, which is cut off towards zero. -/
def integerPart (x : ℚ) : ℤ := if x < 0 then ⌈x⌉ else ⌊x⌋

theorem integerPart_intCast (i : ℤ) : integerPart i = i := by
  unfold integerPart
  split
  · exact Int.ceil_intCast i
  · exact Int.floor_intCast i

theorem integerPart_neg (x : ℚ) : integerPart (-x) = -integerPart x := by
  unfold integerPart
  rcases lt_trichotomy x 0 with hx | rfl | hx
  · rw [if_neg (by linarith), if_pos hx, Int.floor_neg]
  · simp
  · rw [if_pos (by linarith), if_neg (by linarith), Int.ceil_neg]

/-- A number is below a power of two iff its integer part is. -/
theorem integerPart_lt_two_pow_iff (x : ℚ) (bits : ℕ) :
    integerPart x < 2 ^ bits ↔ x < 2 ^ bits := by
  unfold integerPart
  split
  case isTrue hx =>
    have hceil : ⌈x⌉ ≤ 0 := Int.ceil_le.mpr (by exact_mod_cast hx.le)
    exact iff_of_true (hceil.trans_lt (by positivity)) (hx.trans (by positivity))
  case isFalse =>
    rw [Int.floor_lt]
    push_cast
    rfl

namespace Binary64

theorem truncate_eq (negative : Bool) (m : Magnitude) :
    truncate negative m = integerPart (finite negative m).toRat := by
  have hpart : ((m.units / unitsPerOne : ℕ) : ℤ) = integerPart (valueAt m.code) := by
    have hnonneg : ¬ valueAt m.code < 0 := by
      rw [not_lt, ← valueAt_zero]
      exact valueAt_le_valueAt (Nat.zero_le _)
    rw [integerPart, if_neg hnonneg, valueAt, Rat.floor_natCast_div_natCast]
    rfl
  rw [truncate, toRat_finite, hpart]
  cases negative with
  | false => rfl
  | true => exact (integerPart_neg _).symm

theorem toInt64_finite (negative : Bool) (m : Magnitude) :
    (finite negative m).toInt64 = Integer.saturate (integerPart (finite negative m).toRat) := by
  rw [← truncate_eq]
  rfl

end Binary64

theorem IntegerType.least_le_of_contains (t : IntegerType) {n : ℤ} (h : t.contains n = true) :
    t.least ≤ n := by
  rw [contains, Bool.and_eq_true, decide_eq_true_iff] at h
  exact h.1

/-- Of the types but those of 64 bits with a sign, none has the least integer of 64 bits, and those of
as many bits without a sign have the largest. -/
theorem IntegerType.bounds_of_mem_all : ∀ t ∈ IntegerType.all, t.name ∉ ["i64", "isize"] →
    -2 ^ 63 < t.least ∧ (t.contains (2 ^ 63 - 1) = true ↔ t.name ∈ ["u64", "usize"]) := by
  decide

namespace Value

/-- The number that a value is, exactly: an integer, or a floating point number that is finite. -/
def number? : Value → Option ℚ
  | integer i => some i.toInt
  | float (.finite negative m) => some (Binary64.finite negative m).toRat
  | _ => none

/-- The value is a floating point number above every integer of 64 bits. -/
def IsBeyondInt64 : Value → Prop
  | float (.infinite negative) => negative = Bool.false
  | float (.finite negative m) => 2 ^ 63 ≤ (Binary64.finite negative m).toRat
  | _ => False

section

variable {t : IntegerType} {v : Value} {n : ℤ}

/-! ### Extraction by way of 64 bits -/

theorem toIntegerType?_eq_some_iff : v.toIntegerType? t = some n ↔
    t.contains n = true ∧ ∃ i, v.asInteger = .ok i ∧ i.toInt = n := by
  unfold toIntegerType?
  cases v.asInteger with
  | error e => simp
  | ok i =>
    simp only [Option.ite_none_right_eq_some, Option.some.injEq, Except.ok.injEq, exists_eq_left']
    exact and_congr_left fun h => by rw [h]

theorem asIntegerType_eq_ok_iff : v.asIntegerType t = .ok n ↔
    t.contains n = true ∧ ∃ i, v = integer i ∧ i.toInt = n := by
  have herror {e : Error} : (Except.error e : Except Error ℤ) ≠ .ok n := nofun
  cases v with
  | integer i =>
    have hread : (integer i).asIntegerType t = if t.contains i.toInt then .ok i.toInt
        else .error ((integer i).typeMismatch ("integer within " ++ t.name)) := rfl
    rw [hread]
    constructor
    · intro h
      split at h
      case isTrue hcontains =>
        cases h
        exact ⟨hcontains, i, rfl, rfl⟩
      case isFalse => exact absurd h herror
    · rintro ⟨hcontains, j, hj, rfl⟩
      cases hj
      exact if_pos hcontains
  | _ => exact iff_of_false herror fun ⟨_, _, hv, _⟩ => nomatch hv

/-- An integer of a type without the least one of 64 bits is the nearest one to an integer of any
size iff it is that integer, or the largest one of 64 bits and the integer is beyond it. -/
theorem toInt_saturate_eq_iff (hleast : -2 ^ 63 < t.least) (hn : t.contains n = true) (k : ℤ) :
    (Integer.saturate k).toInt = n ↔ k < 2 ^ 63 ∧ n = k ∨ 2 ^ 63 ≤ k ∧ n = 2 ^ 63 - 1 := by
  have hlow := t.least_le_of_contains hn
  rw [Integer.toInt_saturate, Int64.toInt_minValue, Int64.toInt_maxValue]
  omega

/-- What is extracted as a type without the least integer of 64 bits. -/
theorem toIntegerType?_iff_of_least (hleast : -2 ^ 63 < t.least) : v.toIntegerType? t = some n ↔
    t.contains n = true ∧ ((∃ x, v.number? = some x ∧ x < 2 ^ 63 ∧ n = integerPart x) ∨
      v = float .nan ∧ n = 0 ∨ v.IsBeyondInt64 ∧ n = 2 ^ 63 - 1) := by
  rw [toIntegerType?_eq_some_iff]
  refine and_congr_right fun hn => ?_
  have hread {i : Int64} (hv : v.asInteger = .ok i) :
      (∃ j, v.asInteger = .ok j ∧ j.toInt = n) ↔ i.toInt = n := by
    simp [hv]
  match v with
  | integer i =>
    have hlt : (i.toInt : ℚ) < 2 ^ 63 := by exact_mod_cast i.toInt_lt
    rw [hread rfl]
    simp [number?, IsBeyondInt64, integerPart_intCast, hlt, eq_comm]
  | float .nan =>
    rw [hread rfl]
    simp [number?, IsBeyondInt64, Binary64.toInt64, eq_comm]
  | float (.infinite false) =>
    rw [hread rfl, Binary64.toInt64, if_neg nofun, Int64.toInt_maxValue]
    simp [number?, IsBeyondInt64, eq_comm]
  | float (.infinite true) =>
    have hne : n ≠ -2 ^ 63 := (hleast.trans_le (t.least_le_of_contains hn)).ne'
    rw [hread rfl, Binary64.toInt64, if_pos rfl, Int64.toInt_minValue]
    simpa [number?, IsBeyondInt64, eq_comm] using hne
  | float (.finite s m) =>
    rw [hread rfl, Binary64.toInt64_finite, toInt_saturate_eq_iff hleast hn, ← not_lt,
      integerPart_lt_two_pow_iff, not_lt]
    simp [number?, IsBeyondInt64]
  | null | bool _ | string _ | array _ | object _ => simp [asInteger, number?, IsBeyondInt64]

/-- What is extracted leniently as an integer of a type other than that of 64 bits with a sign is
the integer part of the number that the value is, if it is of the type.  There are two exceptions:
not-a-number gives zero, and for the types of 64 bits without a sign a floating point number above
every integer of 64 bits gives the largest one of them.  What is extracted strictly is an integer of
the type, which is extracted leniently as well. -/
theorem extracts_integer_iff (ht : t ∈ IntegerType.all) (hsigned : t.name ∉ ["i64", "isize"])
    (v : Value) :
    (∀ n, v.toIntegerType? t = some n ↔ t.contains n = true ∧
        ((∃ x, v.number? = some x ∧ x < 2 ^ 63 ∧ n = integerPart x) ∨ v = float .nan ∧ n = 0 ∨
          t.name ∈ ["u64", "usize"] ∧ v.IsBeyondInt64 ∧ n = 2 ^ 63 - 1)) ∧
      (∀ n, v.asIntegerType t = .ok n ↔ t.contains n = true ∧ ∃ i, v = integer i ∧ i.toInt = n) ∧
      ∀ n, v.asIntegerType t = .ok n → v.toIntegerType? t = some n := by
  obtain ⟨hleast, hlargest⟩ := IntegerType.bounds_of_mem_all t ht hsigned
  have hiff : ∀ n, v.toIntegerType? t = some n ↔ _ := fun n => toIntegerType?_iff_of_least hleast
  refine ⟨fun n => (hiff n).trans (and_congr_right fun hn => ?_), fun n => asIntegerType_eq_ok_iff,
    fun n h => ?_⟩
  · have hname : n = 2 ^ 63 - 1 → t.name ∈ ["u64", "usize"] := by
      rintro rfl
      exact hlargest.mp hn
    exact or_congr_right (or_congr_right (and_iff_right_of_imp fun h => hname h.2).symm)
  · obtain ⟨hn, i, rfl, rfl⟩ := asIntegerType_eq_ok_iff.mp h
    exact toIntegerType?_eq_some_iff.mpr ⟨hn, i, rfl, rfl⟩

/-- From an infinity the largest integer of 64 bits is extracted, and only leniently. -/
theorem extracts_integer_iff_infinite :
    let u64 := IntegerType.unsigned "u64" 64
    u64 ∈ IntegerType.all ∧ u64.name ∉ ["i64", "isize"] ∧
      (float (.infinite false)).toIntegerType? u64 = some (2 ^ 63 - 1) ∧
      (∀ n, (float (.infinite false)).asIntegerType u64 ≠ .ok n) ∧
      (integer .maxValue).asIntegerType u64 = .ok (2 ^ 63 - 1) ∧
      (integer .maxValue).toIntegerType? u64 = some (2 ^ 63 - 1) := by
  intro u64
  have hu64 : u64 ∈ IntegerType.all ∧ u64.name ∉ ["i64", "isize"] := by decide
  obtain ⟨hinfinite, hstrict, -⟩ := extracts_integer_iff hu64.1 hu64.2 (float (.infinite false))
  obtain ⟨-, hinteger, hboth⟩ := extracts_integer_iff hu64.1 hu64.2 (integer .maxValue)
  have hok : (integer .maxValue).asIntegerType u64 = .ok (2 ^ 63 - 1) :=
    (hinteger _).mpr ⟨by decide, _, rfl, Int64.toInt_maxValue⟩
  refine ⟨hu64.1, hu64.2, ?_, fun n h => ?_, hok, hboth _ hok⟩
  · exact (hinfinite _).mpr ⟨by decide, Or.inr (Or.inr ⟨by decide, rfl, rfl⟩)⟩
  · obtain ⟨-, i, hi, -⟩ := (hstrict n).mp h
    cases hi

/-- Both exceptions: not-a-number, and the least number above every integer of 64 bits. -/
theorem extracts_another_number :
    let large := Binary64.finite false ⟨0x43E0000000000000, by decide⟩
    (IntegerType.signed "i32" 32 ∈ IntegerType.all ∧ (float .nan).number? = none ∧
      (float .nan).toIntegerType? (.signed "i32" 32) = some 0) ∧
    (IntegerType.unsigned "u64" 64 ∈ IntegerType.all ∧ (float large).number? = some (2 ^ 63) ∧
      integerPart (2 ^ 63) ≠ 2 ^ 63 - 1 ∧
      (float large).toIntegerType? (.unsigned "u64" 64) = some (2 ^ 63 - 1)) := by
  intro large
  have hvalue : large.toRat = 2 ^ 63 := by
    have hunits : unitsAt 0x43E0000000000000 = 2 ^ 63 * unitsPerOne := by decide +kernel
    have htoRat : large.toRat = (unitsAt 0x43E0000000000000 : ℚ) / unitsPerOne := rfl
    rw [htoRat, hunits, Nat.cast_mul, mul_div_cancel_right₀ _ unitsPerOne_pos.ne']
    norm_num
  refine ⟨⟨by decide, rfl, by decide⟩, by decide, ?_, ?_, by decide +kernel⟩
  · rw [← hvalue]
    rfl
  · norm_num [integerPart]

end

end Value

end JsonDoc

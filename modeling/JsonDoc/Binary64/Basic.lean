/-!
# Binary floating point numbers of 64 bits

A number is not-a-number, an infinity, or a sign with a magnitude.  The finite magnitudes are
numbered from zero in increasing order (`Magnitude.code`), and each is a whole number of units of
`2 ^ -1074` (`Magnitude.units`), so that everything said about them is said about natural numbers.

`Binary64.rank` places every number but not-a-number on the line of integers: two numbers are equal
as numbers, whatever the sign of a zero, iff they have the same rank, and one is below the other iff
its rank is.
-/

namespace JsonDoc

/-- The number of the least magnitude that is too large to be finite. -/
def infinityCode : Nat := 0x7FF0000000000000

/-- How many magnitudes of full precision there are from a power of two up to the next, `2 ^ 52`; the
least of them all has this number as well. -/
def stride : Nat := 0x10000000000000

/-- One is this many units. -/
def unitsPerOne : Nat := 1 <<< 1074

/-- The units of the magnitude with a number, finite or not: the lowest `2 ^ 53` magnitudes are
consecutive, and from there on the gap between neighbours doubles every `2 ^ 52` magnitudes. -/
def unitsAt (code : Nat) : Nat :=
  if code < stride then code else (stride + code % stride) <<< (code / stride - 1)

/-- The next magnitude has more units. -/
theorem unitsAt_lt_succ (code : Nat) : unitsAt code < unitsAt (code + 1) := by
  simp only [unitsAt, stride, Nat.shiftLeft_eq]
  split
  case isTrue h =>
    split
    case isTrue => omega
    case isFalse h1 =>
      have hcode : code + 1 = 0x10000000000000 := by omega
      rw [hcode]
      simp
      omega
  case isFalse h =>
    rw [if_neg (by omega)]
    by_cases hr : code % 0x10000000000000 + 1 < 0x10000000000000
    · have hq : (code + 1) / 0x10000000000000 = code / 0x10000000000000 := by omega
      have hm : (code + 1) % 0x10000000000000 = code % 0x10000000000000 + 1 := by omega
      rw [hq, hm]
      exact Nat.mul_lt_mul_of_pos_right (by omega) (Nat.two_pow_pos _)
    · have hq : (code + 1) / 0x10000000000000 - 1 = (code / 0x10000000000000 - 1) + 1 := by omega
      have hm : (code + 1) % 0x10000000000000 = 0 := by omega
      rw [hq, hm, Nat.pow_succ', ← Nat.mul_assoc]
      exact Nat.mul_lt_mul_of_pos_right (by omega) (Nat.two_pow_pos _)

/-- The numbers of magnitudes are in the order of their units. -/
theorem unitsAt_lt_unitsAt {a b : Nat} (h : a < b) : unitsAt a < unitsAt b := by
  induction h with
  | refl => exact unitsAt_lt_succ a
  | step _ ih => exact Nat.lt_trans ih (unitsAt_lt_succ _)

/-- A finite magnitude, by its number in increasing order. -/
structure Magnitude where
  code : Nat
  code_lt : code < infinityCode
  deriving DecidableEq, Repr

namespace Magnitude

/-- The magnitude zero. -/
def zero : Magnitude := ⟨0, by decide⟩

/-- The least magnitude of full precision, `2 ^ -1022`. -/
def leastNormal : Magnitude := ⟨stride, by decide⟩

/-- The value in units. -/
def units (m : Magnitude) : Nat := unitsAt m.code

end Magnitude

/-- A floating point number. -/
inductive Binary64 where
  | nan
  | infinite (negative : Bool)
  | finite (negative : Bool) (magnitude : Magnitude)
  deriving DecidableEq, Repr

namespace Binary64

/-- The positive zero. -/
def zero : Binary64 := finite false .zero

/-- The tests for a number that is neither infinite nor not-a-number. -/
def isFinite : Binary64 → Bool
  | finite .. => true
  | _ => false

/-- The number without its sign. -/
def abs : Binary64 → Binary64
  | nan => nan
  | infinite _ => infinite false
  | finite _ m => finite false m

/-! ### Order -/

/-- The place among the integers; a zero of either sign has place zero. -/
def rank? : Binary64 → Option Int
  | nan => none
  | infinite negative => some (if negative then -infinityCode else infinityCode)
  | finite negative m => some (if negative then -m.code else m.code)

/-- The order of two numbers, where not-a-number has none. -/
def compare? (x y : Binary64) : Option Ordering :=
  match x.rank?, y.rank? with
  | some a, some b => some (compare a b)
  | _, _ => none

/-- Equality of numbers. -/
def eq (x y : Binary64) : Bool := x.compare? y == some .eq

/-- The relation "at most". -/
def le (x y : Binary64) : Bool := x.compare? y == some .lt || x.compare? y == some .eq

/-- The larger number; of two where one is not-a-number, the other. -/
def max (x y : Binary64) : Binary64 :=
  if x = nan then y else if x.le y then y else x

end Binary64

end JsonDoc

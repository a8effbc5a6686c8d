import JsonDoc.Binary64.Digits

/-!
# Decimals

A decimal is a coefficient scaled by a power of ten.  `Decimal.toBinary64` is the nearest number,
and `Decimal.ofText?` reads the text of a decimal: digits, the letter `e`, and the exponent, which
may have a minus sign.
-/

namespace JsonDoc

/-- The decimal `coefficient * 10 ^ exponent`. -/
structure Decimal where
  coefficient : Nat
  exponent : Int
  deriving DecidableEq, Repr

namespace Decimal

/-- The number nearest to the decimal, with a sign.  A decimal of at least `10 ^ 310` is infinite
and one below `10 ^ -330` is zero, whatever its digits, so neither has to be written out. -/
def toBinary64 (negative : Bool) (d : Decimal) : Binary64 :=
  let places := decimalLength d.coefficient + d.exponent
  if d.coefficient = 0 then .finite negative .zero
  else if 310 < places then .infinite negative
  else if places < -330 then .finite negative .zero
  else if 0 ≤ d.exponent then
    .nearest negative (d.coefficient * tenPow d.exponent.toNat * unitsPerOne) 1
  else .nearest negative (d.coefficient * unitsPerOne) (tenPow (-d.exponent).toNat)

/-! ### Text -/

/-- The value of a decimal digit. -/
def digit? (c : Char) : Option Nat :=
  if '0' ≤ c ∧ c ≤ '9' then some (c.toNat - 48) else none

/-- The whole number that a text of at least one digit, and of nothing else, denotes. -/
def natural? : List Char → Option Nat
  | [] => none
  | cs => cs.foldlM (fun n c => (digit? c).map (10 * n + ·)) 0

/-- The integer that digits denote, behind a minus sign or not. -/
def integer? : List Char → Option Int
  | '-' :: cs => (natural? cs).map fun n => -n
  | cs => (natural? cs).map Int.ofNat

/-- The decimal that a text denotes: digits, an `e`, and the exponent. -/
def ofText? (text : List Char) : Option Decimal :=
  match natural? (text.takeWhile (· != 'e')), text.dropWhile (· != 'e') with
  | some coefficient, _ :: exponent => (integer? exponent).map fun x => ⟨coefficient, x⟩
  | _, _ => none

end Decimal

end JsonDoc

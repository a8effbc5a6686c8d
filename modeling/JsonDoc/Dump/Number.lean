import JsonDoc.Binary64.Digits
import JsonDoc.Dump.Options
import JsonDoc.Dump.Piece
import JsonDoc.Integer

/-!
# The text of numbers

A floating point number is written by its significant digits without trailing zeros, positionally if
it is at least `10 ^ -6` and less than `10 ^ 9` and in scientific notation otherwise.  What is
neither finite nor a number is written as null, for which there is no other text.
-/

namespace JsonDoc

/-- The power of ten of the first digit of the largest finite numbers. -/
def largestExponent : Int := 308

/-- The largest seventeen digits that, at that power of ten, round to a finite number. -/
def largestCoefficient : Nat := 17976931348623158

/-- The test for digits so large that they round to no finite number. -/
def Significant.overflows (count : Nat) (s : Significant) : Bool :=
  largestExponent < s.exponent || s.exponent = largestExponent &&
    largestCoefficient < s.coefficient * tenPow (mostPrecision - count)

/-- The digits that a magnitude above zero is written with: it is rounded to their count or, where
that would be too large to be read back, cut off after them. -/
def Magnitude.written (count : Nat) (m : Magnitude) : Significant :=
  let rounded := m.significant count
  if rounded.overflows count then
    let full := m.significant mostPrecision
    ⟨full.coefficient / tenPow (mostPrecision - count), full.exponent⟩
  else rounded

namespace Dump

/-- The digits of a whole number without the zeros at their end, but with the first in any case. -/
def strippedDigits (n : Nat) : List Char :=
  match (Nat.toDigits 10 n).reverse.dropWhile (· == '0') with
  | [] => ['0']
  | digits => digits.reverse

/-- The digits of an exponent, at least two, behind a sign in any case. -/
def exponentText (exponent : Int) : List Char :=
  let digits := Nat.toDigits 10 exponent.natAbs
  (if exponent < 0 then '-' else '+') :: (if digits.length < 2 then '0' :: digits else digits)

/-- The pieces of digits, of which the first stands for a power of ten. -/
def digitPieces (digits : List Char) (exponent : Int) : List Piece :=
  if exponent < -6 ∨ 9 ≤ exponent then
    let fraction := digits.drop 1
    Piece.singles (digits.take 1 ++ (if fraction = [] then [] else '.' :: fraction) ++
      'e' :: exponentText exponent)
  else if exponent < 0 then
    ['0', '.'] :: Piece.singles (List.replicate (exponent.natAbs - 1) '0' ++ digits)
  else
    let places := exponent.toNat + 1
    let fraction := digits.drop places
    Piece.singles (digits.take places ++ List.replicate (places - digits.length) '0' ++
      if fraction = [] then [] else '.' :: fraction)

/-- The pieces of a floating point number, rounded to a count of digits. -/
def floatPieces (count : Nat) : Binary64 → List Piece
  | .nan => [['n', 'u', 'l', 'l']]
  | .infinite _ => [['n', 'u', 'l', 'l']]
  | .finite negative m =>
    if m.code = 0 then [['0']]
    else
      let s := m.written count
      let pieces := digitPieces (strippedDigits s.coefficient) s.exponent
      if negative then ['-'] :: pieces else pieces

/-- The pieces of an integer. -/
def integerPieces (i : Int) : List Piece := Piece.singles (Integer.text i)

end Dump

end JsonDoc

import JsonDoc.Dump.Number
import JsonDoc.Token.Numeral

/-!
# Digits read off a text

The digits that a number is written with are read off its text in scientific notation
(`Significant.scientific`), one character after another.  As many of them are kept as there is room
for, and the exponent is counted up within 64 bits (`Scraped.push`).  Whether the digits are too
large, which of them are cut off and which zeros are left out is told by the characters alone
(`Magnitude.scrapeWritten`).
-/

namespace JsonDoc

/-- The text of digits in scientific notation: the first, the others behind a point if there are
any, and the power of ten of the first. -/
def Significant.scientific (s : Significant) : List Char :=
  let digits := Nat.toDigits 10 s.coefficient
  let fraction := digits.drop 1
  digits.take 1 ++ (if fraction = [] then [] else '.' :: fraction) ++ 'e' :: Integer.text s.exponent

/-- What has been read of a text in scientific notation. -/
structure Scraped where
  /-- The digits before the letter, as many as are kept. -/
  digits : List Char
  /-- Whether the letter has been read. -/
  inExponent : Bool
  negativeExponent : Bool
  exponentMagnitude : Int64
  deriving DecidableEq, Repr

namespace Scraped

/-- Before anything has been read. -/
def empty : Scraped := ⟨[], false, false, 0⟩

/-- Reads a character.  What is neither a digit nor a part of the exponent is left out. -/
def push (s : Scraped) (c : Char) : Scraped :=
  if c = 'e' ∨ c = 'E' then { s with inExponent := true }
  else if c = '-' ∧ s.inExponent then { s with negativeExponent := true }
  else
    match Decimal.digit? c with
    | none => s
    | some digit =>
      if s.inExponent then
        { s with exponentMagnitude := Numeral.pushExponent digit s.exponentMagnitude }
      else if s.digits.length < mostPrecision then { s with digits := s.digits ++ [c] }
      else s

/-- Reads a text that is handed over in pieces. -/
def ofPieces (pieces : List (List Char)) : Scraped :=
  pieces.foldl (fun s piece => piece.foldl push s) empty

/-- The power of ten of the first digit. -/
def exponent (s : Scraped) : Int :=
  if s.negativeExponent then -s.exponentMagnitude.toInt else s.exponentMagnitude.toInt

/-- The test for digits so large that they round to no finite number: at the largest exponent they
are compared with the largest digits one by one, with zeros for those that are missing. -/
def overflows (s : Scraped) : Bool :=
  if s.exponent = largestExponent then
    Nat.toDigits 10 largestCoefficient <
      s.digits ++ List.replicate (mostPrecision - s.digits.length) '0'
  else largestExponent < s.exponent

/-- The count of digits without the zeros at their end, but with the first in any case. -/
def lengthWithoutZeros (digits : List Char) : Nat → Nat
  | 0 => 0
  | 1 => 1
  | len + 2 => if digits[len + 1]? = some '0' then lengthWithoutZeros digits (len + 1) else len + 2

/-- The digits without the zeros at their end. -/
def withoutZeros (s : Scraped) : List Char :=
  s.digits.take (lengthWithoutZeros s.digits s.digits.length)

end Scraped

/-- The digits of a magnitude, read off its text with so many of them. -/
def Magnitude.scrape (count : Nat) (m : Magnitude) : Scraped :=
  .ofPieces [(m.significant count).scientific]

/-- The digits that a magnitude is written with, read off its text; if they are too large, all of
them are read and those behind the count are cut off. -/
def Magnitude.scrapeWritten (count : Nat) (m : Magnitude) : Scraped :=
  let rounded := m.scrape count
  if rounded.overflows then
    let full := m.scrape mostPrecision
    { full with digits := full.digits.take count }
  else rounded

end JsonDoc

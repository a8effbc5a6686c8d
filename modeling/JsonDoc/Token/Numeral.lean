import JsonDoc.Decimal
import JsonDoc.Integer
import JsonDoc.ParseError
import JsonDoc.Token.Basic

/-!
# Numerals

A numeral is what is known of a number from the digits that have been read: as many leading digits
as fit 64 bits, whether a digit other than zero was left out after them, and a power of ten.  The
number itself is an integer, if that is how it was spelled and it fits 64 bits, and the nearest
floating point number otherwise (`Numeral.token`).
-/

namespace JsonDoc

/-- The digits of a number, as far as they are kept. -/
structure Numeral where
  negative : Bool
  /-- The digits that are kept, read as one whole number. -/
  mantissa : UInt64
  /-- Whether a digit did not fit the mantissa. -/
  overflowed : Bool
  /-- Whether a digit other than zero did not fit the mantissa. -/
  truncated : Bool
  /-- The power of ten by which the mantissa is scaled. -/
  exponent : Int64
  /-- Whether the number is spelled with a fraction or an exponent. -/
  isFloat : Bool
  deriving DecidableEq, Repr

namespace Numeral

/-- The numeral without any digits. -/
def new (negative : Bool) : Numeral := ⟨negative, 0, false, false, 0, false⟩

/-! ### Digits -/

/-- The numeral after one more digit, and whether the mantissa took it.  From the first digit that
does not fit, none is taken any more. -/
def push (digit : Nat) (n : Numeral) : Numeral × Bool :=
  let mantissa := n.mantissa.toNat * 10 + digit
  if !n.overflowed && mantissa < UInt64.size then
    ({ n with mantissa := UInt64.ofNat mantissa }, true)
  else ({ n with overflowed := true, truncated := n.truncated || digit != 0 }, false)

/-- The numeral with the exponent moved by a step, within 64 bits. -/
def shiftExponent (step : Int) (n : Numeral) : Numeral :=
  { n with exponent := Integer.saturate (n.exponent.toInt + step) }

/-- The numeral after one more digit before the point: one that is left out is still a place. -/
def pushInteger (digit : Nat) (n : Numeral) : Numeral :=
  match n.push digit with
  | (m, true) => m
  | (m, false) => m.shiftExponent 1

/-- The numeral after one more digit behind the point: one that is kept scales the mantissa. -/
def pushFraction (digit : Nat) (n : Numeral) : Numeral :=
  match n.push digit with
  | (m, true) => m.shiftExponent (-1)
  | (m, false) => m

/-- The numeral of a number with a fraction or an exponent. -/
def asFloat (n : Numeral) : Numeral := { n with isFloat := true }

/-- The value of the digits of an exponent after one more, within 64 bits. -/
def pushExponent (digit : Nat) (exponent : Int64) : Int64 :=
  Integer.saturate ((Integer.saturate (exponent.toInt * 10)).toInt + digit)

/-- The numeral scaled by an exponent of a sign. -/
def scale (negative : Bool) (exponent : Int64) (n : Numeral) : Numeral :=
  n.shiftExponent (if negative then -exponent.toInt else exponent.toInt)

/-! ### Value -/

/-- The integer that a numeral is, if it is one of 64 bits. -/
def integer? (n : Numeral) : Option Int64 :=
  if n.isFloat || n.overflowed then none
  else Integer.ofInt? (if n.negative then -n.mantissa.toNat else n.mantissa.toNat)

/-- The most characters that the text of a decimal has: the digits of a mantissa, one more, the
letter, and an exponent. -/
def textCapacity : Nat := 20 + 1 + 1 + 20

/-- The text of a decimal that rounds as the number does.  If a digit other than zero was left out, a
further digit keeps the decimal strictly between two mantissas. -/
def text (n : Numeral) : List Char :=
  let digits := Nat.toDigits 10 n.mantissa.toNat
  if n.truncated then
    digits ++ '1' :: 'e' :: Integer.text (Integer.saturate (n.exponent.toInt - 1)).toInt
  else digits ++ 'e' :: Integer.text n.exponent.toInt

/-- The floating point number nearest to the number. -/
def float (n : Numeral) : Except Cause Binary64 :=
  if n.mantissa = 0 then .ok (.finite n.negative .zero)
  else if textCapacity < n.text.length then .error .invalidNumber
  else
    match Decimal.ofText? n.text with
    | none => .error .invalidNumber
    | some d =>
      let x := d.toBinary64 n.negative
      if x.isFinite then .ok x else .error .numberOutOfRange

/-- The number as a token. -/
def token (n : Numeral) : Except Cause Token :=
  match n.integer? with
  | some i => .ok (.integer i)
  | none => n.float.map .float

end Numeral

end JsonDoc

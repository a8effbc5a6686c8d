import JsonDoc.Token.Move
import JsonDoc.Token.Numeral

/-!
# Numbers

The spelling of a number: an optional minus sign, `0` or digits without a leading zero, an optional
point with digits, and an optional exponent with digits.  A number is complete before the first
character that cannot continue it.
-/

namespace JsonDoc

/-- How far a number has been read. -/
inductive NumberState where
  /-- After the minus sign. -/
  | sign (n : Numeral)
  /-- After a leading zero. -/
  | zero (n : Numeral)
  /-- Within the digits before the point. -/
  | integer (n : Numeral)
  /-- After the point. -/
  | point (n : Numeral)
  /-- Within the digits behind the point. -/
  | fraction (n : Numeral)
  /-- After the letter of the exponent. -/
  | mark (n : Numeral)
  /-- After the sign of the exponent. -/
  | markSign (n : Numeral) (negative : Bool)
  /-- Within the digits of the exponent. -/
  | exponent (n : Numeral) (negative : Bool) (value : Int64)

namespace NumberState

/-- The state after the first character of a number. -/
def start? (c : Char) : Option NumberState :=
  if c = '-' then some (sign (.new true))
  else
    match Decimal.digit? c with
    | some 0 => some (zero (.new false))
    | some d => some (integer ((Numeral.new false).pushInteger d))
    | none => none

/-- The move of a character other than a digit after the digits before the point. -/
def afterInteger (n : Numeral) (c : Char) : Move NumberState :=
  if c = '.' then .shift (point n.asFloat)
  else if c = 'e' ∨ c = 'E' then .shift (mark n.asFloat)
  else .settle n.token

/-- The move of a character. -/
def step : NumberState → Char → Move NumberState
  | sign n, c =>
    match Decimal.digit? c with
    | some 0 => .shift (zero n)
    | some d => .shift (integer (n.pushInteger d))
    | none => .reject .invalidNumber
  | zero n, c =>
    match Decimal.digit? c with
    | some _ => .rejectBefore .invalidNumber
    | none => afterInteger n c
  | integer n, c =>
    match Decimal.digit? c with
    | some d => .shift (integer (n.pushInteger d))
    | none => afterInteger n c
  | point n, c =>
    match Decimal.digit? c with
    | some d => .shift (fraction (n.pushFraction d))
    | none => .rejectBefore .invalidNumber
  | fraction n, c =>
    match Decimal.digit? c with
    | some d => .shift (fraction (n.pushFraction d))
    | none => if c = 'e' ∨ c = 'E' then .shift (mark n.asFloat) else .settle n.token
  | mark n, c =>
    if c = '-' then .shift (markSign n true)
    else if c = '+' then .shift (markSign n false)
    else
      match Decimal.digit? c with
      | some d => .shift (exponent n false (Numeral.pushExponent d 0))
      | none => .rejectBefore .invalidNumber
  | markSign n negative, c =>
    match Decimal.digit? c with
    | some d => .shift (exponent n negative (Numeral.pushExponent d 0))
    | none => .rejectBefore .invalidNumber
  | exponent n negative value, c =>
    match Decimal.digit? c with
    | some d => .shift (exponent n negative (Numeral.pushExponent d value))
    | none => .settle (n.scale negative value).token

/-- The move of the end of the input. -/
def atEnd : NumberState → Move Empty
  | sign _ => .reject .unexpectedEnd
  | zero n => .settle n.token
  | integer n => .settle n.token
  | point _ => .rejectBefore .unexpectedEnd
  | fraction n => .settle n.token
  | mark _ => .rejectBefore .unexpectedEnd
  | markSign .. => .rejectBefore .unexpectedEnd
  | exponent n negative value => .settle (n.scale negative value).token

end NumberState

end JsonDoc

import JsonDoc.Binary64.Rounding

/-!
# Significant digits

A magnitude above zero, rounded to a count of significant decimal digits
(`Magnitude.significant`), and the fewest digits that round to the magnitude and to no other
(`Magnitude.shortest`).  Both are found by exact arithmetic on the grid of the decimals with that
count of digits, `count - 1 - leadingExponent` places after the point.
-/

namespace JsonDoc

/-- The count of decimal digits; zero has one. -/
def decimalLength (n : Nat) : Nat := (Nat.toDigits 10 n).length

/-- The power of ten with an exponent. -/
def tenPow (exponent : Nat) : Nat := Nat.pow 10 exponent

/-- A decimal by its digits, read as one whole number, and the power of ten of the first. -/
structure Significant where
  coefficient : Nat
  exponent : Int
  deriving DecidableEq, Repr

namespace Magnitude

/-- The power of ten of the first significant digit: the value is at least `10 ^ e` and less than
`10 ^ (e + 1)`.  A unit is more than `10 ^ -324`, so the value has a whole part at that scale. -/
def leadingExponent (m : Magnitude) : Int :=
  decimalLength (m.units * tenPow 324 / unitsPerOne) - 325

/-- The numerator and the denominator by which a count of units is scaled to be counted in steps
of `10 ^ -places`. -/
def gridScale (places : Int) : Nat × Nat :=
  if 0 ≤ places then (tenPow places.toNat, unitsPerOne)
  else (1, unitsPerOne * tenPow (-places).toNat)

/-- The value rounded to a count of significant digits, a tie going to the even digit. -/
def significant (count : Nat) (m : Magnitude) : Significant :=
  let exponent := m.leadingExponent
  let scale := gridScale (count - 1 - exponent)
  let coefficient := roundHalfEven (m.units * scale.1) scale.2
  if coefficient = tenPow count then ⟨tenPow (count - 1), exponent + 1⟩ else ⟨coefficient, exponent⟩

/-! ### The fewest digits -/

/-- The test for a decimal of `d` steps that rounds to the magnitude: it lies between the midpoints
to the neighbours, which themselves round to the magnitude if its number is even. -/
def isRoundedFrom (m : Magnitude) (scale : Nat × Nat) (d : Nat) : Bool :=
  let twice := 2 * d * scale.2
  let low := (unitsAt (m.code - 1) + m.units) * scale.1
  let high := (m.units + unitsAt (m.code + 1)) * scale.1
  if m.code % 2 = 0 then decide (low ≤ twice ∧ twice ≤ high)
  else decide (low < twice ∧ twice < high)

/-- The decimal with a count of digits that rounds to the magnitude, if there is one, and of two the
nearer, or the larger where they are equally near. -/
def shortest? (m : Magnitude) (count : Nat) : Option Significant :=
  let exponent := m.leadingExponent
  let scale := gridScale (count - 1 - exponent)
  let below := m.units * scale.1 / scale.2
  let remainder := m.units * scale.1 % scale.2
  let choice :=
    if m.isRoundedFrom scale below then
      if m.isRoundedFrom scale (below + 1) && decide (scale.2 ≤ 2 * remainder) then some (below + 1)
      else some below
    else if m.isRoundedFrom scale (below + 1) then some (below + 1)
    else none
  choice.map fun d => if d = tenPow count then ⟨tenPow (count - 1), exponent + 1⟩ else ⟨d, exponent⟩

/-- The decimal with the fewest digits that rounds to the magnitude; seventeen are always enough. -/
def shortest (m : Magnitude) : Significant :=
  ((List.range' 1 17).findSome? m.shortest?).getD (m.significant 17)

end Magnitude

end JsonDoc

/-!
# Integers of 64 bits

The integers of a document are those of 64 bits.  An integer beyond the bounds has none of 64 bits
(`Integer.ofInt?`), or is replaced by the bound (`Integer.saturate`).
-/

namespace JsonDoc.Integer

/-- The integer as one of 64 bits, if it is within the bounds. -/
def ofInt? (i : Int) : Option Int64 :=
  if Int64.minValue.toInt ≤ i ∧ i ≤ Int64.maxValue.toInt then some (Int64.ofInt i) else none

/-- The nearest integer of 64 bits. -/
def saturate (i : Int) : Int64 :=
  if i < Int64.minValue.toInt then Int64.minValue
  else if i ≤ Int64.maxValue.toInt then Int64.ofInt i
  else Int64.maxValue

/-- The decimal digits of an integer, behind a minus sign if it is negative. -/
def text (i : Int) : List Char :=
  if i < 0 then '-' :: Nat.toDigits 10 i.natAbs else Nat.toDigits 10 i.natAbs

/-- An integer of 64 bits is the one of its value and of no other. -/
theorem ofInt?_eq_some_iff {i : Int} {n : Int64} : ofInt? i = some n ↔ n.toInt = i := by
  have hmin := Int64.toInt_minValue
  have hmax := Int64.toInt_maxValue
  unfold ofInt?
  split
  case isTrue h =>
    constructor
    · intro hn
      cases hn
      exact Int64.toInt_ofInt_of_le (by omega) (by omega)
    · intro hn
      rw [← hn, Int64.ofInt_toInt]
  case isFalse h =>
    constructor
    · intro hn
      cases hn
    · intro hn
      have hle := n.minValue_le_toInt
      have hlt := n.toInt_lt
      omega

/-- The nearest integer is the integer between the bounds. -/
theorem toInt_saturate (i : Int) :
    (saturate i).toInt = max Int64.minValue.toInt (min i Int64.maxValue.toInt) := by
  have hmin := Int64.toInt_minValue
  have hmax := Int64.toInt_maxValue
  unfold saturate
  split
  · omega
  · split
    · rw [Int64.toInt_ofInt_of_le (by omega) (by omega)]
      omega
    · omega

end JsonDoc.Integer

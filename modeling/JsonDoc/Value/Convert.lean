import JsonDoc.Value.Basic

/-!
# Converting values

A value is made from an integer of another width, and an integer of a width is extracted from a
value: leniently, where a floating point number stands for its integer part, or strictly, where only
an integer does.
-/

namespace JsonDoc

/-- A type of integers, by its bounds. -/
structure IntegerType where
  name : String
  least : Int
  most : Int
  deriving DecidableEq, Repr

namespace IntegerType

/-- The signed integers of a count of bits. -/
def signed (name : String) (bits : Nat) : IntegerType := 
  ⟨name, -(1 <<< (bits - 1) : Nat), (1 <<< (bits - 1) : Nat) - 1⟩

/-- The integers from zero of a count of bits. -/
def unsigned (name : String) (bits : Nat) : IntegerType := ⟨name, 0, (1 <<< bits : Nat) - 1⟩

/-- The types that integers are extracted as. -/
def all : List IntegerType :=
  [signed "i8" 8, signed "i16" 16, signed "i32" 32, signed "i64" 64, signed "isize" 64,
    unsigned "u8" 8, unsigned "u16" 16, unsigned "u32" 32, unsigned "u64" 64,
    unsigned "usize" 64]

/-- The test for the integers of a type. -/
def contains (t : IntegerType) (i : Int) : Bool := t.least ≤ i && i ≤ t.most

end IntegerType

namespace Value

/-- The integer of a value, if it is one. -/
def asExactInteger : Value → Except Error Int64
  | integer i => .ok i
  | v => .error (v.typeMismatch "integer")

/-- The floating point number of a value, if it is one. -/
def asExactFloat : Value → Except Error Binary64
  | float x => .ok x
  | v => .error (v.typeMismatch "float")

/-- The integer part of a number, if it is of a type. -/
def toIntegerType? (t : IntegerType) (v : Value) : Option Int :=
  match v.asInteger with
  | .ok i => if t.contains i.toInt then some i.toInt else none
  | .error _ => none

/-- The integer of a value, which has to be of a type. -/
def asIntegerType (t : IntegerType) (v : Value) : Except Error Int := do
  let i ← v.asExactInteger
  if t.contains i.toInt then .ok i.toInt
  else .error (v.typeMismatch ("integer within " ++ t.name))

/-- The value of an integer, which has to be one of 64 bits. -/
def ofInt (i : Int) : Except Error Value :=
  match Integer.ofInt? i with
  | some i => .ok (integer i)
  | none => .error (.typeMismatch "integer within i64" .integer)

/-- The object of a list of pairs, where a later value replaces an earlier one. -/
def ofPairs (order : MemberOrder) (pairs : List (String × Value)) : Value :=
  object (.ofList order pairs)

end Value

end JsonDoc

import JsonDoc.Value.Basic

/-!
# Comparing values

Floating point numbers are taken for equal if they are as near as a number and what it is written and
read back as (`Binary64.nearlyEqual`).  Values are equal if their parts are, where the order of
members does not matter, and integers are compared with floating point numbers as such.  The order of
values is partial: arrays go by their first difference, objects by that of their members in their
order, and values of different kinds have none.
-/

namespace JsonDoc

namespace Binary64

/-- The relative difference up to which numbers are equal: `1e-12`. -/
def tolerance : Binary64 := .finite false ⟨0x3D719799812DEA11, by decide⟩

/-- The test for numbers that are equal, or whose distance is at most the least normal magnitude or
the part of the larger that is tolerated. -/
def nearlyEqual (x y : Binary64) : Bool :=
  let distance := x.distance y
  x.eq y || distance.le (.finite false .leastNormal) ||
    distance.le ((x.abs.max y.abs).mul tolerance)

/-- The order of numbers of which nearly equal ones are equal. -/
def nearlyCompare? (x y : Binary64) : Option Ordering :=
  if x.nearlyEqual y then some .eq else x.compare? y

end Binary64

namespace Value

mutual

/-- The equality of values. -/
def equal : Value → Value → Bool
  | null, null => true
  | bool a, bool b => a == b
  | integer a, integer b => a == b
  | integer a, float y => (Binary64.ofInt a.toInt).nearlyEqual y
  | float x, integer b => (Binary64.ofInt b.toInt).nearlyEqual x
  | float x, float y => x.nearlyEqual y
  | string s, string t => s == t
  | array xs, array ys => xs.length == ys.length && equalElements xs ys
  | object ⟨entries⟩, object members =>
    entries.length == members.size && equalMembers entries members
  | _, _ => false

/-- The equality of elements one by one. -/
def equalElements : List Value → List Value → Bool
  | x :: xs, y :: ys => x.equal y && equalElements xs ys
  | _, _ => true

/-- The equality of members with those under the same keys. -/
def equalMembers : List (String × Value) → Members Value → Bool
  | [], _ => true
  | (key, x) :: rest, members =>
    (match members.find? key with
      | some y => x.equal y
      | none => false) && equalMembers rest members

end

/-- The order that a first comparison decides, or else a second. -/
def firstDifference (first second : Option Ordering) : Option Ordering :=
  if first = some .eq then second else first

mutual

/-- The order of values. -/
def compare? : Value → Value → Option Ordering
  | null, null => some .eq
  | bool a, bool b => some (compare a b)
  | integer a, integer b => some (compare a.toInt b.toInt)
  | integer a, float y => (Binary64.ofInt a.toInt).nearlyCompare? y
  | float x, integer b => x.nearlyCompare? (.ofInt b.toInt)
  | float x, float y => x.nearlyCompare? y
  | string s, string t => some (compare s t)
  | array xs, array ys => compareElements? xs ys
  | object ⟨entries⟩, object members =>
    if (object ⟨entries⟩).equal (object members) then some .eq
    else compareMembers? entries members.entries
  | _, _ => none

/-- The order of elements, by the first that differ. -/
def compareElements? : List Value → List Value → Option Ordering
  | [], [] => some .eq
  | [], _ :: _ => some .lt
  | _ :: _, [] => some .gt
  | x :: xs, y :: ys => firstDifference (x.compare? y) (compareElements? xs ys)

/-- The order of members, by the first keys or values that differ. -/
def compareMembers? : List (String × Value) → List (String × Value) → Option Ordering
  | [], [] => some .eq
  | [], _ :: _ => some .lt
  | _ :: _, [] => some .gt
  | (k, x) :: xs, (l, y) :: ys =>
    firstDifference (some (compare k l)) (firstDifference (x.compare? y) (compareMembers? xs ys))

end

end Value

end JsonDoc

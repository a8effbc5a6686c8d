import JsonDoc.Binary64.Rounding
import JsonDoc.Integer

/-!
# Arithmetic

Each operation is the exact one followed by one rounding to nearest.  Infinities are absorbing, and
an operation without a value (`∞ - ∞`, `0 · ∞`) is not-a-number.
-/

namespace JsonDoc

/-- The value in units, with the sign. -/
def Magnitude.signedUnits (negative : Bool) (m : Magnitude) : Int :=
  if negative then -m.units else m.units

namespace Binary64

/-- The magnitude of the difference of two numbers. -/
def distance : Binary64 → Binary64 → Binary64
  | nan, _ => nan
  | _, nan => nan
  | infinite s, infinite t => if s = t then nan else infinite false
  | infinite _, finite .. => infinite false
  | finite .., infinite _ => infinite false
  | finite s x, finite t y => nearest false (x.signedUnits s - y.signedUnits t).natAbs 1

/-- The product of two numbers. -/
def mul : Binary64 → Binary64 → Binary64
  | nan, _ => nan
  | _, nan => nan
  | infinite s, infinite t => infinite (s != t)
  | infinite s, finite t y => if y.code = 0 then nan else infinite (s != t)
  | finite s x, infinite t => if x.code = 0 then nan else infinite (s != t)
  | finite s x, finite t y => nearest (s != t) (x.units * y.units) unitsPerOne

/-- The number nearest to an integer. -/
def ofInt (i : Int) : Binary64 := nearest (i < 0) (i.natAbs * unitsPerOne) 1

/-- The integer part of a finite number, whose sign it keeps. -/
def truncate (negative : Bool) (m : Magnitude) : Int :=
  if negative then -(m.units / unitsPerOne : Nat) else (m.units / unitsPerOne : Nat)

/-- The integer part of a number, saturating at the bounds of 64 bits; not-a-number gives zero. -/
def toInt64 : Binary64 → Int64
  | nan => 0
  | infinite negative => if negative then Int64.minValue else Int64.maxValue
  | finite negative m => Integer.saturate (truncate negative m)

end Binary64

end JsonDoc

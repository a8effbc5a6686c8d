import JsonDoc.Text.Surrogate

/-!
# UTF-16

A character up to `U+FFFF` is one code unit of 16 bits, and any other a surrogate pair.
-/

namespace JsonDoc.Utf16

/-- The code units of a character. -/
def encode (c : Char) : List UInt16 :=
  match Surrogate.split? c with
  | some (lead, trail) => [lead, trail]
  | none => [UInt16.ofNat c.toNat]

end JsonDoc.Utf16

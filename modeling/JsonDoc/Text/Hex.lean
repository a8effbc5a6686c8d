/-!
# Hexadecimal code units

A code unit of 16 bits is four hexadecimal digits, the first the most significant.  Letters of
either case are read, and small ones are written.
-/

namespace JsonDoc.Hex

/-- The value of a hexadecimal digit. -/
def digit? (c : Char) : Option Nat :=
  if '0' ≤ c ∧ c ≤ '9' then some (c.toNat - 48)
  else if 'a' ≤ c ∧ c ≤ 'f' then some (c.toNat - 87)
  else if 'A' ≤ c ∧ c ≤ 'F' then some (c.toNat - 55)
  else none

/-- The code unit that four digits denote. -/
def decode? (digits : List Char) : Option UInt16 :=
  match digits.mapM digit? with
  | some [a, b, c, d] => some (UInt16.ofNat (((a * 16 + b) * 16 + c) * 16 + d))
  | _ => none

/-- The four digits of a code unit. -/
def encode (unit : UInt16) : List Char :=
  let n := unit.toNat
  [n / 4096, n / 256, n / 16, n].map fun nibble => (nibble % 16).digitChar

/-- The digits of a number, as few as it needs. -/
def digits (n : Nat) : List Char := Nat.toDigits 16 n

theorem digit?_digitChar : ∀ n, n < 16 → digit? n.digitChar = some n := by decide

/-- The digits of a code unit denote it. -/
theorem decode?_encode (unit : UInt16) : decode? (encode unit) = some unit := by
  have hu : unit.toNat < 65536 := unit.toNat_lt
  have digit (n : Nat) : digit? (n % 16).digitChar = some (n % 16) :=
    digit?_digitChar _ (Nat.mod_lt _ (by decide))
  have h : (((unit.toNat / 4096 % 16 * 16 + unit.toNat / 256 % 16) * 16 +
      unit.toNat / 16 % 16) * 16 + unit.toNat % 16) = unit.toNat := by omega
  simp only [decode?, encode, List.map_cons, List.map_nil, List.mapM_cons, List.mapM_nil, digit,
    bind, Option.bind, pure, h, UInt16.ofNat_toNat]

end JsonDoc.Hex

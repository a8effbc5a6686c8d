import JsonDoc.Binary64.Rounding

/-!
# Interchange formats

The words that hold a number: one of 64 bits, whose lower 63 bits are the number of the magnitude,
and one of 32 bits, of whose numbers every one is a number of 64 bits as well.
-/

namespace JsonDoc

namespace Binary64

/-- The bit of a word of 64 bits that says that the number is negative. -/
def signBit : Nat := 0x8000000000000000

/-- The number that a word of 64 bits holds. -/
def ofBits (word : UInt64) : Binary64 :=
  let code := word.toNat % signBit
  let negative := decide (signBit ≤ word.toNat)
  if h : code < infinityCode then finite negative ⟨code, h⟩
  else if code = infinityCode then infinite negative
  else nan

/-- The word of 64 bits that holds a number; not-a-number is written without a payload. -/
def toBits : Binary64 → UInt64
  | nan => 0x7FF8000000000000
  | infinite negative => UInt64.ofNat (infinityCode + if negative then signBit else 0)
  | finite negative m => UInt64.ofNat (m.code + if negative then signBit else 0)

/-- The number that a word of 32 bits holds, whose own unit is `2 ^ -149`. -/
def ofBits32 (word : UInt32) : Binary64 :=
  let code := word.toNat % 0x80000000
  let negative := decide (0x80000000 ≤ word.toNat)
  if code < 0x800000 then nearest negative (code <<< 925) 1
  else if code < 0x7F800000 then
    nearest negative ((0x800000 + code % 0x800000) <<< (code / 0x800000 - 1) <<< 925) 1
  else if code = 0x7F800000 then infinite negative
  else nan

/-- A number is held by its word. -/
@[simp] theorem ofBits_toBits (x : Binary64) : ofBits x.toBits = x := by
  cases x with
  | nan => rfl
  | infinite negative => cases negative <;> rfl
  | finite negative m =>
    have hm : m.code < 0x7FF0000000000000 := m.code_lt
    have hbit : signBit = 0x8000000000000000 := rfl
    have hword : (toBits (finite negative m)).toNat = m.code + if negative then signBit else 0 := by
      have hlt : (m.code + if negative then signBit else 0) < UInt64.size := by
        have hsize : UInt64.size = 0x10000000000000000 := rfl
        split <;> omega
      exact UInt64.toNat_ofNat_of_lt hlt
    have hcode : (toBits (finite negative m)).toNat % signBit = m.code := by
      rw [hword, hbit]
      split <;> omega
    have hsign : decide (signBit ≤ (toBits (finite negative m)).toNat) = negative := by
      rw [hword, hbit]
      cases negative with
      | true => exact decide_eq_true (Nat.le_add_left _ _)
      | false => exact decide_eq_false (by simp; omega)
    simp only [ofBits, hcode, hsign, m.code_lt, dif_pos]

end Binary64

end JsonDoc

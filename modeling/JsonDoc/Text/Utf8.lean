/-!
# Well-formed UTF-8

A character is one to four bytes, a first byte and continuation bytes of six bits each.  Decoding is
strict: the bytes have to be those that the character is written as, so that overlong forms,
surrogates and numbers beyond `U+10FFFF` are refused with everything else that is not one character.
-/

namespace JsonDoc.Utf8

/-- The bytes of a character. -/
def encode (c : Char) : List UInt8 := String.utf8EncodeChar c

/-- The number that the bytes of a character would denote, from the bits that they carry. -/
def scalarNumber : List UInt8 → Nat
  | [a] => a.toNat
  | [a, b] => a.toNat % 0x20 * 0x40 + b.toNat % 0x40
  | [a, b, c] => (a.toNat % 0x10 * 0x40 + b.toNat % 0x40) * 0x40 + c.toNat % 0x40
  | [a, b, c, d] =>
    ((a.toNat % 0x08 * 0x40 + b.toNat % 0x40) * 0x40 + c.toNat % 0x40) * 0x40 + d.toNat % 0x40
  | _ => 0

/-- The character whose bytes these are. -/
def decode? (bytes : List UInt8) : Option Char :=
  let c := Char.ofNat (scalarNumber bytes)
  if encode c = bytes then some c else none

theorem scalarNumber_encode (c : Char) : scalarNumber (encode c) = c.toNat := by
  have hmax : c.toNat < 0x110000 := by
    have hv : c.val.toNat = c.toNat := rfl
    rcases c.valid with h | h <;> (simp at h; omega)
  unfold encode String.utf8EncodeChar
  simp only []
  have hv : c.val.toNat = c.toNat := rfl
  rw [hv]
  split
  · simp [scalarNumber]; omega
  · split
    · simp [scalarNumber]; omega
    · split
      · simp [scalarNumber]; omega
      · simp [scalarNumber]; omega

/-- The bytes of a character are read as it. -/
@[simp] theorem decode?_encode (c : Char) : decode? (encode c) = some c := by
  simp [decode?, scalarNumber_encode]

/-- Bytes are read as a character iff they are those that it is written as. -/
theorem decode?_eq_some_iff {bytes : List UInt8} {c : Char} :
    decode? bytes = some c ↔ bytes = encode c := by
  constructor
  · intro h
    unfold decode? at h
    simp only at h
    split at h
    case isTrue he => rw [← he, Option.some.inj h]
    case isFalse => cases h
  · intro h; rw [h, decode?_encode]

/-- The text that bytes are, if all of them together are well-formed. -/
def text? (bytes : List UInt8) : Option (List Char) :=
  bytes.toByteArray.utf8Decode?.map Array.toList

@[simp] theorem text?_encode (cs : List Char) : text? (cs.flatMap encode) = some cs := by
  have hdecode : (cs.flatMap encode).toByteArray.utf8Decode? = some cs.toArray :=
    List.utf8Decode?_utf8Encode
  rw [text?, hdecode, Option.map_some, List.toList_toArray]

/-- Bytes are a text iff they are those that it is written as. -/
theorem text?_eq_some_iff {bytes : List UInt8} {cs : List Char} :
    text? bytes = some cs ↔ bytes = cs.flatMap encode := by
  constructor
  · intro h
    obtain ⟨_, hdecode, -⟩ := Option.map_eq_some_iff.mp h
    obtain ⟨ds, hds⟩ := ByteArray.isSome_utf8Decode?_iff.mp (Option.isSome_of_eq_some hdecode)
    have hbytes : bytes = ds.flatMap encode := List.toByteArray_inj.mp hds
    rw [hbytes, text?_encode] at h
    rw [hbytes, Option.some.inj h]
  · intro h
    rw [h, text?_encode]

/-- The count of bytes that a first byte above `0x7F` announces, which is between two and four.
A byte that begins no character announces a count as well, by its leading bits. -/
def announcedLength (first : UInt8) : Nat :=
  let bits := first.toNat % 0x40
  if bits < 0x20 then 2 else if bits < 0x30 then 3 else 4

theorem announcedLength_bounds (first : UInt8) :
    2 ≤ announcedLength first ∧ announcedLength first ≤ 4 := by
  unfold announcedLength
  dsimp only
  split
  · omega
  · split <;> omega

end JsonDoc.Utf8

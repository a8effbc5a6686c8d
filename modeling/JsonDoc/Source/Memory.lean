import JsonDoc.Source.Bytes
import JsonDoc.Text.Surrogate

/-!
# Sources in memory

Characters, bytes of UTF-8, and code units of UTF-16, read from a list to its end.
-/

namespace JsonDoc

/-- A list of characters is read as it stands. -/
instance : CharSource (List Char) where
  nextChar
    | [] => .ok none []
    | c :: cs => .ok (some c) cs
  isEmpty := List.isEmpty
  size := List.length
  size_lt s h := by cases s with
    | nil => cases h
    | cons => simp [stateAfter]
  ended s h := by cases s with
    | nil => rfl
    | cons => cases h

/-- A list of bytes is read as it stands. -/
instance : ByteSource (List UInt8) where
  nextByte
    | [] => .ok none []
    | b :: bs => .ok (some b) bs
  isEmpty := List.isEmpty
  size := List.length
  size_lt s h := by cases s with
    | nil => cases h
    | cons => simp [stateAfter]
  ended s h := by cases s with
    | nil => rfl
    | cons => cases h

/-- The bytes before the first one that is zero. -/
def untilNul (bytes : List UInt8) : List UInt8 := bytes.takeWhile (· != 0)

theorem zero_notMem_untilNul (bytes : List UInt8) : 0 ∉ untilNul bytes := fun h =>
  absurd (List.all_eq_true.mp List.all_takeWhile 0 h) (by decide)

/-- The bytes of a string that a zero ends, without the zero. -/
structure CString where
  bytes : List UInt8
  zero_notMem : 0 ∉ bytes

/-- The string that the first zero ends, or the end of the bytes. -/
def CString.ofBytes (bytes : List UInt8) : CString := ⟨untilNul bytes, zero_notMem_untilNul bytes⟩

/-- The next character of a list of code units.  A surrogate that is not the first of a pair fails
by itself, and the unit after it is read again. -/
def Utf16.nextChar : EStateM SourceError (List UInt16) (Option Char)
  | [] => .ok none []
  | unit :: units =>
    match Surrogate.scalar? unit with
    | some c => .ok (some c) units
    | none =>
      match units with
      | [] => .error (.unpairedSurrogate unit) []
      | trail :: rest =>
        match Surrogate.combine? unit trail with
        | some c => .ok (some c) rest
        | none => .error (.unpairedSurrogate unit) (trail :: rest)

/-- A list of code units is read as UTF-16. -/
instance : CharSource (List UInt16) where
  nextChar := Utf16.nextChar
  isEmpty := List.isEmpty
  size := List.length
  size_lt s h := by
    unfold Utf16.nextChar
    split
    · cases h
    · split
      · simp [stateAfter]
      · split
        · simp [stateAfter]
        · split <;> simp only [stateAfter, List.length_cons] <;> omega
  ended s h := by cases s with
    | nil => rfl
    | cons => cases h

end JsonDoc

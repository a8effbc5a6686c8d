/-!
# Buffers

A buffer is a fixed count of bytes that are written from the front, one piece after the other.  A
piece that there is no room for is refused as a whole.  The arithmetic of a write is checked: it
faults where a count would be negative, and where a byte would lie behind the last one.
-/

namespace JsonDoc

/-- Bytes of which those before a position have been written. -/
structure Buffer where
  bytes : List UInt8
  position : Nat
  deriving DecidableEq, Repr

/-- The reason why nothing was written. -/
inductive WriteFault where
  /-- There is not enough room for the piece. -/
  | full
  /-- The position is behind the last byte, so that less than nothing is left. -/
  | underflow
  /-- The piece would go on behind the last byte. -/
  | outOfBounds
  deriving DecidableEq, Repr

namespace Buffer

/-- A buffer of so many bytes, of which none has been written. -/
def zeros (capacity : Nat) : Buffer := ⟨List.replicate capacity 0, 0⟩

/-- The count of bytes that are left to be written. -/
def room (b : Buffer) : Except WriteFault Nat :=
  if b.position ≤ b.bytes.length then .ok (b.bytes.length - b.position) else .error .underflow

/-- The bytes with a piece in the place of as many of them, from the position on. -/
def replaced (b : Buffer) (piece : List UInt8) : Except WriteFault (List UInt8) :=
  if b.position + piece.length ≤ b.bytes.length then
    .ok (b.bytes.take b.position ++ piece ++ b.bytes.drop (b.position + piece.length))
  else .error .outOfBounds

/-- Writes a piece. -/
def write (b : Buffer) (piece : List UInt8) : Except WriteFault Buffer := do
  if (← b.room) < piece.length then
    throw .full
  else
    return ⟨← b.replaced piece, b.position + piece.length⟩

/-- Writes one piece after the other, until one is refused. -/
def writeAll (b : Buffer) (pieces : List (List UInt8)) : Except WriteFault Buffer :=
  pieces.foldlM write b

/-- The bytes that have been written. -/
def written (b : Buffer) : Except WriteFault (List UInt8) :=
  if b.position ≤ b.bytes.length then .ok (b.bytes.take b.position) else .error .outOfBounds

/-! ### What is written -/

/-- A buffer of so many bytes, of which the first ones have been written. -/
def filled (capacity : Nat) (taken : List UInt8) : Buffer :=
  ⟨taken ++ List.replicate (capacity - taken.length) 0, taken.length⟩

variable {capacity : Nat} {taken : List UInt8}

@[simp] theorem position_filled (capacity : Nat) (taken : List UInt8) :
    (filled capacity taken).position = taken.length := rfl

@[simp] theorem take_bytes_filled (capacity : Nat) (taken : List UInt8) :
    (filled capacity taken).bytes.take taken.length = taken :=
  List.take_left' rfl

theorem length_bytes_filled (h : taken.length ≤ capacity) :
    (filled capacity taken).bytes.length = capacity := by
  rw [filled, List.length_append, List.length_replicate]
  omega

theorem written_filled (h : taken.length ≤ capacity) :
    (filled capacity taken).written = .ok taken := by
  rw [written, length_bytes_filled h, position_filled, if_pos h, take_bytes_filled]

theorem replaced_filled {piece : List UInt8} (h : (taken ++ piece).length ≤ capacity) :
    (filled capacity taken).replaced piece = .ok (filled capacity (taken ++ piece)).bytes := by
  have hbound : taken.length + piece.length ≤ capacity := by rwa [List.length_append] at h
  have hdrop : (filled capacity taken).bytes.drop (taken.length + piece.length) =
      List.replicate (capacity - (taken ++ piece).length) 0 := by
    rw [filled, List.drop_append, List.drop_replicate, List.length_append,
      List.drop_eq_nil_of_le (Nat.le_add_right _ _), List.nil_append]
    congr 1
    omega
  rw [replaced, length_bytes_filled (by omega), position_filled, if_pos hbound, take_bytes_filled,
    hdrop]
  rfl

/-- A piece is written if there is room for it, and a write faults for no other reason. -/
theorem write_filled (h : taken.length ≤ capacity) (piece : List UInt8) :
    (filled capacity taken).write piece =
      if (taken ++ piece).length ≤ capacity then .ok (filled capacity (taken ++ piece))
      else .error .full := by
  have hroom : (filled capacity taken).room = .ok (capacity - taken.length) := by
    rw [room, length_bytes_filled h, position_filled, if_pos h]
  have hlength : (taken ++ piece).length = taken.length + piece.length := List.length_append
  rw [write, hroom]
  change (if capacity - taken.length < piece.length then _ else _) = _
  by_cases hfits : (taken ++ piece).length ≤ capacity
  · rw [if_neg (by omega), replaced_filled hfits, if_pos hfits, filled, hlength]
    rfl
  · rw [if_pos (by omega), if_neg hfits]
    rfl

/-- Pieces are written if there is room for all of them, and no write ever faults otherwise. -/
theorem writeAll_filled (h : taken.length ≤ capacity) (pieces : List (List UInt8)) :
    (filled capacity taken).writeAll pieces =
      if (taken ++ pieces.flatten).length ≤ capacity then
        .ok (filled capacity (taken ++ pieces.flatten))
      else .error .full := by
  induction pieces generalizing taken with
  | nil =>
    rw [List.flatten_nil, List.append_nil, if_pos h]
    rfl
  | cons piece pieces ih =>
    rw [writeAll, List.foldlM_cons, write_filled h, List.flatten_cons, ← List.append_assoc]
    by_cases hfits : (taken ++ piece).length ≤ capacity
    · rw [if_pos hfits, ← ih hfits]
      rfl
    · rw [if_neg hfits, if_neg]
      · rfl
      · rw [List.length_append]
        omega

theorem writeAll_zeros (capacity : Nat) (pieces : List (List UInt8)) :
    (zeros capacity).writeAll pieces =
      if pieces.flatten.length ≤ capacity then .ok (filled capacity pieces.flatten)
      else .error .full := by
  have hzeros : zeros capacity = filled capacity [] := rfl
  rw [hzeros, writeAll_filled (Nat.zero_le capacity), List.nil_append]

end Buffer

end JsonDoc

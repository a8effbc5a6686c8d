/-!
# Traversals

A traversal visits the positions of a container, each once, from the front and from the back as it is
asked to, until the two ends meet.
-/

namespace JsonDoc

/-- The positions that are still to be visited, from `front` up to `back`. -/
structure Traversal where
  front : Nat
  back : Nat
  deriving DecidableEq, Repr

namespace Traversal

/-- The traversal of a container of a size. -/
def ofSize (size : Nat) : Traversal := ⟨0, size⟩

/-- The count of positions that are left. -/
def remaining (t : Traversal) : Nat := t.back - t.front

/-- The next position from the front, and the traversal after it. -/
def next? (t : Traversal) : Option (Nat × Traversal) :=
  if t.front < t.back then some (t.front, { t with front := t.front + 1 }) else none

/-- The next position from the back, and the traversal after it. -/
def nextBack? (t : Traversal) : Option (Nat × Traversal) :=
  if t.front < t.back then some (t.back - 1, { t with back := t.back - 1 }) else none

/-- The positions that are left, from the front. -/
def toList (t : Traversal) : List Nat := List.range' t.front t.remaining

/-- The traversal without positions left. -/
def finished (t : Traversal) : Traversal := { t with front := t.back }

/-! ### What the steps do -/

/-- A step from the front takes the first of the positions that are left. -/
theorem toList_of_next? {t next : Traversal} {position : Nat}
    (h : t.next? = some (position, next)) : t.toList = position :: next.toList := by
  unfold next? at h
  split at h
  case isTrue hlt =>
    cases h
    have : t.back - t.front = (t.back - (t.front + 1)) + 1 := by omega
    simp only [toList, remaining]
    rw [this, List.range'_succ]
  case isFalse => cases h

/-- A step from the back takes the last of the positions that are left. -/
theorem toList_of_nextBack? {t next : Traversal} {position : Nat}
    (h : t.nextBack? = some (position, next)) : t.toList = next.toList ++ [position] := by
  unfold nextBack? at h
  split at h
  case isTrue hlt =>
    cases h
    have hr : t.back - t.front = (t.back - 1 - t.front) + 1 := by omega
    have hp : t.front + (t.back - 1 - t.front) = t.back - 1 := by omega
    simp only [toList, remaining]
    rw [hr, List.range'_concat]
    simp [hp]
  case isFalse => cases h

/-- Neither end has a step left iff no position is left. -/
theorem next?_eq_none_iff {t : Traversal} : t.next? = none ↔ t.toList = [] := by
  unfold next? toList remaining
  split <;> simp <;> omega

theorem nextBack?_eq_none_iff {t : Traversal} : t.nextBack? = none ↔ t.toList = [] := by
  unfold nextBack? toList remaining
  split <;> simp <;> omega

theorem toList_ofSize (size : Nat) : (ofSize size).toList = List.range size := by
  simp [ofSize, toList, remaining, List.range_eq_range']

end Traversal

end JsonDoc

/-!
# Elements

The elements of an array are a list.  These are the operations on a list by positions that arrays
are changed with.
-/

namespace JsonDoc.Elements

variable {α : Type}

/-- The list with an element put before the one at a position, or after all of them. -/
def insertAt (position : Nat) (x : α) (xs : List α) : List α :=
  xs.take position ++ x :: xs.drop position

/-- The element at a position, and the list without it. -/
def removeAt (position : Nat) (xs : List α) : Option α × List α :=
  (xs[position]?, xs.eraseIdx position)

/-- The list without the elements from one position up to another. -/
def removeRange (start stop : Nat) (xs : List α) : List α := xs.take start ++ xs.drop stop

/-- The list with as many copies of an element after it as a length needs. -/
def extendTo (length : Nat) (x : α) (xs : List α) : List α :=
  xs ++ List.replicate (length - xs.length) x

theorem length_insertAt {position : Nat} {x : α} {xs : List α} :
    (insertAt position x xs).length = xs.length + 1 := by
  simp [insertAt]; omega

theorem getElem?_extendTo (length : Nat) (x : α) (xs : List α) (i : Nat) :
    (extendTo length x xs)[i]? =
      if i < xs.length then xs[i]? else if i < length then some x else none := by
  unfold extendTo
  split
  case isTrue h => rw [List.getElem?_append_left h]
  case isFalse h =>
    rw [List.getElem?_append_right (by omega), List.getElem?_replicate]
    split <;> split <;> first | rfl | omega

theorem length_extendTo (length : Nat) (x : α) (xs : List α) :
    (extendTo length x xs).length = max xs.length length := by
  simp [extendTo]; omega

end JsonDoc.Elements

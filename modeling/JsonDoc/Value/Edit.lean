import JsonDoc.Elements
import JsonDoc.Value.Basic

/-!
# Edits

An edit changes a value and comes to a result, or fails; what it has changed before it fails stays
changed.  Writing into null makes it an empty container first, and writing to an element beyond the
end of an array extends the array with nulls (`Edit.element`), as writing to a missing member inserts
it (`Edit.member`).
-/

namespace JsonDoc

/-- A run that edits a value and may fail with an error of a type. -/
abbrev Edit (ε α : Type) := EStateM ε Value α

namespace Value

/-- An empty array in place of null. -/
def orArray : Value → Value
  | null => array []
  | v => v

/-- An empty object in place of null. -/
def orObject : Value → Value
  | null => object .empty
  | v => v

/-- The value that a kind has at first. -/
def ofKind : Kind → Value
  | .null => null
  | .boolean => bool false
  | .integer => integer 0
  | .float => float .zero
  | .string => string ""
  | .array => array []
  | .object => object .empty

end Value

namespace Edit

open Value

variable {ε α : Type}

/-- The outcome of an edit of a part, as one of the whole that the part is put back into. -/
def putBack (whole : Value → Value) : EStateM.Result ε Value α → EStateM.Result ε Value α
  | .ok a part => .ok a (whole part)
  | .error e part => .error e (whole part)

/-- The edit of the element at an index of an array. -/
def element (fault : Error → ε) (index : Nat) (edit : Edit ε α) : Edit ε α := fun v =>
  match v.orArray with
  | array elements =>
    let elements := Elements.extendTo (index + 1) null elements
    putBack (fun x => array (elements.set index x)) (edit (elements.getD index null))
  | w => .error (fault (w.typeMismatch "array")) w

/-- The edit of the value of a member of an object. -/
def member (order : MemberOrder) (fault : Error → ε) (key : String) (edit : Edit ε α) :
    Edit ε α := fun v =>
  match v.orObject with
  | object members =>
    let (x, members) := members.findOrInsert order key null
    putBack (fun x => object (members.insert order key x).2) (edit x)
  | w => .error (fault (w.typeMismatch "object")) w

/-- The edit with its errors made others. -/
def mapError {δ : Type} (f : δ → ε) (edit : Edit δ α) : Edit ε α := fun v =>
  match edit v with
  | .ok a w => .ok a w
  | .error e w => .error (f e) w

/-! ### Whole values -/

/-- The value as it is. -/
def read : Edit ε Value := fun v => .ok v v

/-- A value in place of another. -/
def assign (x : Value) : Edit ε Unit := fun _ => .ok () x

/-- The value, which leaves null behind. -/
def take : Edit ε Value := fun v => .ok v null

/-- The value that its kind has at first, in place of a value. -/
def clear : Edit ε Unit := fun v => .ok () (ofKind v.kind)

/-- The string with another after it. -/
def append (suffix : String) : Edit Error String := fun v =>
  match v with
  | string s => .ok (s ++ suffix) (string (s ++ suffix))
  | v => .error (v.typeMismatch "string") v

/-! ### Elements -/

/-- An element after all others. -/
def push (x : Value) : Edit Error Unit := fun v =>
  match v.orArray with
  | array elements => .ok () (array (elements ++ [x]))
  | w => .error (w.typeMismatch "array") w

/-- An element before the one at an index, or after all others. -/
def insertAt (index : Nat) (x : Value) : Edit Error Unit := fun v =>
  match v.orArray with
  | array elements =>
    if index ≤ elements.length then .ok () (array (Elements.insertAt index x elements))
    else .error .invalidIterator (array elements)
  | w => .error (w.typeMismatch "array") w

/-- The element at an index, if there is one, which is removed. -/
def removeElement (index : Nat) : Edit Error (Option Value) := fun v =>
  match v with
  | array elements =>
    let (removed, elements) := Elements.removeAt index elements
    .ok removed (array elements)
  | v => .error (v.typeMismatch "array") v

/-- The element at an index, which is removed. -/
def eraseIndex (index : Nat) : Edit Error Value := fun v =>
  match removeElement index v with
  | .ok (some x) w => .ok x w
  | .ok none w => .error .invalidIterator w
  | .error e w => .error e w

/-- The elements from one index up to another, which are removed. -/
def eraseRange (start stop : Nat) : Edit Error Unit := fun v =>
  match v with
  | array elements =>
    if start ≤ stop ∧ stop ≤ elements.length then
      .ok () (array (Elements.removeRange start stop elements))
    else .error .invalidIterator (array elements)
  | v => .error (v.typeMismatch "array") v

/-! ### Members -/

/-- A value stored under a key, which comes to the value that was there before. -/
def insert (order : MemberOrder) (key : String) (x : Value) : Edit Error (Option Value) := fun v =>
  match v.orObject with
  | object members =>
    let (prior, members) := members.insert order key x
    .ok prior (object members)
  | w => .error (w.typeMismatch "object") w

/-- The value of a member that is there, which another replaces. -/
def replace (order : MemberOrder) (key : String) (x : Value) : Edit Error (Option Value) := fun v =>
  match v with
  | object members =>
    match members.find? key with
    | some prior => .ok (some prior) (object (members.insert order key x).2)
    | none => .ok none (object members)
  | v => .error (v.typeMismatch "object") v

/-- The value of a member of an object, which is null if it was missing. -/
def findOrInsert (order : MemberOrder) (key : String) : Edit Error Value := fun v =>
  match v with
  | object members =>
    let (x, members) := members.findOrInsert order key null
    .ok x (object members)
  | v => .error (v.typeMismatch "object") v

/-- The value of a member, if there is one, which is removed. -/
def removeMember (key : String) : Edit Error (Option Value) := fun v =>
  match v with
  | object members =>
    let (removed, members) := members.erase key
    .ok removed (object members)
  | v => .error (v.typeMismatch "object") v

/-- The value of a member, if there is one, which is removed; only an object has keys. -/
def eraseKey (key : String) : Edit Error (Option Value) := fun v =>
  match v with
  | object members =>
    let (removed, members) := members.erase key
    .ok removed (object members)
  | v => .error .invalidKey v

/-! ### Items -/

/-- The items of a container that are about to be assigned to. -/
def items : Edit Error (List (Option String × Value)) := fun v =>
  match v.items with
  | .ok items => .ok items v
  | .error e => .error e v

/-- A value in place of the item at a position of a container. -/
def assignItem (position : Nat) (x : Value) : Edit Error Unit := fun v =>
  match v with
  | array elements => .ok () (array (elements.set position x))
  | object members => .ok () (object (members.setAt position x))
  | v => .error (v.typeMismatch "array or object") v

end Edit

end JsonDoc

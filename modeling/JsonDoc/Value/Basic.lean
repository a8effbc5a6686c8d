import JsonDoc.Binary64.Arithmetic
import JsonDoc.Error
import JsonDoc.Members

/-!
# Values

A value is null, a truth value, a number, a string, a list of elements, or members under keys.
Numbers are integers of 64 bits or floating point numbers.
-/

namespace JsonDoc

/-- A value. -/
inductive Value where
  | null
  | bool (b : Bool)
  | integer (i : Int64)
  | float (x : Binary64)
  | string (s : String)
  | array (elements : List Value)
  | object (members : Members Value)
  deriving Inhabited, Repr

namespace Value

/-- The kind of a value. -/
def kind : Value → Kind
  | null => .null
  | bool _ => .boolean
  | integer _ => .integer
  | float _ => .float
  | string _ => .string
  | array _ => .array
  | object _ => .object

/-- The error that a value is not of an expected kind. -/
def typeMismatch (expected : String) (v : Value) : Error := .typeMismatch expected v.kind

/-! ### Accessors -/

/-- The truth value. -/
def asBool : Value → Except Error Bool
  | bool b => .ok b
  | v => .error (v.typeMismatch "boolean")

/-- The number as an integer: the integer part of one that is not, within 64 bits. -/
def asInteger : Value → Except Error Int64
  | integer i => .ok i
  | float x => .ok x.toInt64
  | v => .error (v.typeMismatch "number")

/-- The number as a floating point number: the nearest one to an integer. -/
def asFloat : Value → Except Error Binary64
  | integer i => .ok (.ofInt i.toInt)
  | float x => .ok x
  | v => .error (v.typeMismatch "number")

/-- The string. -/
def asString : Value → Except Error String
  | string s => .ok s
  | v => .error (v.typeMismatch "string")

/-- The elements of an array. -/
def asArray : Value → Except Error (List Value)
  | array elements => .ok elements
  | v => .error (v.typeMismatch "array")

/-- The members of an object. -/
def asObject : Value → Except Error (Members Value)
  | object members => .ok members
  | v => .error (v.typeMismatch "object")

/-! ### Containers -/

/-- The element at an index of an array. -/
def element (index : Nat) (v : Value) : Except Error Value := do
  match (← v.asArray)[index]? with
  | some x => .ok x
  | none => .error .invalidKey

/-- The value of a member of an object, if it is there. -/
def find? (key : String) (v : Value) : Except Error (Option Value) := do
  return (← v.asObject).find? key

/-- The value of a member of an object. -/
def member (key : String) (v : Value) : Except Error Value := do
  match (← v.asObject).find? key with
  | some x => .ok x
  | none => .error .invalidKey

/-- The test for an object with a key. -/
def containsKey (key : String) : Value → Bool
  | object members => members.contains key
  | _ => false

/-- The items of a container in their order: the elements of an array without keys, and the members
of an object with theirs. -/
def items : Value → Except Error (List (Option String × Value))
  | array elements => .ok (elements.map fun x => (none, x))
  | object members => .ok (members.entries.map fun (key, x) => (some key, x))
  | v => .error (v.typeMismatch "array or object")

/-- The count of items of a container. -/
def size (v : Value) : Except Error Nat := v.items.map List.length

/-- The test for a container without items. -/
def isEmpty (v : Value) : Except Error Bool := v.size.map (· == 0)

end Value

end JsonDoc

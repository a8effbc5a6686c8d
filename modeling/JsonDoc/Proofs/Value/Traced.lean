import JsonDoc.Proofs.Value.History
import JsonDoc.Proofs.Value.Operation

/-!
# Values told by their histories

A traced value has the history of each object in place of its members.  The operations on it say
what an operation on a value is to do: each adds to the histories of the objects what happens to
their members, and finds under a key what was stored there last.  `Traced.Tells` relates a traced
value to the value whose objects have these members.
-/

namespace JsonDoc

/-- A value with the history of each object. -/
inductive Traced where
  | null
  | bool (b : Bool)
  | integer (i : Int64)
  | float (x : Binary64)
  | string (s : String)
  | array (elements : List Traced)
  | object (history : List (Event Traced))

/-- A run that edits a traced value and may fail with an error of a type. -/
abbrev Trace (ε α : Type) := EStateM ε Traced α

namespace Traced

/-- The kind of a traced value. -/
def kind : Traced → Kind
  | null => .null
  | bool _ => .boolean
  | integer _ => .integer
  | float _ => .float
  | string _ => .string
  | array _ => .array
  | object _ => .object

/-- The error that a traced value is not of an expected kind. -/
def typeMismatch (expected : String) (t : Traced) : Error := .typeMismatch expected t.kind

/-- An empty array in place of null. -/
def orArray : Traced → Traced
  | null => array []
  | t => t

/-- An object to which nothing has happened in place of null. -/
def orObject : Traced → Traced
  | null => object []
  | t => t

/-- The traced value that a kind has at first. -/
def ofKind : Kind → Traced
  | .null => null
  | .boolean => bool false
  | .integer => integer 0
  | .float => float .zero
  | .string => string ""
  | .array => array []
  | .object => object []

/-! ### Looking at parts -/

/-- The element at an index of an array. -/
def element (index : ℕ) : Traced → Except Error Traced
  | array xs =>
    match xs[index]? with
    | some x => .ok x
    | none => .error .invalidKey
  | t => .error (t.typeMismatch "array")

/-- The value that was stored last under a key of an object, if it is there. -/
def find? (key : String) : Traced → Except Error (Option Traced)
  | object h => .ok (History.latest? key h)
  | t => .error (t.typeMismatch "object")

/-- The value that was stored last under a key of an object. -/
def member (key : String) : Traced → Except Error Traced
  | object h =>
    match History.latest? key h with
    | some x => .ok x
    | none => .error .invalidKey
  | t => .error (t.typeMismatch "object")

/-- The items of a container in their order. -/
def items (order : MemberOrder) : Traced → Except Error (List (Option String × Traced))
  | array xs => .ok (xs.map fun x => (none, x))
  | object h =>
    .ok ((History.keys order h).filterMap fun key =>
      (History.latest? key h).map fun x => (some key, x))
  | t => .error (t.typeMismatch "array or object")

/-- The count of items of a container. -/
def size : Traced → Except Error ℕ
  | array xs => .ok xs.length
  | object h => .ok (History.arrivals h).length
  | t => .error (t.typeMismatch "array or object")

/-- The part that a step leads to. -/
def part (t : Traced) : PathStep → Except Error Traced
  | .key key => t.member key
  | .index index => t.element index

/-- The part that a path leads to, where each step fails in its own way. -/
def follow {ε : Type} (fault : PathStep → Error → ε) (path : List PathStep) (t : Traced) :
    Except ε Traced :=
  path.foldlM (fun t s => (t.part s).mapError (fault s)) t

/-! ### Changes of parts -/

section

variable {ε α : Type}

/-- The outcome of a trace of a part, as one of the whole that the part is put back into. -/
def putBack (whole : Traced → Traced) :
    EStateM.Result ε Traced α → EStateM.Result ε Traced α
  | .ok a part => .ok a (whole part)
  | .error e part => .error e (whole part)

/-- The trace of the element at an index of an array, which is extended with nulls up to it. -/
def atElement (fault : Error → ε) (index : ℕ) (trace : Trace ε α) : Trace ε α := fun t =>
  match t.orArray with
  | array xs =>
    let xs := Elements.extendTo (index + 1) null xs
    putBack (fun x => array (xs.set index x)) (trace (xs.getD index null))
  | u => .error (fault (u.typeMismatch "array")) u

/-- The trace of the value of a member of an object, where null is stored first if it is absent. -/
def atMember (fault : Error → ε) (key : String) (trace : Trace ε α) : Trace ε α := fun t =>
  match t.orObject with
  | object h =>
    match History.latest? key h with
    | some x => putBack (fun x => object (.store key x :: h)) (trace x)
    | none => putBack (fun x => object (.store key x :: .store key null :: h)) (trace null)
  | u => .error (fault (u.typeMismatch "object")) u

/-- The trace of the part that a path leads to. -/
def along (fault : PathStep → Error → ε) : List PathStep → Trace ε α → Trace ε α
  | [], trace => trace
  | .key key :: path, trace => atMember (fault (.key key)) key (along fault path trace)
  | .index index :: path, trace => atElement (fault (.index index)) index (along fault path trace)

end

/-- A value in place of the item at a position of a container. -/
def assignItem (order : MemberOrder) (t : Traced) (position : ℕ) (x : Traced) : Traced :=
  match t with
  | array xs => array (xs.set position x)
  | object h =>
    match (History.keys order h)[position]? with
    | some key => object (.store key x :: h)
    | none => object h
  | t => t

end Traced

/-! ### Operations -/

open Traced in
/-- What a query comes to. -/
def Query.trace : Query → Traced → Except Error (Reply Traced)
  | size, t => t.size.map .count
  | element index, t => (t.element index).map .value
  | find key, t => (t.find? key).map .found

open Traced in
/-- The trace that a change is. -/
def Change.trace : Change Traced → Trace Error (Reply Traced)
  | read, t => .ok (.value t) t
  | assign x, _ => .ok .done x
  | clear, t => .ok .done (ofKind t.kind)
  | take, t => .ok (.value t) null
  | push x, t =>
    match t.orArray with
    | array xs => .ok .done (array (xs ++ [x]))
    | u => .error (u.typeMismatch "array") u
  | insertAt index x, t =>
    match t.orArray with
    | array xs =>
      if index ≤ xs.length then .ok .done (array (Elements.insertAt index x xs))
      else .error .invalidIterator (array xs)
    | u => .error (u.typeMismatch "array") u
  | eraseIndex index, t =>
    match t with
    | array xs =>
      match xs[index]? with
      | some x => .ok (.value x) (array (xs.eraseIdx index))
      | none => .error .invalidIterator (array xs)
    | t => .error (t.typeMismatch "array") t
  | eraseRange start stop, t =>
    match t with
    | array xs =>
      if start ≤ stop ∧ stop ≤ xs.length then
        .ok .done (array (Elements.removeRange start stop xs))
      else .error .invalidIterator (array xs)
    | t => .error (t.typeMismatch "array") t
  | insert key x, t =>
    match t.orObject with
    | object h => .ok (.found (History.latest? key h)) (object (.store key x :: h))
    | u => .error (u.typeMismatch "object") u
  | replace key x, t =>
    match t with
    | object h =>
      match History.latest? key h with
      | some prior => .ok (.found (some prior)) (object (.store key x :: h))
      | none => .ok (.found none) (object h)
    | t => .error (t.typeMismatch "object") t
  | eraseKey key, t =>
    match t with
    | object h => .ok (.found (History.latest? key h)) (object (.erase key :: h))
    | t => .error .invalidKey t

namespace Traced

/-- The items of a container in their order, in place of some of which values are put. -/
def visit (order : MemberOrder) (writes : List (ℕ × Traced)) :
    Trace Error (Reply Traced) := fun t =>
  match t.items order with
  | .ok items => .ok (.items items) (writes.foldl (fun t (i, x) => assignItem order t i x) t)
  | .error e => .error e t

end Traced

namespace Command

variable (order : MemberOrder)

/-- The trace that a command is. -/
def trace (c : Command Traced) : Trace Fault (Reply Traced) :=
  match c.action with
  | .query q => fun t =>
    match (t.follow (Fault.ofStep c.asserted) c.path).bind fun x => (q.trace x).mapError .error with
    | .ok reply => .ok reply t
    | .error e => .error e t
  | .change x => Traced.along (Fault.ofStep c.asserted) c.path (x.trace.adaptExcept .error)
  | .visit writes =>
    Traced.along (Fault.ofStep c.asserted) c.path ((Traced.visit order writes).adaptExcept .error)

/-- The outcomes of commands that are given one after another, and the traced value after them. -/
def traceAll : List (Command Traced) → Traced → List (Except Fault (Reply Traced)) × Traced
  | [], t => ([], t)
  | c :: commands, t =>
    match c.trace order t with
    | .ok reply u => (.ok reply :: (traceAll commands u).1, (traceAll commands u).2)
    | .error e u => (.error e :: (traceAll commands u).1, (traceAll commands u).2)

end Command

namespace Traced

/-- The value is the traced one with the members that the histories tell. -/
inductive Tells (order : MemberOrder) : Traced → Value → Prop
  | null : Tells order null .null
  | bool (b : Bool) : Tells order (bool b) (.bool b)
  | integer (i : Int64) : Tells order (integer i) (.integer i)
  | float (x : Binary64) : Tells order (float x) (.float x)
  | string (s : String) : Tells order (string s) (.string s)
  | array {ts : List Traced} {xs : List Value} (h : List.Forall₂ (Tells order) ts xs) :
      Tells order (array ts) (.array xs)
  | object {h : List (Event Traced)} {m : Members Value} (keys_eq : m.keys = History.keys order h)
      (found : ∀ key, Option.Rel (Tells order) (History.latest? key h) (m.find? key)) :
      Tells order (object h) (.object m)

end Traced

end JsonDoc

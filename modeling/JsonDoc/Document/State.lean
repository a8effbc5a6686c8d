import JsonDoc.Token.Basic
import JsonDoc.Value.Basic

/-!
# Reading states

A document is read one token at a time.  A state is what the next token may be, above the containers
that are open around it (`Frame`), the innermost first.  A value that is complete becomes an item of
the innermost container, or the document.
-/

namespace JsonDoc

/-- How a document is read. -/
structure ReadOptions where
  /-- Where the keys of an object go. -/
  order : MemberOrder
  /-- The most containers that may be open at once. -/
  maxDepth : Option Nat
  deriving DecidableEq, Repr

/-- A container around a value that is being read. -/
inductive Frame where
  /-- An array, with the elements before the value, the last one first. -/
  | element (reversed : List Value)
  /-- An object, with the members before the value and its key. -/
  | member (members : Members Value) (key : String)

/-- What the next token may be. -/
inductive Place where
  /-- The first token of a value. -/
  | value
  /-- The end of an array or its first element. -/
  | arrayStart
  /-- The end of an array or a comma, after elements, the last one first. -/
  | arrayNext (reversed : List Value)
  /-- The end of an object or its first key. -/
  | objectStart
  /-- A key, after members. -/
  | key (members : Members Value)
  /-- The colon after a key. -/
  | colon (members : Members Value) (key : String)
  /-- The end of an object or a comma, after members. -/
  | objectNext (members : Members Value)
  /-- The end of the input, after the document. -/
  | complete (v : Value)

/-- A state of reading. -/
structure ReadState where
  place : Place
  /-- The containers around the next token, apart from one that the place itself belongs to. -/
  frames : List Frame

namespace ReadState

/-- The state before a document. -/
def start : ReadState := ⟨.value, []⟩

/-- The cause of a token that stands where something else was expected. -/
def unexpected (expected : String) (t : Token) : Cause := .unexpectedToken expected t.describe

/-- The state after a value within containers. -/
def supply (order : MemberOrder) (v : Value) : List Frame → ReadState
  | [] => ⟨.complete v, []⟩
  | .element reversed :: frames => ⟨.arrayNext (v :: reversed), frames⟩
  | .member members key :: frames => ⟨.objectNext (members.insert order key v).2, frames⟩

/-- The state after the opening bracket of a container, if one more may be open. -/
def enter (options : ReadOptions) (place : Place) (frames : List Frame) :
    Except Cause ReadState :=
  match options.maxDepth with
  | some most => if most < frames.length + 1 then .error .tooDeep else .ok ⟨place, frames⟩
  | none => .ok ⟨place, frames⟩

/-- The state after the first token of a value within containers. -/
def stepValue (options : ReadOptions) (frames : List Frame) : Token → Except Cause ReadState
  | .null => .ok (supply options.order .null frames)
  | .true => .ok (supply options.order (.bool true) frames)
  | .false => .ok (supply options.order (.bool false) frames)
  | .integer i => .ok (supply options.order (.integer i) frames)
  | .float x => .ok (supply options.order (.float x) frames)
  | .string s => .ok (supply options.order (.string s) frames)
  | .beginArray => enter options .arrayStart frames
  | .beginObject => enter options .objectStart frames
  | t => .error (unexpected "a value" t)

/-- The state after a key. -/
def stepKey (members : Members Value) (frames : List Frame) : Token → Except Cause ReadState
  | .string key => .ok ⟨.colon members key, frames⟩
  | t => .error (unexpected "a string key" t)

/-- The state after a token other than the end of the input. -/
def step (options : ReadOptions) (s : ReadState) (t : Token) : Except Cause ReadState :=
  match s.place with
  | .value => stepValue options s.frames t
  | .arrayStart =>
    match t with
    | .endArray => .ok (supply options.order (.array []) s.frames)
    | t => stepValue options (.element [] :: s.frames) t
  | .arrayNext reversed =>
    match t with
    | .endArray => .ok (supply options.order (.array reversed.reverse) s.frames)
    | .valueSeparator => .ok ⟨.value, .element reversed :: s.frames⟩
    | t => .error (unexpected "`,` or `]`" t)
  | .objectStart =>
    match t with
    | .endObject => .ok (supply options.order (.object .empty) s.frames)
    | t => stepKey .empty s.frames t
  | .key members => stepKey members s.frames t
  | .colon members key =>
    match t with
    | .nameSeparator => .ok ⟨.value, .member members key :: s.frames⟩
    | t => .error (unexpected "`:`" t)
  | .objectNext members =>
    match t with
    | .endObject => .ok (supply options.order (.object members) s.frames)
    | .valueSeparator => .ok ⟨.key members, s.frames⟩
    | t => .error (unexpected "`,` or `\x7d`" t)
  | .complete _ => .error .trailingContent

/-- The document, if the input may end here. -/
def atEnd (s : ReadState) : Except Cause Value :=
  match s.place with
  | .complete v => .ok v
  | _ => .error .unexpectedEnd

end ReadState

end JsonDoc

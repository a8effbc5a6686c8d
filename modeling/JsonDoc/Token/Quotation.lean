import JsonDoc.Text.Surrogate
import JsonDoc.Token.Move

/-!
# Strings

The spelling of a string, after its opening quote: characters that stand for themselves, escapes of
two characters, and escaped code units, of which a surrogate has to be followed at once by the other
of its pair.
-/

namespace JsonDoc

/-- Where within an escape a string is. -/
inductive EscapePlace where
  /-- Outside of any escape. -/
  | outside
  /-- After the backslash. -/
  | backslash
  /-- Within the digits of a code unit, with those before. -/
  | unit (digits : List Char)
  /-- After a lead surrogate. -/
  | lead (unit : UInt16)
  /-- After a lead surrogate and a backslash. -/
  | leadBackslash (unit : UInt16)
  /-- Within the digits of the code unit after a lead surrogate, with those before. -/
  | trail (unit : UInt16) (digits : List Char)

/-- How far a string has been read: its characters, the last one first, and the place. -/
structure StringState where
  reversed : List Char
  place : EscapePlace

namespace StringState

/-- The state after the opening quote. -/
def start : StringState := ⟨[], .outside⟩

/-- The state after one more character of the string. -/
def push (c : Char) (s : StringState) : StringState := ⟨c :: s.reversed, .outside⟩

/-- The character that an escape of two characters stands for, by the second. -/
def shortEscape? : Char → Option Char
  | '"' => some '"'
  | '\\' => some '\\'
  | '/' => some '/'
  | 'b' => some '\x08'
  | 'f' => some '\x0c'
  | 'n' => some '\n'
  | 'r' => some '\r'
  | 't' => some '\t'
  | _ => none

/-- The move of the last digit of a code unit. -/
def closeUnit (s : StringState) (digits : List Char) : Move StringState :=
  match Hex.decode? digits with
  | none => .reject .invalidHex
  | some unit =>
    if Surrogate.isLead unit then .shift ⟨s.reversed, .lead unit⟩
    else
      match Surrogate.scalar? unit with
      | some c => .shift (s.push c)
      | none => .reject .loneSurrogate

/-- The move of the last digit of the code unit after a lead surrogate. -/
def closePair (s : StringState) (lead : UInt16) (digits : List Char) : Move StringState :=
  match Hex.decode? digits with
  | none => .reject .invalidHex
  | some unit =>
    match Surrogate.combine? lead unit with
    | some c => .shift (s.push c)
    | none => .reject .loneSurrogate

/-- The move of a character. -/
def step (s : StringState) (c : Char) : Move StringState :=
  match s.place with
  | .outside =>
    if c = '"' then .accept (.string (String.ofList s.reversed.reverse))
    else if c = '\\' then .shift ⟨s.reversed, .backslash⟩
    else if c ≤ '\x1f' then .reject .controlCharacter
    else .shift (s.push c)
  | .backslash =>
    if c = 'u' then .shift ⟨s.reversed, .unit []⟩
    else
      match shortEscape? c with
      | some d => .shift (s.push d)
      | none => .reject .invalidEscape
  | .unit digits =>
    if digits.length < 3 then .shift ⟨s.reversed, .unit (digits ++ [c])⟩
    else s.closeUnit (digits ++ [c])
  | .lead unit =>
    if c = '\\' then .shift ⟨s.reversed, .leadBackslash unit⟩ else .reject .loneSurrogate
  | .leadBackslash unit =>
    if c = 'u' then .shift ⟨s.reversed, .trail unit []⟩ else .reject .loneSurrogate
  | .trail unit digits =>
    if digits.length < 3 then .shift ⟨s.reversed, .trail unit (digits ++ [c])⟩
    else s.closePair unit (digits ++ [c])

end StringState

end JsonDoc

import JsonDoc.Binary64.Digits
import JsonDoc.Integer
import JsonDoc.Text.Quoted
import JsonDoc.Value.Basic

/-!
# Inspecting values

A value is shown with its structure: the word for its kind around its content, arrays in brackets and
objects in braces.  In the long form every part is on a line of its own, indented by four spaces and
followed by a comma.  A floating point number is shown by the fewest digits that tell it apart.
-/

namespace JsonDoc

/-- The shortest text of a floating point number: positional, with at least one digit behind the
point, if it is zero or at least `1e-4` and less than `1e16`, and in scientific notation otherwise. -/
def Binary64.inspect : Binary64 → List Char
  | .nan => ['N', 'a', 'N']
  | .infinite negative => (if negative then ['-'] else []) ++ ['i', 'n', 'f']
  | .finite negative m =>
    let sign := if negative then ['-'] else []
    if m.code = 0 then sign ++ ['0', '.', '0']
    else
      let s := m.shortest
      let digits :=
        ((Nat.toDigits 10 s.coefficient).reverse.dropWhile (· == '0')).reverse
      let point (fraction : List Char) := if fraction = [] then [] else '.' :: fraction
      if s.exponent < -4 ∨ 16 ≤ s.exponent then
        sign ++ digits.take 1 ++ point (digits.drop 1) ++ 'e' :: Integer.text s.exponent
      else if s.exponent < 0 then
        sign ++ '0' :: '.' :: List.replicate (s.exponent.natAbs - 1) '0' ++ digits
      else
        let places := s.exponent.toNat + 1
        let fraction := digits.drop places
        sign ++ digits.take places ++ List.replicate (places - digits.length) '0' ++
          '.' :: if fraction = [] then ['0'] else fraction

namespace Value

/-- The break of a line before a part at a depth, in the long form. -/
def inspectBreak (long : Bool) (depth : Nat) : List Char :=
  if long then '\n' :: List.replicate (4 * depth) ' ' else []

/-- A text that is put before the text that follows it. -/
abbrev Prepended := List Char → List Char

/-- Parts between brackets, in the long form each on a line of its own. -/
def inspectParts (long : Bool) (depth : Nat) (opening closing : Char) :
    List Prepended → Prepended
  | [], rest => opening :: closing :: rest
  | first :: others, rest =>
    let lead := inspectBreak long (depth + 1)
    let separator := if long then ',' :: lead else [',', ' ']
    let ending := (if long then ',' :: inspectBreak long depth else []) ++ closing :: rest
    opening :: (lead ++ first (others.foldr (fun part after => separator ++ part after) ending))

/-- A content within the word for its kind. -/
def inspectWithin (long : Bool) (depth : Nat) (kind : Kind) (content : Prepended) : Prepended :=
  fun rest => kind.label.toList ++ inspectParts long depth '(' ')' [content] rest

mutual

/-- The structure of a value at a depth. -/
def inspectAt (long : Bool) (depth : Nat) : Value → Prepended
  | null => (Kind.null.label.toList ++ ·)
  | bool b => inspectWithin long depth .boolean ((if b then "true" else "false").toList ++ ·)
  | integer i => inspectWithin long depth .integer (Integer.text i.toInt ++ ·)
  | float x => inspectWithin long depth .float (x.inspect ++ ·)
  | string s => inspectWithin long depth .string ((Quoted.string s).toList ++ ·)
  | array xs =>
    inspectWithin long depth .array
      (inspectParts long (depth + 1) '[' ']' (inspectElements long (depth + 2) xs))
  | object ⟨entries⟩ =>
    inspectWithin long depth .object
      (inspectParts long (depth + 1) '{' '}' (inspectMembers long (depth + 2) entries))

/-- The structures of elements at a depth. -/
def inspectElements (long : Bool) (depth : Nat) : List Value → List Prepended
  | [] => []
  | x :: xs => x.inspectAt long depth :: inspectElements long depth xs

/-- The structures of members at a depth, behind their keys. -/
def inspectMembers (long : Bool) (depth : Nat) : List (String × Value) → List Prepended
  | [] => []
  | (key, x) :: members =>
    (fun rest => (Quoted.string key).toList ++ ':' :: ' ' :: x.inspectAt long depth rest) ::
      inspectMembers long depth members

end

/-- The structure of a value, in the long form or not. -/
def inspect (long : Bool) (v : Value) : String := String.ofList (v.inspectAt long 0 [])

end Value

end JsonDoc

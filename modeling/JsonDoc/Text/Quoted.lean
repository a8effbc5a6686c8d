import JsonDoc.Text.Hex
import JsonDoc.Text.Visible

/-!
# Quoted text

A character or a string as it is shown in a message: between quotes, with a backslash before the
quote and the backslash, short names for four controls, and every other character that would not be
visible by its number.
-/

namespace JsonDoc.Quoted

/-- The spelling of a character between quotes of a kind. -/
def escape (quote c : Char) : List Char :=
  match c with
  | '\x00' => ['\\', '0']
  | '\t' => ['\\', 't']
  | '\r' => ['\\', 'r']
  | '\n' => ['\\', 'n']
  | '\\' => ['\\', '\\']
  | c =>
    if c = quote then ['\\', c]
    else if Visible.contains c then [c]
    else ['\\', 'u', '{'] ++ Hex.digits c.toNat ++ ['}']

/-- A character in single quotes. -/
def char (c : Char) : String := String.ofList ('\'' :: escape '\'' c ++ ['\''])

/-- A string in double quotes. -/
def string (s : String) : String := String.ofList ('"' :: s.toList.flatMap (escape '"') ++ ['"'])

end JsonDoc.Quoted

import JsonDoc.Dump.Piece
import JsonDoc.Text.Hex
import JsonDoc.Text.Utf16

/-!
# The text of strings

A string is written between quotes.  The quote, the backslash and the controls are escaped, and if
asked for so is every character beyond those of ASCII that can be seen.
-/

namespace JsonDoc.Dump

/-- The pieces of the escape of a code unit. -/
def unitPieces (unit : UInt16) : List Piece := ['\\', 'u'] :: Piece.singles (Hex.encode unit)

/-- The pieces of a character within a string. -/
def charPieces (escapeUnicode : Bool) (c : Char) : List Piece :=
  match c with
  | '"' => [['\\', '"']]
  | '\\' => [['\\', '\\']]
  | '\t' => [['\\', 't']]
  | '\r' => [['\\', 'r']]
  | '\n' => [['\\', 'n']]
  | '\x08' => [['\\', 'b']]
  | '\x0c' => [['\\', 'f']]
  | c =>
    if c ≤ '\x1f' || escapeUnicode && '\x7f' ≤ c then (Utf16.encode c).flatMap unitPieces
    else [[c]]

/-- The pieces of a string. -/
def stringPieces (escapeUnicode : Bool) (s : String) : List Piece :=
  ['"'] :: s.toList.flatMap (charPieces escapeUnicode) ++ [['"']]

end JsonDoc.Dump

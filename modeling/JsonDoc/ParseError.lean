import JsonDoc.Source.Basic
import JsonDoc.Text.Quoted

/-!
# Errors of reading a document

Reading stops at the first error, which has a cause and the count of characters that had been used
when it was found.
-/

namespace JsonDoc

/-- The reason why a text is not a document. -/
inductive Cause where
  /-- A character that begins no token. -/
  | unexpectedCharacter (c : Char)
  /-- The input ended within a token or before the document was complete. -/
  | unexpectedEnd
  /-- A word that began like `true`, `false` or `null` went on differently. -/
  | invalidLiteral
  /-- A control character within a string was not escaped. -/
  | controlCharacter
  /-- A backslash was followed by no escape. -/
  | invalidEscape
  /-- A code unit was not four hexadecimal digits. -/
  | invalidHex
  /-- A surrogate was not one of a pair. -/
  | loneSurrogate
  /-- A number was not spelled as one. -/
  | invalidNumber
  /-- A number was too large to be finite. -/
  | numberOutOfRange
  /-- A token stood where another was called for. -/
  | unexpectedToken (expected found : String)
  /-- More than one value was in the input. -/
  | trailingContent
  /-- More containers were open than is allowed. -/
  | tooDeep
  /-- The source of the characters failed. -/
  | source (e : SourceError)
  deriving DecidableEq, Repr

/-- The words for a cause. -/
def Cause.message : Cause → String
  | unexpectedCharacter c => "unexpected character " ++ Quoted.char c
  | unexpectedEnd => "unexpected end of input"
  | invalidLiteral => "invalid literal"
  | controlCharacter => "unescaped control character in string"
  | invalidEscape => "invalid escape sequence"
  | invalidHex => "invalid hexadecimal digits in unicode escape"
  | loneSurrogate => "unpaired UTF-16 surrogate"
  | invalidNumber => "invalid number"
  | numberOutOfRange => "number out of range"
  | unexpectedToken expected found => "expected " ++ expected ++ ", found " ++ found
  | trailingContent => "trailing content after the document"
  | tooDeep => "document nested too deeply"
  | source e => "character source failed: " ++ e.message

/-- An error with its place, counted in characters. -/
structure ParseError where
  cause : Cause
  offset : Nat
  deriving DecidableEq, Repr

/-- The words for an error. -/
def ParseError.message (e : ParseError) : String :=
  e.cause.message ++ " at character " ++ String.ofList (Nat.toDigits 10 e.offset)

end JsonDoc

import JsonDoc.Binary64.Basic

/-!
# Tokens

The lexical units of a document.  Strings and numbers are tokens by their values, and the end of the
input is a token as well.
-/

namespace JsonDoc

/-- A lexical unit. -/
inductive Token where
  | beginArray
  | endArray
  | beginObject
  | endObject
  | nameSeparator
  | valueSeparator
  | true
  | false
  | null
  | string (text : String)
  | integer (i : Int64)
  | float (x : Binary64)
  | endOfInput
  deriving DecidableEq, Repr

/-- The words that name a token in a message. -/
def Token.describe : Token → String
  | beginArray => "`[`"
  | endArray => "`]`"
  | beginObject => "`\x7b`"
  | endObject => "`\x7d`"
  | nameSeparator => "`:`"
  | valueSeparator => "`,`"
  | true => "`true`"
  | false => "`false`"
  | null => "`null`"
  | string _ => "a string"
  | integer _ => "a number"
  | float _ => "a number"
  | endOfInput => "the end of input"

end JsonDoc

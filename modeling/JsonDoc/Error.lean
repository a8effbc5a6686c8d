import JsonDoc.Kind
import JsonDoc.ParseError

/-!
# Errors of working with documents

Beside the errors of reading a text there are three of working with a value: it has another kind
than the operation needs, a key or an index is not in it, or a position does not belong to it.
-/

namespace JsonDoc

/-- The reason why an operation failed. -/
inductive Error where
  | parse (e : ParseError)
  | typeMismatch (expected : String) (found : Kind)
  | invalidKey
  | invalidIterator
  deriving DecidableEq, Repr

namespace Error

/-- The words for an error. -/
def message : Error → String
  | parse e => e.message
  | typeMismatch expected found => "type error: expected " ++ expected ++ ", found " ++ found.name
  | invalidKey => "invalid key"
  | invalidIterator => "invalid iterator"

/-- The error that an error was made from. -/
def source? : Error → Option ParseError
  | parse e => some e
  | _ => none

end Error

end JsonDoc

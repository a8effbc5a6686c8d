/-!
# Kinds of values

The seven kinds, in their order, with the names that messages use.
-/

namespace JsonDoc

/-- A kind of value. -/
inductive Kind where
  | null
  | boolean
  | integer
  | float
  | string
  | array
  | object
  deriving DecidableEq, Repr, Ord

namespace Kind

/-- The name of a kind. -/
def name : Kind → String
  | null => "null"
  | boolean => "boolean"
  | integer => "integer"
  | float => "float"
  | string => "string"
  | array => "array"
  | object => "object"

/-- The word that stands before a value of the kind when it is shown with its structure. -/
def label : Kind → String
  | null => "Null"
  | boolean => "Bool"
  | integer => "Integer"
  | float => "Float"
  | string => "String"
  | array => "Array"
  | object => "Object"

/-- The test for the kinds of numbers. -/
def isNumber : Kind → Bool
  | integer => true
  | float => true
  | _ => false

/-- The test for the kinds that have items. -/
def isContainer : Kind → Bool
  | array => true
  | object => true
  | _ => false

/-- All kinds, in their order. -/
def all : List Kind := [null, boolean, integer, float, string, array, object]

end Kind

end JsonDoc

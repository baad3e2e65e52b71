namespace ImageSpec

/-!
# JSON values

A value as it was written: a number is its text, and an object keeps the order of its members and
the members whose names repeat.  A text that was written with bytes that are no UTF-8 or with half
of a surrogate pair stands for no string: it is `none`, which is a fault only for a reader that
needs the string.
-/

/-- A JSON value. -/
inductive Json where
  | null
  | bool (b : Bool)
  | number (written : String)
  | string (value : Option String)
  | array (items : List Json)
  | object (members : List (Option String × Json))
deriving Inhabited

namespace Json

/-- The string that a value is. -/
def string? : Json → Option String
  | string value => value
  | _ => none

/-- The truth value that a value is. -/
def bool? : Json → Option Bool
  | bool b => some b
  | _ => none

/-- The items of an array. -/
def items? : Json → Option (List Json)
  | array items => some items
  | _ => none

end Json

end ImageSpec

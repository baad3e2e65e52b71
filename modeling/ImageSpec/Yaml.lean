namespace ImageSpec

/-!
# YAML documents

The YAML of catalog files: sequences, mappings and scalars, in block or flow style.  A scalar is its
text; whether it was written without quotes matters only where nothing may be written for a value.
Anchors, aliases, tags and directives are not part of the dialect.
-/

/-- A node of a document. -/
inductive Yaml where
  | scalar (text : String) (plain : Bool)
  | sequence (items : List Yaml)
  | mapping (pairs : List (Yaml × Yaml))
deriving Inhabited

namespace Yaml

/-- What stands where nothing is written. -/
def nothing : Yaml := scalar "" true

/-- The text of a scalar. -/
def text? : Yaml → Option String
  | scalar text _ => some text
  | _ => none

/-- The words that stand for no value when they are written without quotes. -/
def nullWords : List String := ["null", "Null", "NULL", "~"]

/-- Whether a node is nothing at all. -/
def isNothing : Yaml → Bool
  | scalar text plain => plain && text.isEmpty
  | _ => false

/-- Whether a node stands for no value. -/
def isNull : Yaml → Bool
  | scalar text plain => plain && (text.isEmpty || nullWords.contains text)
  | _ => false

/-- The items of a sequence; nothing is the empty sequence. -/
def items? : Yaml → Option (List Yaml)
  | sequence items => some items
  | node => if node.isNothing then some [] else none

end Yaml

end ImageSpec

import ImageSpec.Text.Numerals
import ImageSpec.Text.Segments

namespace ImageSpec.Version

/-!
# Versions

A version is a text of components between dots.  A component that reads as a 64-bit number is a
number, any other is a text.  Numbers stand before texts, a proper beginning of a version stands
before the version, and otherwise the first different component decides: `3.9 < 3.19 < 3.19.1`.
-/

/-- A component of a version. -/
inductive Component where
  | number (n : Nat)
  | text (s : String)
deriving DecidableEq, Repr

/-- The number that a text of decimal digits stands for, if it fits in 64 bits.  One `+` may stand in
    front of the digits. -/
def number? (cs : List Char) : Option Nat :=
  Text.word? (match cs with
    | '+' :: rest => rest
    | _ => cs)

/-- The component that a text between two dots stands for. -/
def Component.ofText (cs : List Char) : Component :=
  match number? cs with
  | some n => .number n
  | none => .text (String.ofList cs)

/-- The components of a version. -/
def components (version : String) : List Component :=
  (Text.splitAt '.' version.toList).map Component.ofText

/-- Numbers by value, texts by characters, numbers before texts. -/
def Component.compare : Component → Component → Ordering
  | .number a, .number b => Ord.compare a b
  | .number _, .text _ => .lt
  | .text _, .number _ => .gt
  | .text a, .text b => Ord.compare a b

/-- Lists of components in the order of a dictionary. -/
def compareComponents : List Component → List Component → Ordering
  | [], [] => .eq
  | [], _ :: _ => .lt
  | _ :: _, [] => .gt
  | a :: as, b :: bs => (a.compare b).then (compareComponents as bs)

/-- The order of versions. -/
def compare (a b : String) : Ordering := compareComponents (components a) (components b)

end ImageSpec.Version

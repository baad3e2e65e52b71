import ImageSpec.Text.Numerals
import ImageSpec.Yaml

namespace ImageSpec.Yaml

/-!
# Texts that look like other values

A text that would be read as a number, a truth value or nothing has to be written between quotes.
Numbers are decimal, with a fraction or an exponent if they fit in a double, or integers of at most
128 bits with a mark for their base.
-/

/-- Takes one of two signs off the front. -/
def dropSign : List Char → List Char
  | '+' :: rest => rest
  | '-' :: rest => rest
  | cs => cs

/-- Whether a text starts with a sign. -/
def hasSign (cs : List Char) : Bool :=
  match cs.head? with
  | some c => c == '+' || c == '-'
  | none => false

/-- Digits that are no number because they start with a zero. -/
def isPadded (cs : List Char) : Bool :=
  match dropSign cs with
  | '0' :: d :: rest => (d :: rest).all Char.isDigit
  | _ => false

/-! ### Decimal numbers -/

/-- The least number that does not fit in a double: half a step above the largest one. -/
def overflow : Nat := Nat.pow 2 1024 - Nat.pow 2 970

/-- Whether the number `digits * 10 ^ exponent` fits in a double.  Numbers far from the bound are
    told apart by their length alone. -/
def fits (digits : List Char) (exponent : Int) : Bool :=
  let significant := digits.dropWhile (· == '0')
  let magnitude := exponent + significant.length
  if significant.isEmpty || magnitude < 309 then true
  else if magnitude > 309 then false
  else if 0 ≤ exponent then Text.decimal significant * Nat.pow 10 exponent.toNat < overflow
  else Text.decimal significant < overflow * Nat.pow 10 (-exponent).toNat

/-- Reads an exponent: a mark, a sign and digits.  No exponent is 0. -/
def exponent? : List Char → Option Int
  | [] => some 0
  | mark :: rest =>
    let digits := dropSign rest
    if (mark == 'e' || mark == 'E') && !digits.isEmpty && digits.all Char.isDigit then
      some (if rest.head? = some '-' then -(Text.decimal digits : Int) else Text.decimal digits)
    else none

/-- Whether a text is a decimal number that fits in a double, without its sign. -/
def isMagnitude (cs : List Char) : Bool :=
  let whole := cs.takeWhile Char.isDigit
  let rest := cs.dropWhile Char.isDigit
  let (fraction, rest) := match rest with
    | '.' :: rest => (rest.takeWhile Char.isDigit, rest.dropWhile Char.isDigit)
    | _ => ([], rest)
  if whole.isEmpty && fraction.isEmpty then false
  else match exponent? rest with
    | some e => fits (whole ++ fraction) (e - fraction.length)
    | none => false

/-- Whether a text is a decimal number, infinite or no number in the spelling for doubles. -/
def isDecimal (cs : List Char) : Bool :=
  let infinite := [".inf", ".Inf", ".INF"].map String.toList
  let undefined := [".nan", ".NaN", ".NAN"].map String.toList
  match cs with
  | '+' :: rest => !hasSign rest && (infinite.contains rest || isMagnitude rest)
  | '-' :: rest => infinite.contains rest || isMagnitude rest
  | _ => infinite.contains cs || undefined.contains cs || isMagnitude cs

/-! ### Integers with a base -/

/-- The value of a digit in a base. -/
def digitIn? (base : Nat) (c : Char) : Option Nat :=
  let value :=
    if c.isDigit then some (c.toNat - '0'.toNat)
    else if 'a' ≤ c ∧ c ≤ 'f' then some (c.toNat - 'a'.toNat + 10)
    else if 'A' ≤ c ∧ c ≤ 'F' then some (c.toNat - 'A'.toNat + 10)
    else none
  value.filter (· < base)

/-- The number that digits in a base stand for; there has to be at least one. -/
def ofBase? (base : Nat) (cs : List Char) : Option Nat :=
  if cs.isEmpty then none
  else (cs.mapM (digitIn? base)).map fun ds => ds.foldl (fun n d => base * n + d) 0

/-- The base that stands at the front, and the digits behind it. -/
def baseOf? : List Char → Option (Nat × List Char)
  | '0' :: 'x' :: rest => some (16, rest)
  | '0' :: 'o' :: rest => some (8, rest)
  | '0' :: 'b' :: rest => some (2, rest)
  | _ => none

/-- Whether a text is an integer with a base that fits in 128 bits. -/
def isBased (cs : List Char) : Bool :=
  match cs with
  | '-' :: rest =>
    match baseOf? rest with
    | some (base, digits) => (ofBase? base digits).any (· ≤ Nat.pow 2 127)
    | none => false
  | _ =>
    match baseOf? (if cs.head? = some '+' then cs.tail else cs) with
    | some (base, digits) => (ofBase? base digits).any (· < Nat.pow 2 128)
    | none => false

/-! ### Words -/

/-- The words that stand for truth values. -/
def boolWords : List String := ["true", "True", "TRUE", "false", "False", "FALSE"]

/-- Whether a text without quotes would be read as something else than a text. -/
def isAmbiguous (s : String) : Bool :=
  s.isEmpty || nullWords.contains s || boolWords.contains s
    || isPadded s.toList || isDecimal s.toList || isBased s.toList

end ImageSpec.Yaml

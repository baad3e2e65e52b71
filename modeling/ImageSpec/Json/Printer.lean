import ImageSpec.Json
import ImageSpec.Text.Numerals

namespace ImageSpec.Json

/-!
# Writing JSON

`quoted` writes a string on one line: quotes, backslashes and characters below the space are escaped.
`pretty` writes a value over several lines, two spaces deeper for each level.
-/

/-! ### Strings -/

/-- A character as it is written in a string. -/
def escape (c : Char) : List Char :=
  match c with
  | '"' => ['\\', '"']
  | '\\' => ['\\', '\\']
  | '\x08' => ['\\', 'b']
  | '\x0c' => ['\\', 'f']
  | '\n' => ['\\', 'n']
  | '\r' => ['\\', 'r']
  | '\t' => ['\\', 't']
  | _ => if c.toNat < 0x20 then ['\\', 'u'] ++ Text.hexPadded 4 c.toNat else [c]

/-- A string between quotes. -/
def quoted (cs : List Char) : List Char := ['"'] ++ cs.flatMap escape ++ ['"']

/-! ### Values -/

/-- A line break and the indentation of a level. -/
def lineBreak (depth : Nat) : List Char := '\n' :: List.replicate (2 * depth) ' '

mutual

/-- A value at a level of indentation. -/
def pretty (depth : Nat) : Json → List Char
  | null => "null".toList
  | bool true => "true".toList
  | bool false => "false".toList
  | number written => written.toList
  | string value => quoted ((value.getD "").toList)
  | array [] => "[]".toList
  | array (v :: vs) =>
    ['['] ++ lineBreak (depth + 1) ++ pretty (depth + 1) v ++ prettyItems (depth + 1) vs
      ++ lineBreak depth ++ [']']
  | object [] => "\x7b\x7d".toList
  | object ((key, v) :: ms) =>
    ['\x7b'] ++ lineBreak (depth + 1) ++ quoted ((key.getD "").toList) ++ [':', ' ']
      ++ pretty (depth + 1) v ++ prettyMembers (depth + 1) ms ++ lineBreak depth ++ ['\x7d']

/-- The items behind the first, each on a line of its own. -/
def prettyItems (depth : Nat) : List Json → List Char
  | [] => []
  | v :: vs => [','] ++ lineBreak depth ++ pretty depth v ++ prettyItems depth vs

/-- The members behind the first, each on a line of its own. -/
def prettyMembers (depth : Nat) : List (Option String × Json) → List Char
  | [] => []
  | (key, v) :: ms =>
    [','] ++ lineBreak depth ++ quoted ((key.getD "").toList) ++ [':', ' '] ++ pretty depth v
      ++ prettyMembers depth ms

end

/-- A value over several lines. -/
def render (v : Json) : String := String.ofList (pretty 0 v)

end ImageSpec.Json

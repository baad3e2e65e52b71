import ImageSpec.Text.Numerals
import ImageSpec.Yaml.Number

namespace ImageSpec.Yaml

/-!
# Writing YAML

Sequences and mappings are written in block style, two columns deeper for each level.  How a text is
written depends on what it holds: without quotes if it can be read back so, as a block of lines if it
has line feeds, and else between single quotes, or between double quotes if nothing else will do.
-/

/-! ### What a text holds -/

/-- The characters that end a line. -/
def endsLine (c : Char) : Bool :=
  c == '\n' || c == '\r' || c == '\u0085' || c == '\u2028' || c == '\u2029'

/-- Blanks, line ends and the end of a text. -/
def isEdge : Option Char → Bool
  | none => true
  | some c => c == ' ' || c == '\t' || c == '\x00' || endsLine c

/-- The characters that can be written as they are. -/
def isPrintable (c : Char) : Bool :=
  let n := c.toNat
  n == 0x0A || (0x20 ≤ n && n ≤ 0x7E) || (0xA0 ≤ n && n ≤ 0xD7FF)
    || (0xE000 ≤ n && n ≤ 0xFFFD && n != 0xFEFF) || 0x10000 ≤ n

/-- The characters that a text without quotes cannot start with. -/
def isReserved (c : Char) : Bool := "#,[]\x7b\x7d&*!|>'\"%@`".toList.contains c

/-- Two neighbours in a text. -/
def hasPair (p q : Char → Bool) (cs : List Char) : Bool :=
  (cs.zip cs.tail).any fun (a, b) => p a && q b

/-- Whether a colon in front of a blank, or a number sign behind one, stands in a text. -/
def hasMark : List Char → Bool
  | [] => false
  | c :: rest =>
    (c == ':' && isEdge rest.head?) || (isEdge (some c) && rest.head? == some '#') || hasMark rest

/-- Whether a text holds what would be read as layout. -/
def hasLayout (cs : List Char) : Bool :=
  cs.take 3 == ['-', '-', '-'] || cs.take 3 == ['.', '.', '.']
    || cs.head?.any isReserved
    || (cs.head?.any (fun c => c == '?' || c == '-') && isEdge cs.tail.head?)
    || hasMark cs

/-- Whether nothing but quotes with escapes will do: there is a character that cannot be written as
    it is, or a space in front of a line end. -/
def needsEscapes (cs : List Char) : Bool :=
  cs.any (fun c => !isPrintable c) || hasPair (· == ' ') endsLine cs

/-- Whether a text can be written without quotes. -/
def plainAllowed (cs : List Char) : Bool :=
  !needsEscapes cs && !cs.any endsLine && !hasLayout cs
    && cs.head? != some ' ' && cs.getLast? != some ' '

/-- Whether a text can be written between single quotes. -/
def singleAllowed (cs : List Char) : Bool :=
  !needsEscapes cs && !hasPair endsLine (· == ' ') cs

/-- Whether a text can be written as a block of lines. -/
def blockAllowed (cs : List Char) : Bool := !needsEscapes cs && cs.getLast? != some ' '

/-! ### Styles -/

/-- How a text is written. -/
inductive Style where
  | plain
  | single
  | double
  | literal
deriving DecidableEq, Repr

/-- The style for a text. -/
def styleOf (s : String) : Style :=
  let cs := s.toList
  if cs.contains '\n' then if blockAllowed cs then .literal else .double
  else if !isAmbiguous s && plainAllowed cs then .plain
  else if singleAllowed cs then .single
  else .double

/-- Lines that are indented: after each line end, and at the start if asked for, spaces stand before
    the next character. -/
def indented (indent : Nat) (atStart : Bool) : List Char → List Char
  | [] => []
  | c :: rest =>
    if endsLine c then c :: indented indent true rest
    else (if atStart then List.replicate indent ' ' else []) ++ c :: indented indent false rest

/-- A text between single quotes; quotes in it are doubled. -/
def singleText (indent : Nat) (cs : List Char) : List Char :=
  let body := indented indent false (cs.flatMap fun c => if c = '\'' then ['\'', '\''] else [c])
  let closing := if cs.getLast?.any endsLine then List.replicate indent ' ' else []
  ['\''] ++ body ++ closing ++ ['\'']

/-- A number in hexadecimal in upper case. -/
def upperHex (width n : Nat) : List Char := (Text.hexPadded width n).map Char.toUpper

/-- A character between double quotes. -/
def escape (c : Char) : List Char :=
  match c with
  | '\x00' => ['\\', '0']
  | '\x07' => ['\\', 'a']
  | '\x08' => ['\\', 'b']
  | '\t' => ['\\', 't']
  | '\n' => ['\\', 'n']
  | '\x0b' => ['\\', 'v']
  | '\x0c' => ['\\', 'f']
  | '\r' => ['\\', 'r']
  | '\x1b' => ['\\', 'e']
  | '"' => ['\\', '"']
  | '\\' => ['\\', '\\']
  | '\u0085' => ['\\', 'N']
  | '\u2028' => ['\\', 'L']
  | '\u2029' => ['\\', 'P']
  | _ =>
    if isPrintable c then [c]
    else if c.toNat ≤ 0xFF then ['\\', 'x'] ++ upperHex 2 c.toNat
    else if c.toNat ≤ 0xFFFF then ['\\', 'u'] ++ upperHex 4 c.toNat
    else ['\\', 'U'] ++ upperHex 8 c.toNat

/-- A text between double quotes. -/
def doubleText (cs : List Char) : List Char := ['"'] ++ cs.flatMap escape ++ ['"']

/-- What stands behind the mark of a block: its depth if the text starts with a space or an empty
    line, and what is done with the line ends at its end. -/
def blockHeader (cs : List Char) : List Char :=
  let depth := if cs.head?.any (fun c => c == ' ' || endsLine c) then ['2'] else []
  let chomping := match cs.reverse with
    | [] => ['-']
    | [c] => if endsLine c then ['+'] else ['-']
    | c :: d :: _ => if !endsLine c then ['-'] else if endsLine d then ['+'] else []
  depth ++ chomping

/-- A text as a block of lines. -/
def literalText (indent : Nat) (cs : List Char) : List Char :=
  ['|'] ++ blockHeader cs ++ ['\n'] ++ indented indent true cs

/-- A text in its style, inside a collection whose entries are indented by `indent`. -/
def scalarText (indent : Nat) (s : String) : List Char :=
  match styleOf s with
  | .plain => s.toList
  | .single => singleText (indent + 2) s.toList
  | .double => doubleText s.toList
  | .literal => literalText (indent + 2) s.toList

/-! ### Lines -/

/-- Ends a line, unless it has ended already. -/
def endLine (cs : List Char) : List Char := if cs.getLast?.any endsLine then cs else cs ++ ['\n']

/-- Whether a key stands on one line with its value: it has one line and at most 128 bytes. -/
def isSimpleKey (key : String) : Bool := !key.toList.any endsLine && key.utf8ByteSize ≤ 128

/-- A key and its text, without the indentation of its first line. -/
def pairText (indent : Nat) (key value : String) : List Char :=
  if isSimpleKey key then
    endLine (scalarText indent key ++ [':', ' '] ++ scalarText indent value)
  else
    endLine (['?', ' '] ++ scalarText indent key) ++ List.replicate indent ' '
      ++ endLine ([':', ' '] ++ scalarText indent value)

end ImageSpec.Yaml

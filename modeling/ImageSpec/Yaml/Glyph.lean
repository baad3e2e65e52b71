namespace ImageSpec.Yaml

/-!
# Characters on lines

The layout of a YAML text has a meaning, so a reader looks at characters together with where they
stand.  `glyphs` places the characters of a text; the different line breaks become line feeds, except
the line and paragraph separators, which stay as they are.
-/

/-- A character with its line, its column and its number in the text, all counted from 0. -/
structure Glyph where
  char : Char
  line : Nat
  column : Nat
  index : Nat
deriving Repr

/-- The separators that end a line and stay in a text as they are. -/
def isSeparator (c : Char) : Bool := c == '\u2028' || c == '\u2029'

/-- The characters that end a line of a placed text. -/
def isBreak (c : Char) : Bool := c == '\n' || isSeparator c

/-- The blanks within a line. -/
def isSpace (c : Char) : Bool := c == ' ' || c == '\t'

/-- Blanks and line breaks. -/
def isGap (c : Char) : Bool := isSpace c || isBreak c

/-- The characters that a text may hold at all. -/
def isAllowed (c : Char) : Bool :=
  let n := c.toNat
  n == 0x09 || n == 0x0A || n == 0x0D || (0x20 ≤ n && n ≤ 0x7E) || n == 0x85
    || (0xA0 ≤ n && n ≤ 0xD7FF) || (0xE000 ≤ n && n ≤ 0xFFFD) || 0x10000 ≤ n

/-- Places the characters of a text that starts at a given place. -/
def glyphsFrom (line column index : Nat) : List Char → List Glyph
  | [] => []
  | '\r' :: '\n' :: rest => ⟨'\n', line, column, index⟩ :: glyphsFrom (line + 1) 0 (index + 2) rest
  | c :: rest =>
    if c = '\r' ∨ c = '\u0085' then
      ⟨'\n', line, column, index⟩ :: glyphsFrom (line + 1) 0 (index + 1) rest
    else if isBreak c then
      ⟨c, line, column, index⟩ :: glyphsFrom (line + 1) 0 (index + 1) rest
    else ⟨c, line, column, index⟩ :: glyphsFrom line (column + 1) (index + 1) rest

/-- The characters of a text with their places, if all of them are allowed.  A byte-order mark at the
    start does not count. -/
def glyphs? (cs : List Char) : Option (List Glyph) :=
  let body := match cs with
    | '\ufeff' :: rest => rest
    | _ => cs
  if body.all isAllowed then some (glyphsFrom 0 0 0 body) else none

/-- Whether the first character of a text is a given one. -/
def startsWith (c : Char) : List Glyph → Bool
  | g :: _ => g.char == c
  | [] => false

/-- Whether a text is at its end or starts with a blank or a line break. -/
def atGap : List Glyph → Bool
  | g :: _ => isGap g.char
  | [] => true

/-- Whether a text starts with a mark between documents: `---` or `...` alone at the start of a
    line. -/
def atDocumentMark : List Glyph → Bool
  | a :: b :: c :: rest =>
    a.column == 0 && (a.char == '-' || a.char == '.') && b.char == a.char && c.char == a.char
      && atGap rest
  | _ => false

end ImageSpec.Yaml

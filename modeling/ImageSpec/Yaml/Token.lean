import ImageSpec.Yaml.Scalar

namespace ImageSpec.Yaml

/-!
# From lines to tokens

The scanner turns the layout of a text into tokens.  A collection in block style starts where the
indentation grows and ends where it shrinks again.  A key is only known to be one when the colon
behind it comes: until then the scanner remembers where it stood, and puts the tokens that open the
mapping and the key in front of it afterwards.
-/

/-- A token of YAML. -/
inductive Token where
  | documentStart
  | documentEnd
  | blockSequence
  | blockMapping
  | blockEnd
  | flowSequence
  | flowSequenceEnd
  | flowMapping
  | flowMappingEnd
  | blockEntry
  | flowEntry
  | key
  | value
  | scalar (text : String) (plain : Bool)
deriving DecidableEq, Repr

/-- A place at which a key may have started: the number of its token and its place in the text.  A
    required key is one that nothing else could be. -/
structure PossibleKey where
  number : Nat
  required : Bool
  line : Nat
  column : Nat
  index : Nat

/-- What a scanner knows: the indentation of the open block collections, the innermost first, the
    number of open flow collections, whether a key may start here, the possible keys of all flow
    levels, the innermost first, and the tokens so far. -/
structure Scanner where
  indent : Int := -1
  indents : List Int := []
  flow : Nat := 0
  keyAllowed : Bool := true
  current : Option PossibleKey := none
  outer : List (Option PossibleKey) := []
  tokens : Array Token := #[]

namespace Scanner

/-- Adds a token at the end. -/
def emit (s : Scanner) (t : Token) : Scanner := { s with tokens := s.tokens.push t }

/-- Puts a token in front of the token with a number. -/
def insert (s : Scanner) (number : Nat) (t : Token) : Scanner :=
  { s with tokens := s.tokens.insertIdxIfInBounds number t }

/-! ### Indentation -/

/-- Closes the block collections that are indented deeper than a column. -/
def close (column : Int) (indent : Int) (indents : List Int) (tokens : Array Token) :
    Int × List Int × Array Token :=
  match indents with
  | [] => (indent, [], tokens)
  | outer :: rest =>
    if column < indent then close column outer rest (tokens.push .blockEnd)
    else (indent, outer :: rest, tokens)

/-- Closes the block collections that are indented deeper than a column; in a flow collection the
    indentation does not count. -/
def unroll (s : Scanner) (column : Int) : Scanner :=
  if s.flow = 0 then
    let (indent, indents, tokens) := close column s.indent s.indents s.tokens
    { s with indent, indents, tokens }
  else s

/-- Opens a block collection if a column is indented deeper than the innermost one. -/
def roll (s : Scanner) (column : Nat) (number : Nat) (t : Token) : Scanner :=
  if s.flow = 0 ∧ s.indent < column then
    { s.insert number t with indent := column, indents := s.indent :: s.indents }
  else s

/-! ### Keys -/

/-- Gives up a possible key; a required one cannot be given up. -/
def dropKey (s : Scanner) : Option Scanner :=
  if s.current.any (·.required) then none else some { s with current := none }

/-- Notes that a key may start at a glyph. -/
def saveKey (s : Scanner) (g : Glyph) : Option Scanner :=
  if s.keyAllowed then do
    let required := s.flow = 0 ∧ s.indent = g.column
    let s ← s.dropKey
    return { s with current := some ⟨s.tokens.size, required, g.line, g.column, g.index⟩ }
  else some s

/-- Whether a possible key is too far away from a glyph: on another line, or more than 1024
    characters before it. -/
def isStale (g : Glyph) (k : PossibleKey) : Bool := k.line < g.line || k.index + 1024 < g.index

/-- Forgets a possible key that is too far away; a required one is a fault. -/
def refresh (g : Glyph) : Option PossibleKey → Option (Option PossibleKey)
  | none => some none
  | some k =>
    if isStale g k then if k.required then none else some none
    else some (some k)

/-- Forgets all possible keys that are too far away. -/
def refreshKeys (s : Scanner) (g : Glyph) : Option Scanner := do
  let current ← refresh g s.current
  let outer ← s.outer.mapM (refresh g)
  return { s with current, outer }

/-! ### Indicators -/

/-- Reads a mark between documents. -/
def documentMark (s : Scanner) (t : Token) : Option Scanner := do
  let s ← (s.unroll (-1)).dropKey
  return { s with keyAllowed := false }.emit t

/-- Opens a flow collection. -/
def openFlow (s : Scanner) (g : Glyph) (t : Token) : Option Scanner := do
  let s ← s.saveKey g
  let s := { s with
    flow := s.flow + 1
    keyAllowed := true
    current := none
    outer := s.current :: s.outer }
  return s.emit t

/-- Closes a flow collection. -/
def closeFlow (s : Scanner) (t : Token) : Option Scanner := do
  let s ← s.dropKey
  let s := match s.outer with
    | current :: outer => { s with flow := s.flow - 1, current, outer }
    | [] => s
  return { s with keyAllowed := false }.emit t

/-- Reads a comma in a flow collection. -/
def flowComma (s : Scanner) : Option Scanner := do
  let s ← s.dropKey
  return { s with keyAllowed := true }.emit .flowEntry

/-- Reads a dash in front of an entry. -/
def dash (s : Scanner) (g : Glyph) : Option Scanner := do
  if s.flow = 0 ∧ s.keyAllowed = false then none
  else
    let s ← (s.roll g.column s.tokens.size .blockSequence).dropKey
    return { s with keyAllowed := true }.emit .blockEntry

/-- Reads a question mark in front of a key. -/
def question (s : Scanner) (g : Glyph) : Option Scanner := do
  if s.flow = 0 ∧ s.keyAllowed = false then none
  else
    let s ← (s.roll g.column s.tokens.size .blockMapping).dropKey
    return { s with keyAllowed := s.flow = 0 }.emit .key

/-- Reads a colon in front of a value. -/
def colon (s : Scanner) (g : Glyph) : Option Scanner :=
  match s.current with
  | some k =>
    let s := (s.insert k.number .key).roll k.column k.number .blockMapping
    some ({ s with current := none, keyAllowed := false }.emit .value)
  | none =>
    if s.flow = 0 ∧ s.keyAllowed = false then none
    else
      let s := s.roll g.column s.tokens.size .blockMapping
      some ({ s with keyAllowed := s.flow = 0 }.emit .value)

/-! ### Tokens -/

/-- A scanner with one more scalar, and the text behind it. -/
def withScalar (s : Scanner) (plain : Bool) (read : List Char × List Glyph) :
    Scanner × List Glyph :=
  (s.emit (.scalar (String.ofList read.1) plain), read.2)

/-- Reads a scalar between quotes. -/
def quoted (s : Scanner) (g : Glyph) (read : Option (List Char × List Glyph)) :
    Option (Scanner × List Glyph) := do
  let s ← s.saveKey g
  return { s with keyAllowed := false }.withScalar false (← read)

/-- Reads a block of lines. -/
def block (s : Scanner) (literal : Bool) (rest : List Glyph) : Option (Scanner × List Glyph) := do
  let s ← s.dropKey
  return { s with keyAllowed := true }.withScalar false (← blockOf literal s.indent rest)

/-- Reads a scalar without quotes that starts at a glyph. -/
def plain (s : Scanner) (g : Glyph) (rest : List Glyph) : Option (Scanner × List Glyph) := do
  let s ← s.saveKey g
  let p ← plainFrom (s.flow != 0) (s.indent + 1) (g :: rest)
  return { s with keyAllowed := p.broken }.withScalar true (p.text, p.rest)

/-- The characters that start no scalar without quotes. -/
def isIndicator (c : Char) : Bool := "-?:,[]\x7b\x7d#&*!|>'\"%@`".toList.contains c

/-- Reads one token that starts at a glyph. -/
def token (s : Scanner) (g : Glyph) (rest : List Glyph) : Option (Scanner × List Glyph) :=
  let c := g.char
  let inFlow := s.flow != 0
  if atDocumentMark (g :: rest) then
    (s.documentMark (if c = '-' then .documentStart else .documentEnd)).map (·, rest.drop 2)
  else if c = '[' then (s.openFlow g .flowSequence).map (·, rest)
  else if c = '\x7b' then (s.openFlow g .flowMapping).map (·, rest)
  else if c = ']' then (s.closeFlow .flowSequenceEnd).map (·, rest)
  else if c = '\x7d' then (s.closeFlow .flowMappingEnd).map (·, rest)
  else if c = ',' then s.flowComma.map (·, rest)
  else if c = '-' ∧ atGap rest then (s.dash g).map (·, rest)
  else if c = '?' ∧ (inFlow ∨ atGap rest) then (s.question g).map (·, rest)
  else if c = ':' ∧ (inFlow ∨ atGap rest) then (s.colon g).map (·, rest)
  else if c = '|' ∧ ¬ inFlow then s.block true rest
  else if c = '>' ∧ ¬ inFlow then s.block false rest
  else if c = '\'' then s.quoted g (singleQuoted rest)
  else if c = '"' then s.quoted g (doubleQuoted rest)
  else if !(isIndicator c || isGap c) || (c = '-' && !(rest.head?.any fun n => isSpace n.char))
      || (!inFlow && (c = '?' || c = ':')) then
    s.plain g rest
  else none

/-! ### The whole text -/

/-- Leaves out blanks, comments and line breaks up to the next token.  A tab may not stand where a
    key may start.  The second part says whether a key may start now. -/
def skip (inFlow keyAllowed : Bool) (gs : List Glyph) : Bool × List Glyph :=
  match gs with
  | [] => (keyAllowed, [])
  | g :: rest =>
    if g.char = ' ' ∨ (g.char = '\t' ∧ (inFlow ∨ keyAllowed = false)) then
      skip inFlow keyAllowed rest
    else if g.char = '#' then skip inFlow keyAllowed (rest.dropWhile fun g => !isBreak g.char)
    else if isBreak g.char then skip inFlow (keyAllowed || !inFlow) rest
    else (keyAllowed, g :: rest)
termination_by gs.length
decreasing_by
  · simp
  · have := (List.dropWhile_suffix (fun g : Glyph => !isBreak g.char) (l := rest)).length_le
    simp only [List.length_cons]
    omega
  · simp

/-- Reads the tokens of a text. -/
def scan (s : Scanner) (gs : List Glyph) : Option (List Token) :=
  match skip (s.flow != 0) s.keyAllowed gs with
  | (keyAllowed, []) => do
    let s ← ({ s with keyAllowed }.unroll (-1)).dropKey
    return s.tokens.toList
  | (keyAllowed, g :: rest) =>
    match ({ s with keyAllowed }.refreshKeys g).bind fun s => (s.unroll g.column).token g rest with
    | none => none
    | some (s, after) => if _h : after.length < gs.length then scan s after else none
termination_by gs.length

end Scanner

/-- The tokens of a text. -/
def tokens? (cs : List Char) : Option (List Token) := do
  Scanner.scan {} (← glyphs? cs)

end ImageSpec.Yaml

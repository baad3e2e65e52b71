import ImageSpec.Text.Numerals
import ImageSpec.Yaml.Glyph

namespace ImageSpec.Yaml

/-!
# Reading scalars

A scalar is written without quotes, between quotes, or as a block of lines.  Line breaks inside a
scalar without quotes or between quotes are folded: one break is a space, and of several breaks the
first is dropped.  Each reader gives the text of the scalar and what follows it.
-/

/-! ### Folding -/

/-- What a run of blanks and line breaks inside a scalar stands for. -/
def fold (run : List Glyph) : List Char :=
  match (run.filter fun g => isBreak g.char).map Glyph.char with
  | [] => run.map Glyph.char
  | '\n' :: [] => [' ']
  | '\n' :: breaks => breaks
  | breaks => breaks

/-- The blanks and line breaks at the start of a text, and the rest. -/
def gap (gs : List Glyph) : List Glyph × List Glyph :=
  (gs.takeWhile fun g => isGap g.char, gs.dropWhile fun g => isGap g.char)

/-- What is left behind a gap is shorter than a text that starts with one. -/
theorem length_gap_lt {g : Glyph} {rest : List Glyph} (h : isGap g.char = true) :
    (gap (g :: rest)).2.length < (g :: rest).length := by
  have := (List.dropWhile_suffix (fun g : Glyph => isGap g.char) (l := rest)).length_le
  simp only [gap, List.dropWhile_cons, h, if_true, List.length_cons]
  omega

/-! ### Quotes -/

/-- Reads a scalar from behind its opening single quote.  A quote in it is written twice. -/
def singleQuoted (gs : List Glyph) : Option (List Char × List Glyph) :=
  match gs with
  | [] => none
  | g :: rest =>
    if _h : isGap g.char then
      let after := (gap (g :: rest)).2
      if atDocumentMark after then none
      else (singleQuoted after).map fun (text, rest') => (fold (gap (g :: rest)).1 ++ text, rest')
    else if g.char = '\'' then
      match rest with
      | next :: rest' =>
        if next.char = '\'' then (singleQuoted rest').map fun (text, last) => ('\'' :: text, last)
        else some ([], rest)
      | [] => some ([], [])
    else (singleQuoted rest).map fun (text, rest') => (g.char :: text, rest')
termination_by gs.length
decreasing_by
  · exact length_gap_lt _h
  · simp only [List.length_cons]
    omega
  · simp

/-- The character that a backslash and another character stand for. -/
def unescape? (c : Char) : Option Char :=
  match c with
  | '0' => some '\x00'
  | 'a' => some '\x07'
  | 'b' => some '\x08'
  | 't' => some '\t'
  | '\t' => some '\t'
  | 'n' => some '\n'
  | 'v' => some '\x0b'
  | 'f' => some '\x0c'
  | 'r' => some '\r'
  | 'e' => some '\x1b'
  | ' ' => some ' '
  | '"' => some '"'
  | '/' => some '/'
  | '\\' => some '\\'
  | 'N' => some '\u0085'
  | '_' => some '\u00a0'
  | 'L' => some '\u2028'
  | 'P' => some '\u2029'
  | _ => none

/-- The number of hexadecimal digits that follow a backslash and a letter. -/
def codeWidth? (c : Char) : Option Nat :=
  match c with
  | 'x' => some 2
  | 'u' => some 4
  | 'U' => some 8
  | _ => none

/-- The character that hexadecimal digits stand for. -/
def charOfCode? (digits : List Glyph) : Option Char := do
  let values ← digits.mapM fun g => Text.hexValue? g.char
  let code := values.foldl (fun n d => 16 * n + d) 0
  if h : code.isValidChar then some (Char.ofNatAux code h) else none

/-- Reads an escape from behind its backslash. -/
def escapeOf : List Glyph → Option (Char × List Glyph)
  | [] => none
  | g :: rest =>
    match codeWidth? g.char with
    | some width =>
      if width ≤ rest.length then
        (charOfCode? (rest.take width)).map (·, rest.drop width)
      else none
    | none => (unescape? g.char).map (·, rest)

/-- What is left behind an escape is shorter. -/
theorem length_of_escapeOf {gs rest : List Glyph} {c : Char} (h : escapeOf gs = some (c, rest)) :
    rest.length < gs.length := by
  unfold escapeOf at h
  split at h
  · cases h
  · split at h
    · split at h
      · obtain ⟨_, _, heq⟩ := Option.map_eq_some_iff.mp h
        cases heq
        simp only [List.length_drop, List.length_cons]
        omega
      · cases h
    · obtain ⟨_, _, heq⟩ := Option.map_eq_some_iff.mp h
      cases heq
      simp

/-- Reads a scalar from behind its opening double quote.  A backslash at the end of a line joins the
    next line to it. -/
def doubleQuoted (gs : List Glyph) : Option (List Char × List Glyph) :=
  match gs with
  | [] => none
  | g :: rest =>
    if _h : isGap g.char then
      let after := (gap (g :: rest)).2
      if atDocumentMark after then none
      else (doubleQuoted after).map fun (text, rest') => (fold (gap (g :: rest)).1 ++ text, rest')
    else if g.char = '"' then some ([], rest)
    else if g.char = '\\' then
      match rest with
      | [] => none
      | next :: rest' =>
        if _hb : isBreak next.char then
          let breaks := (gap (next :: rest')).1.tail.filter fun g => isBreak g.char
          let after := (gap (next :: rest')).2
          if atDocumentMark after then none
          else (doubleQuoted after).map fun (text, last) => (breaks.map Glyph.char ++ text, last)
        else
          match _he : escapeOf (next :: rest') with
          | none => none
          | some (c, after) => (doubleQuoted after).map fun (text, last) => (c :: text, last)
    else (doubleQuoted rest).map fun (text, rest') => (g.char :: text, rest')
termination_by gs.length
decreasing_by
  · exact length_gap_lt _h
  · have : (gap (next :: rest')).2.length < (next :: rest').length :=
      length_gap_lt (by simp [isGap, _hb])
    simp only [List.length_cons] at *
    omega
  · have := length_of_escapeOf _he
    simp only [List.length_cons] at *
    omega
  · simp

/-! ### Scalars without quotes -/

/-- The characters that end a scalar in a flow collection. -/
def isFlowIndicator (c : Char) : Bool :=
  c == ',' || c == '[' || c == ']' || c == '\x7b' || c == '\x7d'

/-- Whether a tab stands where only spaces may indent a line. -/
def hasBadTab (indent : Int) (run : List Glyph) : Bool :=
  (run.dropWhile fun g => !isBreak g.char).any fun g => g.char == '\t' && g.column < indent

/-- A scalar without quotes: its text, whether the line breaks behind it are read too, and what
    follows. -/
structure Plain where
  text : List Char
  broken : Bool
  rest : List Glyph

/-- Reads on in a scalar without quotes.  Its lines are indented by at least `indent`, except in a
    flow collection. -/
def plainFrom (flow : Bool) (indent : Int) (gs : List Glyph) : Option Plain :=
  match gs with
  | [] => some ⟨[], false, []⟩
  | g :: rest =>
    if _h : isGap g.char then
      let run := (gap (g :: rest)).1
      let after := (gap (g :: rest)).2
      let broken := run.any fun g => isBreak g.char
      if hasBadTab indent run then none
      else if startsWith '#' after || atDocumentMark after
          || (!flow && after.head?.any fun g => g.column < indent) then
        some ⟨[], broken, after⟩
      else
        (plainFrom flow indent after).map fun p =>
          if p.text.isEmpty then { p with broken := broken || p.broken }
          else { p with text := fold run ++ p.text }
    else if g.char = ':' ∧ flow ∧ rest.head?.any (fun n => isFlowIndicator n.char || n.char == '?') then
      none
    else if (g.char = ':' ∧ atGap rest) ∨ (flow ∧ isFlowIndicator g.char) then
      some ⟨[], false, g :: rest⟩
    else (plainFrom flow indent rest).map fun p => { p with text := g.char :: p.text }
termination_by gs.length
decreasing_by
  · exact length_gap_lt _h
  · simp

/-! ### Blocks -/

/-- What is done with the line breaks at the end of a block: all are dropped, one is kept, or all
    are kept. -/
inductive Chomping where
  | strip
  | clip
  | keep
deriving DecidableEq, Repr

/-- Reads the sign for the line breaks at the end. -/
def chompingOf : List Glyph → Option Chomping × List Glyph
  | g :: rest =>
    if g.char = '+' then (some .keep, rest)
    else if g.char = '-' then (some .strip, rest)
    else (none, g :: rest)
  | [] => (none, [])

/-- Reads the depth of a block, a digit from 1 to 9; a zero is a fault. -/
def depthOf : List Glyph → Option (Option Nat × List Glyph)
  | g :: rest =>
    if g.char.isDigit then
      if g.char = '0' then none else some (some (g.char.toNat - '0'.toNat), rest)
    else some (none, g :: rest)
  | [] => some (none, [])

/-- Reads what may stand behind the mark of a block: a sign and a depth, in either order. -/
def headerOf (gs : List Glyph) : Option (Chomping × Option Nat × List Glyph) :=
  match chompingOf gs with
  | (some chomping, rest) => (depthOf rest).map fun (depth, rest) => (chomping, depth, rest)
  | (none, _) =>
    match depthOf gs with
    | none => none
    | some (none, rest) => some (.clip, none, rest)
    | some (some depth, rest) =>
      match chompingOf rest with
      | (some chomping, rest) => some (chomping, some depth, rest)
      | (none, rest) => some (.clip, some depth, rest)

/-- Leaves out the rest of a line that holds blanks and a comment at most, with its line break. -/
def restOfLine (gs : List Glyph) : Option (List Glyph) :=
  let body := gs.dropWhile fun g => isSpace g.char
  let body := if startsWith '#' body then body.dropWhile fun g => !isBreak g.char else body
  match body with
  | [] => some []
  | g :: rest => if isBreak g.char then some rest else none

/-- Leaves out empty lines and the indentation of the next line: the line breaks, the deepest column
    seen, and what follows.  A depth of 0 stands for any. -/
def emptyLines (depth : Nat) : List Glyph → Option (List Char × Nat × List Glyph)
  | [] => some ([], 0, [])
  | g :: rest =>
    if g.char = ' ' ∧ (depth = 0 ∨ g.column < depth) then emptyLines depth rest
    else if g.char = '\t' ∧ (depth = 0 ∨ g.column < depth) then none
    else if isBreak g.char then
      (emptyLines depth rest).map fun (breaks, deepest, rest') =>
        (g.char :: breaks, max g.column deepest, rest')
    else some ([], g.column, g :: rest)

/-- The text between two lines of a block: the break that ended the first, and the breaks of the
    empty lines behind it.  In a folded block one break between two lines that start with no blank
    is a space. -/
def between (literal : Bool) (ended empty : List Char) (blank : Bool) : List Char :=
  if !literal && ended == ['\n'] && !blank then
    if empty.isEmpty then [' '] else empty
  else ended ++ empty

/-- Reads the lines of a block that is indented by `depth`.  `ended` and `empty` are the breaks since
    the last line, and `blank` says whether that line started with a blank. -/
def blockLines (literal : Bool) (chomping : Chomping) (depth : Nat) (ended empty : List Char)
    (blank : Bool) (gs : List Glyph) : Option (List Char × List Glyph) :=
  let finish := match chomping with
    | .strip => []
    | .clip => ended
    | .keep => ended ++ empty
  match gs with
  | [] => some (finish, [])
  | g :: rest =>
    if g.column = depth then
      let line := (g :: rest).takeWhile fun g => !isBreak g.char
      let after := (g :: rest).dropWhile fun g => !isBreak g.char
      match emptyLines depth after.tail with
      | none => none
      | some (breaks, _, next) =>
        if _h : next.length < (g :: rest).length then
          (blockLines literal chomping depth ((after.take 1).map Glyph.char) breaks
            (isSpace g.char) next).map fun (text, last) =>
            (between literal ended empty (blank || isSpace g.char) ++ line.map Glyph.char ++ text, last)
        else none
    else some (finish, g :: rest)
termination_by gs.length
decreasing_by exact _h

/-- Reads a block from behind its mark, inside a collection that is indented by `indent`. -/
def blockOf (literal : Bool) (indent : Int) (gs : List Glyph) : Option (List Char × List Glyph) := do
  let (chomping, given, rest) ← headerOf gs
  let rest ← restOfLine rest
  let fixed := match given with
    | some d => (max indent 0).toNat + d
    | none => 0
  let (breaks, deepest, rest) ← emptyLines fixed rest
  let depth := if fixed = 0 then max (max deepest (indent + 1).toNat) 1 else fixed
  blockLines literal chomping depth [] breaks false rest

end ImageSpec.Yaml

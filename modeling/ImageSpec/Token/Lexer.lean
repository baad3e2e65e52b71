import ImageSpec.SyntaxError
import ImageSpec.Text.Numerals

namespace ImageSpec.Lexer

/-!
# From text to tokens

A text is read as trivia, a token, trivia, a token and so on.  Trivia are spaces, tabs, line breaks
and comments that open with `#` or `//` and run to the end of the line.  `triviaOf` and `lexeme`
split the text in two and lose nothing of it, so that a token's position is the position just past
the text before it.  `tokenize` reads the whole text.  It stops where neither trivia nor a token
start, and `Fault.ofFirst` says what is wrong there.
-/

/-! ### Trivia -/

/-- The blanks that may stand between tokens. -/
def isLayout (c : Char) : Bool := c == ' ' || c == '\t' || c == '\r' || c == '\n'

/-- Splits off the rest of a comment up to the line break that ends it.  A carriage return ends a
    line only before a line feed, and a comment that meets another one first is none. -/
def commentOf : List Char → Option (List Char × List Char)
  | [] => some ([], [])
  | '\n' :: rest => some ([], '\n' :: rest)
  | '\r' :: '\n' :: rest => some ([], '\r' :: '\n' :: rest)
  | '\r' :: _ => none
  | c :: rest =>
    match commentOf rest with
    | some (comment, after) => some (c :: comment, after)
    | none => none

/-- What is split off a comment and what is left make up the text. -/
theorem commentOf_append {cs comment after : List Char} (h : commentOf cs = some (comment, after)) :
    comment ++ after = cs := by
  fun_induction commentOf cs generalizing comment after with
  | case1 =>
    cases h
    rfl
  | case2 more =>
    cases h
    rfl
  | case3 more =>
    cases h
    rfl
  | case4 => cases h
  | case5 c more hfeed hpair hreturn comment' after' hmore ih =>
    cases h
    rw [List.cons_append, ih hmore]
  | case6 => cases h

/-- Splits one piece of trivia off: a blank or a comment. -/
def triviumOf : List Char → Option (List Char × List Char)
  | '#' :: rest => (commentOf rest).map fun (comment, after) => ('#' :: comment, after)
  | '/' :: '/' :: rest => (commentOf rest).map fun (comment, after) => ('/' :: '/' :: comment, after)
  | c :: rest => if isLayout c then some ([c], rest) else none
  | [] => none

/-- A piece of trivia is not empty, and it and what is left make up the text. -/
theorem triviumOf_append {cs gap after : List Char} (h : triviumOf cs = some (gap, after)) :
    gap ≠ [] ∧ gap ++ after = cs := by
  unfold triviumOf at h
  split at h
  · simp only [Option.map_eq_some_iff, Prod.mk.injEq] at h
    obtain ⟨⟨comment, r⟩, hc, rfl, rfl⟩ := h
    simp [commentOf_append hc]
  · simp only [Option.map_eq_some_iff, Prod.mk.injEq] at h
    obtain ⟨⟨comment, r⟩, hc, rfl, rfl⟩ := h
    simp [commentOf_append hc]
  · split at h <;> cases h
    exact ⟨List.cons_ne_nil _ _, rfl⟩
  · cases h

/-- Splits all leading trivia off. -/
def triviaOf (cs : List Char) : List Char × List Char :=
  match _h : triviumOf cs with
  | none => ([], cs)
  | some (gap, after) =>
    let (gaps, rest) := triviaOf after
    (gap ++ gaps, rest)
termination_by cs.length
decreasing_by
  have := triviumOf_append _h
  have hlen := congrArg List.length this.2
  have := List.length_pos_iff.mpr this.1
  simp only [List.length_append] at hlen
  omega

/-- The trivia split off and what is left make up the text. -/
theorem triviaOf_append (cs : List Char) : (triviaOf cs).1 ++ (triviaOf cs).2 = cs := by
  fun_induction triviaOf cs with
  | case1 => simp
  | case2 cs gap after h gaps rest hr ih =>
    have := (triviumOf_append h).2
    simp_all

/-! ### Lexemes -/

/-- A token as read: what it means, how it is written and what follows it. -/
structure Lexeme where
  token : Token
  written : List Char
  rest : List Char

/-- The characters that a backslash and `c` stand for in a string literal; a backslash before any
    other character stands for itself. -/
def unescape (c : Char) : List Char :=
  if c = 'n' then ['\n']
  else if c = 't' then ['\t']
  else if c = '\\' then ['\\']
  else if c = '"' then ['"']
  else ['\\', c]

/-- Reads a string literal from behind its opening quote: its value, the text up to and with its
    closing quote, and what follows.  A literal without a closing quote is none. -/
def literalOf : List Char → Option (List Char × List Char × List Char)
  | [] => none
  | '"' :: rest => some ([], ['"'], rest)
  | ['\\'] => none
  | '\\' :: c :: rest =>
    match literalOf rest with
    | some (value, written, after) => some (unescape c ++ value, '\\' :: c :: written, after)
    | none => none
  | c :: rest =>
    match literalOf rest with
    | some (value, written, after) => some (c :: value, c :: written, after)
    | none => none

/-- The characters that may start a word. -/
def isWordStart (c : Char) : Bool := c.isAlpha || c == '_'

/-- The characters that may follow in a word. -/
def isWordPart (c : Char) : Bool := c.isAlphanum || c == '_' || c == '-' || c == '.'

/-- Reads the token at the start of a text whose first character is `c`, if one starts there. -/
def lexeme (c : Char) (rest : List Char) : Option Lexeme :=
  if c = '"' then
    match literalOf rest with
    | some (value, written, after) => some ⟨.literal (String.ofList value), c :: written, after⟩
    | none => none
  else match Token.ofSymbol? c with
    | some symbol => some ⟨symbol, [c], rest⟩
    | none =>
      if c.isDigit then
        let digits := c :: rest.takeWhile Char.isDigit
        if Text.decimal digits ≤ Token.maxInteger then
          some ⟨.integer (Text.decimal digits), digits, rest.dropWhile Char.isDigit⟩
        else none
      else if isWordStart c then
        let name := c :: rest.takeWhile isWordPart
        some ⟨Token.ofWord (String.ofList name), name, rest.dropWhile isWordPart⟩
      else none

/-- What is read of a literal and what is left make up the text. -/
theorem literalOf_append {cs value written after : List Char}
    (h : literalOf cs = some (value, written, after)) : written ++ after = cs := by
  fun_induction literalOf cs generalizing value written after with
  | case1 => cases h
  | case2 more =>
    cases h
    rfl
  | case3 => cases h
  | case4 c more value' written' after' hmore ih =>
    cases h
    rw [List.cons_append, List.cons_append, ih hmore]
  | case5 => cases h
  | case6 c more hquote hlone hpair value' written' after' hmore ih =>
    cases h
    rw [List.cons_append, ih hmore]
  | case7 => cases h

/-- A token is written with at least one character, and it and what is left make up the text. -/
theorem lexeme_append {c : Char} {rest : List Char} {l : Lexeme} (h : lexeme c rest = some l) :
    l.written ≠ [] ∧ l.written ++ l.rest = c :: rest := by
  unfold lexeme at h
  split at h
  · split at h
    · rename_i hl
      cases h
      simp [literalOf_append hl]
    · cases h
  · split at h
    · cases h
      simp
    · split at h
      · dsimp only at h
        split at h
        · cases h
          simp
        · cases h
      · split at h
        · cases h
          simp
        · cases h

/-! ### Faults -/

/-- What keeps a text from starting with a token. -/
inductive Fault where
  | unclosedLiteral
  | largeInteger (digits : List Char)
  | stray (c : Char)

namespace Fault

/-- The fault of a text that starts with no token, by its first character `c`: a quote is not
    closed, and digits stand for a number that is too large. -/
def ofFirst (c : Char) (rest : List Char) : Fault :=
  if c = '"' then .unclosedLiteral
  else if c.isDigit then .largeInteger ((c :: rest).takeWhile Char.isDigit)
  else .stray c

/-- What a lexical fault says was expected. -/
def expected : Fault → Expectation
  | unclosedLiteral => .closingQuote
  | largeInteger _ => .smallInteger
  | stray _ => .token

/-- What a lexical fault says was found. -/
def found : Fault → Finding
  | unclosedLiteral => .endOfInput
  | largeInteger digits => .digits (String.ofList digits)
  | stray c => .character c

/-- The error for a lexical fault at a position. -/
def errorAt (fault : Fault) (p : Position) : SyntaxError := ⟨p, fault.expected, fault.found⟩

end Fault

/-! ### The whole text -/

/-- Reads the tokens of a text that starts at position `p`. -/
def tokensFrom (p : Position) (cs : List Char) : Except SyntaxError (List (Placed Token)) :=
  let gap := (triviaOf cs).1
  match _hrest : (triviaOf cs).2 with
  | [] => .ok []
  | c :: rest =>
    let here := p.advanceOver gap
    match _hlex : lexeme c rest with
    | none => .error ((Fault.ofFirst c rest).errorAt here)
    | some l =>
      match tokensFrom (here.advanceOver l.written) l.rest with
      | .error e => .error e
      | .ok tokens => .ok (⟨here, l.token⟩ :: tokens)
termination_by cs.length
decreasing_by
  have h₁ := congrArg List.length (triviaOf_append cs)
  have h₂ := lexeme_append _hlex
  have h₃ := congrArg List.length h₂.2
  have h₄ := List.length_pos_iff.mpr h₂.1
  simp only [List.length_append, _hrest, List.length_cons] at h₁ h₃
  omega

/-- Reads the tokens of a text, or reports its first lexical fault. -/
def tokenize (source : String) : Except SyntaxError (List (Placed Token)) :=
  tokensFrom .start source.toList

end ImageSpec.Lexer

import ImageSpec.Position

namespace ImageSpec

/-!
# Tokens of a specification

A specification is a sequence of words, string literals, integers and seven symbols; `step` and
`after` are the only reserved words.  The type says what a token means, not how it was written: a
string literal is its value, an integer its number.
-/

/-- A token of a specification. -/
inductive Token where
  | step
  | after
  | word (name : String)
  | literal (value : String)
  | integer (value : Nat)
  | openBrace
  | closeBrace
  | openBracket
  | closeBracket
  | equals
  | comma
  | semicolon
deriving DecidableEq, Repr

namespace Token

/-- The largest integer that a specification can hold. -/
def maxInteger : Nat := 9223372036854775807

/-- A token as messages name it. -/
def describe : Token → String
  | step => "keyword `step`"
  | after => "keyword `after`"
  | word name => "`" ++ name ++ "`"
  | literal _ => "string literal"
  | integer value => "integer `" ++ value.repr ++ "`"
  | openBrace => "`\x7b`"
  | closeBrace => "`\x7d`"
  | openBracket => "`[`"
  | closeBracket => "`]`"
  | equals => "`=`"
  | comma => "`,`"
  | semicolon => "`;`"

/-- The symbol that a character stands for. -/
def ofSymbol? (c : Char) : Option Token :=
  if c = '\x7b' then some openBrace
  else if c = '\x7d' then some closeBrace
  else if c = '[' then some openBracket
  else if c = ']' then some closeBracket
  else if c = '=' then some equals
  else if c = ',' then some comma
  else if c = ';' then some semicolon
  else none

/-- The token that a word stands for: one of the two reserved words, or the word itself. -/
def ofWord (name : String) : Token :=
  if name = "step" then step else if name = "after" then after else word name

end Token

end ImageSpec

import ImageSpec.Reference
import ImageSpec.Text.Quoted
import ImageSpec.Token

namespace ImageSpec

/-!
# Syntax errors

Reading a specification stops at the first fault.  The error says where it is, what would have been
right there (`Expectation`) and what stands there instead (`Finding`).
-/

/-- What a reader was looking for. -/
inductive Expectation where
  | utf8
  | token
  | closingQuote
  | smallInteger
  | exactly (t : Token)
  | word
  | literal
  | declaration
  | keyword
  | reference
  | entryKey
  | value
  | listSeparator
  | closerOf (t : Token)
deriving DecidableEq, Repr

/-- An expectation in words. -/
def Expectation.text : Expectation → String
  | .utf8 => "UTF-8 text"
  | .token => "a token"
  | .closingQuote => "closing `\"` for string literal"
  | .smallInteger => "an integer that fits in 64 bits"
  | .exactly t => t.describe
  | .word => "identifier"
  | .literal => "string literal"
  | .declaration => "a declaration"
  | .keyword => "a declaration keyword"
  | .reference => "a reference of the form name[:constraint]"
  | .entryKey => "entry key"
  | .value => "a string, integer, or list"
  | .listSeparator => "`,` or `]`"
  | .closerOf t => t.describe ++ " to close the group opened here"

/-- What a reader came upon. -/
inductive Finding where
  | endOfInput
  | byte (b : UInt8)
  | character (c : Char)
  | digits (written : String)
  | token (t : Token)
  | unknownKeyword (name : String)
  | badReference (written : String) (fault : Reference.Fault)
deriving DecidableEq, Repr

/-- A finding in words. -/
def Finding.text : Finding → String
  | .endOfInput => "end of input"
  | .byte b => "invalid byte 0x" ++ String.ofList (Text.hexPadded 2 b.toNat)
  | .character c => "unexpected character " ++ Text.quoteChar c
  | .digits written => "`" ++ written ++ "`"
  | .token t => t.describe
  | .unknownKeyword name => "unknown keyword `" ++ name ++ "`"
  | .badReference written fault => "`" ++ written ++ "` (" ++ fault.reason ++ ")"

/-- The first fault of a specification's text. -/
structure SyntaxError where
  position : Position
  expected : Expectation
  found : Finding
deriving DecidableEq, Repr

/-- The message for a syntax error. -/
def SyntaxError.message (e : SyntaxError) : String :=
  "syntax error at " ++ e.position.text ++ ": expected " ++ e.expected.text
    ++ ", found " ++ e.found.text

end ImageSpec

import ImageSpec.Declaration.Reader
import ImageSpec.Text.Utf8
import ImageSpec.Token.Lexer

namespace ImageSpec

/-!
# Specifications

A specification says how an image is built.  It is read from a text, or from bytes that should be
UTF-8; the first fault is reported and nothing is read past it.
-/

/-- The declarations of a specification, in the order of its text. -/
abbrev Specification : Type := List Declaration

namespace Specification

/-- Reads a specification from its text. -/
def ofChars (source : List Char) : Except SyntaxError Specification :=
  match Lexer.tokensFrom .start source with
  | .error e => .error e
  | .ok tokens => Declaration.read (.after source) tokens

/-- Reads a specification from its bytes. -/
def ofBytes (source : ByteArray) : Except SyntaxError Specification :=
  match Text.decode source with
  | ⟨chars, none⟩ => ofChars chars
  | ⟨chars, some byte⟩ => .error ⟨.after chars, .utf8, .byte byte⟩

end Specification

end ImageSpec

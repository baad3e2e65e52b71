import ImageSpec.Digest.Sha256
import ImageSpec.KeyMap
import ImageSpec.Text.Numerals
import ImageSpec.Text.Segments

namespace ImageSpec

/-!
# Digests

A digest names a content: an algorithm and what the algorithm made of the content, as in
`sha256:9f86d0`.  Both parts are plain letters and digits, which the type guarantees, so a digest can
be written anywhere a word can.
-/

/-- The characters of an algorithm's name. -/
def isAlgorithmChar (c : Char) : Bool := c.isLower || c.isDigit

/-- The name of an algorithm and the encoded hash. -/
structure Digest where
  algorithm : String
  encoded : String
  algorithm_ne : algorithm.toList ≠ []
  encoded_ne : encoded.toList ≠ []
  algorithm_chars : algorithm.toList.all isAlgorithmChar = true
  encoded_chars : encoded.toList.all Char.isAlphanum = true
deriving DecidableEq

namespace Digest

/-- Why a text is no digest. -/
inductive Fault where
  | badDigest (written : String)
  | badHex (written : String)
deriving DecidableEq, Repr

/-- The message for a text that is no digest. -/
def Fault.message : Fault → String
  | badDigest written => "invalid digest `" ++ written ++ "`: expected algorithm:hex"
  | badHex written => "invalid SHA-256 hex string: " ++ written

/-- A digest as it is written. -/
def text (d : Digest) : String := d.algorithm ++ ":" ++ d.encoded

/-- Reads a digest: what stands before and after the first `:`. -/
def parse (written : String) : Except Fault Digest :=
  match Text.cutAt ':' written.toList with
  | none => .error (.badDigest written)
  | some (algorithm, encoded) =>
    if h : (algorithm ≠ [] ∧ algorithm.all isAlgorithmChar = true)
        ∧ (encoded ≠ [] ∧ encoded.all Char.isAlphanum = true) then
      .ok {
        algorithm := String.ofList algorithm
        encoded := String.ofList encoded
        algorithm_ne := by simpa using h.1.1
        encoded_ne := by simpa using h.2.1
        algorithm_chars := by simpa using h.1.2
        encoded_chars := by simpa using h.2.2 }
    else .error (.badDigest written)

/-! ### SHA-256 -/

/-- The SHA-256 digest with these hexadecimal digits, of which there is at least one. -/
def ofNibbles (nibbles : List Nat) (h : nibbles ≠ []) : Digest where
  algorithm := "sha256"
  encoded := String.ofList (nibbles.map Text.hexDigit)
  algorithm_ne := by decide
  encoded_ne := by simpa using h
  algorithm_chars := by decide
  encoded_chars := by simp [List.all_map, Function.comp_def, Text.isAlphanum_hexDigit]

/-- Reads the 64 hexadecimal digits of a SHA-256 hash, in either case. -/
def ofHex (written : String) : Except Fault Digest :=
  match written.toList.mapM Text.hexValue? with
  | none => .error (.badHex written)
  | some nibbles =>
    if h : nibbles.length = 64 then
      .ok (ofNibbles nibbles (List.ne_nil_of_length_pos (by omega)))
    else .error (.badHex written)

/-- The two hexadecimal digits of each byte. -/
def nibbles (bytes : List UInt8) : List Nat :=
  bytes.flatMap fun b => [b.toNat / 16, b.toNat % 16]

/-- The SHA-256 digest of a content. -/
def ofBytes (content : List UInt8) : Digest :=
  ofNibbles (nibbles (Sha256.hash content))
    (by simp [nibbles, Sha256.hash, Sha256.wordBytes])

/-! ### Digests of definitions -/

/-- A field of a definition as it is hashed: its length in bytes, then its bytes. -/
def encodeField (field : String) : List UInt8 :=
  Sha256.lengthBytes field.utf8ByteSize ++ field.toUTF8.toList

/-- What is hashed of a definition that names no digest: its name, its version and its metadata. -/
def content (name version : String) (metadata : Metadata) : List UInt8 :=
  encodeField name ++ encodeField version
    ++ metadata.entries.flatMap fun (key, value) => encodeField key ++ encodeField value

/-- The digest of a definition that names none. -/
def ofContent (name version : String) (metadata : Metadata) : Digest :=
  ofBytes (content name version metadata)

end Digest

end ImageSpec

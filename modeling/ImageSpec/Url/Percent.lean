import ImageSpec.Text.Numerals

namespace ImageSpec.Url

/-!
# Percent-encoding

In a URL a character may be written as the bytes of its UTF-8 form, each as a percent sign and two
hexadecimal digits in upper case.  Which characters have to be written so depends on the part of the
URL; characters outside ASCII and control characters have to be everywhere.
-/

/-- A byte as a percent sign and two digits. -/
def percentByte (b : UInt8) : List Char := '%' :: (Text.hexPadded 2 b.toNat).map Char.toUpper

/-- The text with all characters of a class encoded. -/
def percentEncode (isEncoded : Char → Bool) (cs : List Char) : List Char :=
  cs.flatMap fun c =>
    if isEncoded c then (String.utf8EncodeChar c).flatMap percentByte else [c]

/-- The bytes that an encoded text stands for; a percent sign without two digits stands for itself. -/
def percentDecode : List Char → List UInt8
  | [] => []
  | '%' :: a :: b :: rest =>
    match Text.hexValue? a, Text.hexValue? b with
    | some x, some y => UInt8.ofNat (16 * x + y) :: percentDecode rest
    | _, _ => String.utf8EncodeChar '%' ++ percentDecode (a :: b :: rest)
  | c :: rest => String.utf8EncodeChar c ++ percentDecode rest

/-! ### Classes of characters -/

/-- Control characters and characters outside ASCII. -/
def isUnprinted (c : Char) : Bool := c < ' ' || '\x7f' ≤ c

/-- What is encoded in a fragment. -/
def isEncodedInFragment (c : Char) : Bool := isUnprinted c || " \"<>`".toList.contains c

/-- What is encoded in a query. -/
def isEncodedInQuery (special : Bool) (c : Char) : Bool :=
  isUnprinted c || " \"#<>".toList.contains c || (special && c == '\'')

/-- What is encoded in a path as it is written. -/
def isEncodedInPath (c : Char) : Bool :=
  isEncodedInFragment c || "#?\x7b\x7d".toList.contains c

/-- What is encoded in a name that becomes one segment of a path. -/
def isEncodedInSegment (c : Char) : Bool := isEncodedInPath c || "/%\\".toList.contains c

/-- What is encoded in the name and the password of a user. -/
def isEncodedInUser (c : Char) : Bool := isEncodedInPath c || "/:;=@[\\]^|".toList.contains c

end ImageSpec.Url

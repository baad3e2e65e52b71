namespace ImageSpec.Text

/-!
# UTF-8

`decode` reads bytes as UTF-8 as far as they are valid: it gives the characters of the longest valid
beginning and the byte that follows it, if there is one.  `symbols` reads on past such bytes.
-/

/-- The characters of the longest valid beginning, and the byte that follows it. -/
structure Decoded where
  chars : List Char
  stray : Option UInt8

/-- Reads the bytes from index `i` on. -/
def decodeFrom (bytes : ByteArray) (i : Nat) : Decoded :=
  if h : i < bytes.size then
    match bytes.utf8DecodeChar? i with
    | some c =>
      let following := decodeFrom bytes (i + c.utf8Size)
      { following with chars := c :: following.chars }
    | none => ⟨[], some bytes[i]⟩
  else ⟨[], none⟩
termination_by bytes.size - i
decreasing_by
  have := c.utf8Size_pos
  omega

/-- Reads bytes as UTF-8 as far as they are valid. -/
def decode (bytes : ByteArray) : Decoded := decodeFrom bytes 0

/-- The characters from index `i` on, with `none` for each byte that belongs to no character. -/
def symbolsFrom (bytes : ByteArray) (i : Nat) : List (Option Char) :=
  if _h : i < bytes.size then
    match bytes.utf8DecodeChar? i with
    | some c => some c :: symbolsFrom bytes (i + c.utf8Size)
    | none => none :: symbolsFrom bytes (i + 1)
  else []
termination_by bytes.size - i
decreasing_by
  · have := c.utf8Size_pos
    omega
  · omega

/-- The characters of bytes, with `none` for each byte that belongs to no character. -/
def symbols (bytes : ByteArray) : List (Option Char) := symbolsFrom bytes 0

/-- The text that bytes stand for, if all of them are valid. -/
def ofUtf8? (bytes : ByteArray) : Option String :=
  match decode bytes with
  | ⟨chars, none⟩ => some (String.ofList chars)
  | ⟨_, some _⟩ => none

end ImageSpec.Text

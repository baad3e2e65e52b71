import ImageSpec.Json
import ImageSpec.Text.Numerals

namespace ImageSpec.Json

/-!
# Tokens of JSON

`tokens` reads a text as JSON tokens with blanks between them.  A text is a list of symbols: a
character, or `none` for a byte that belongs to no character, which may stand in a string only.
-/

/-- A character, or a byte that belongs to none. -/
abbrev Symbol : Type := Option Char

/-- A token of JSON. -/
inductive Token where
  | openBrace
  | closeBrace
  | openBracket
  | closeBracket
  | colon
  | comma
  | null
  | bool (b : Bool)
  | number (written : String)
  | string (value : Option String)
deriving DecidableEq, Repr

/-! ### Strings -/

/-- A part of a string: a character, half of a surrogate pair, or a byte that belongs to no
    character. -/
inductive Piece where
  | char (c : Char)
  | half (unit : Nat)
  | stray
deriving DecidableEq, Repr

/-- The piece that a code unit of 16 bits stands for. -/
def Piece.ofUnit (unit : Nat) : Piece :=
  if 0xD800 ≤ unit ∧ unit < 0xE000 then .half unit else .char (Char.ofNat unit)

/-- The number that four hexadecimal digits stand for. -/
def unit? (a b c d : Symbol) : Option Nat := do
  let a ← Text.hexValue? (← a)
  let b ← Text.hexValue? (← b)
  let c ← Text.hexValue? (← c)
  let d ← Text.hexValue? (← d)
  return ((a * 16 + b) * 16 + c) * 16 + d

/-- The character that a backslash and another character stand for. -/
def unescape? (c : Char) : Option Char :=
  match c with
  | '"' => some '"'
  | '\\' => some '\\'
  | '/' => some '/'
  | 'b' => some '\x08'
  | 'f' => some '\x0c'
  | 'n' => some '\n'
  | 'r' => some '\r'
  | 't' => some '\t'
  | _ => none

/-- Reads a string from behind its opening quote: its pieces and what follows its closing quote. -/
def piecesOf : List Symbol → Option (List Piece × List Symbol)
  | [] => none
  | some '"' :: rest => some ([], rest)
  | some '\\' :: some 'u' :: a :: b :: c :: d :: rest =>
    match unit? a b c d, piecesOf rest with
    | some unit, some (pieces, rest) => some (Piece.ofUnit unit :: pieces, rest)
    | _, _ => none
  | some '\\' :: some e :: rest =>
    match unescape? e, piecesOf rest with
    | some c, some (pieces, rest) => some (.char c :: pieces, rest)
    | _, _ => none
  | none :: rest =>
    match piecesOf rest with
    | some (pieces, rest) => some (.stray :: pieces, rest)
    | none => none
  | some c :: rest =>
    if c = '\\' ∨ c.toNat < 0x20 then none
    else match piecesOf rest with
      | some (pieces, rest) => some (.char c :: pieces, rest)
      | none => none

/-- The characters that pieces stand for; two halves in order are one character. -/
def assemble : List Piece → Option (List Char)
  | [] => some []
  | .char c :: rest => (assemble rest).map (c :: ·)
  | .half high :: .half low :: rest =>
    if high < 0xDC00 ∧ 0xDC00 ≤ low then
      (assemble rest).map (Char.ofNat (0x10000 + (high - 0xD800) * 0x400 + (low - 0xDC00)) :: ·)
    else none
  | _ => none

/-! ### Numbers -/

/-- The symbols for which a test on characters holds, at the front, and the rest. -/
def span (p : Char → Bool) : List Symbol → List Char × List Symbol
  | some c :: rest =>
    if p c then
      let (chars, rest) := span p rest
      (c :: chars, rest)
    else ([], some c :: rest)
  | rest => ([], rest)

/-- Reads decimal digits, at least one. -/
def digitsOf (cs : List Symbol) : Option (List Char × List Symbol) :=
  match span Char.isDigit cs with
  | ([], _) => none
  | found => some found

/-- Reads the digits before the point: a zero alone, or digits that do not start with zero. -/
def wholeOf : List Symbol → Option (List Char × List Symbol)
  | some '0' :: rest => some (['0'], rest)
  | cs => digitsOf cs

/-- Reads a point and digits, if there is a point. -/
def fractionOf : List Symbol → Option (List Char × List Symbol)
  | some '.' :: rest => (digitsOf rest).map fun (digits, rest) => ('.' :: digits, rest)
  | cs => some ([], cs)

/-- Reads a sign, if there is one, and digits, behind the mark of an exponent. -/
def signedOf (mark : Char) : List Symbol → Option (List Char × List Symbol)
  | some '+' :: rest => (digitsOf rest).map fun (digits, rest) => (mark :: '+' :: digits, rest)
  | some '-' :: rest => (digitsOf rest).map fun (digits, rest) => (mark :: '-' :: digits, rest)
  | cs => (digitsOf cs).map fun (digits, rest) => (mark :: digits, rest)

/-- Reads an exponent, if there is one. -/
def exponentOf : List Symbol → Option (List Char × List Symbol)
  | some 'e' :: rest => signedOf 'e' rest
  | some 'E' :: rest => signedOf 'E' rest
  | cs => some ([], cs)

/-- Reads a number without its sign. -/
def magnitudeOf (cs : List Symbol) : Option (List Char × List Symbol) := do
  let (whole, rest) ← wholeOf cs
  let (fraction, rest) ← fractionOf rest
  let (exponent, rest) ← exponentOf rest
  return (whole ++ fraction ++ exponent, rest)

/-- Reads a number. -/
def numberOf : List Symbol → Option (List Char × List Symbol)
  | some '-' :: rest => (magnitudeOf rest).map fun (chars, rest) => ('-' :: chars, rest)
  | cs => magnitudeOf cs

/-! ### Tokens -/

/-- The blanks that may stand between tokens. -/
def isLayout (c : Char) : Bool := c == ' ' || c == '\t' || c == '\n' || c == '\r'

/-- Reads one token at the front of symbols that do not start with a blank. -/
def tokenOf : List Symbol → Option (Token × List Symbol)
  | some '\x7b' :: rest => some (.openBrace, rest)
  | some '\x7d' :: rest => some (.closeBrace, rest)
  | some '[' :: rest => some (.openBracket, rest)
  | some ']' :: rest => some (.closeBracket, rest)
  | some ':' :: rest => some (.colon, rest)
  | some ',' :: rest => some (.comma, rest)
  | some 'n' :: some 'u' :: some 'l' :: some 'l' :: rest => some (.null, rest)
  | some 't' :: some 'r' :: some 'u' :: some 'e' :: rest => some (.bool true, rest)
  | some 'f' :: some 'a' :: some 'l' :: some 's' :: some 'e' :: rest => some (.bool false, rest)
  | some '"' :: rest =>
    (piecesOf rest).map fun (pieces, rest) =>
      (.string ((assemble pieces).map String.ofList), rest)
  | cs => (numberOf cs).map fun (chars, rest) => (.number (String.ofList chars), rest)

/-! ### Progress -/

/-- A string leaves fewer symbols. -/
theorem length_of_piecesOf {cs rest : List Symbol} {pieces : List Piece}
    (h : piecesOf cs = some (pieces, rest)) : rest.length < cs.length := by
  fun_induction piecesOf cs generalizing pieces rest with
  | case2 more =>
    cases h
    exact Nat.lt_succ_self _
  | case3 a b c d more unit pieces' rest' hmore hunit ih =>
    cases h
    have hlt := ih hmore
    simp only [List.length_cons]
    omega
  | case5 e more hunit c pieces' rest' hmore hescape ih =>
    cases h
    have hlt := ih hmore
    simp only [List.length_cons]
    omega
  | case7 more pieces' rest' hmore ih =>
    cases h
    have hlt := ih hmore
    simp only [List.length_cons]
    omega
  | case10 c more hquote hunit hescape hplain pieces' rest' hmore ih =>
    cases h
    have hlt := ih hmore
    simp only [List.length_cons]
    omega
  | _ => cases h

/-- What a test takes off the front and what is left have the length of the whole. -/
theorem length_span (p : Char → Bool) (cs : List Symbol) :
    (span p cs).1.length + (span p cs).2.length = cs.length := by
  fun_induction span p cs with
  | case1 c rest hc chars after hafter ih =>
    rw [hafter] at ih
    have hlength : chars.length + after.length = rest.length := ih
    simp only [List.length_cons]
    omega
  | case2 c rest hc => exact Nat.zero_add _
  | case3 rest hother => exact Nat.zero_add _

/-- Digits leave fewer symbols. -/
theorem length_of_digitsOf {cs rest : List Symbol} {digits : List Char}
    (h : digitsOf cs = some (digits, rest)) : rest.length < cs.length := by
  have hspan := length_span Char.isDigit cs
  unfold digitsOf at h
  split at h
  · cases h
  · rename_i hne
    have h := Option.some.inj h
    rw [h] at hspan
    have : digits ≠ [] := fun hd => hne rest (hd ▸ h)
    have := List.length_pos_iff.mpr this
    simp only at hspan
    omega

/-- The digits before the point leave fewer symbols. -/
theorem length_of_wholeOf {cs rest : List Symbol} {digits : List Char}
    (h : wholeOf cs = some (digits, rest)) : rest.length < cs.length := by
  unfold wholeOf at h
  split at h
  · cases h
    simp
  · exact length_of_digitsOf h

/-- A fraction leaves no more symbols. -/
theorem length_of_fractionOf {cs rest : List Symbol} {chars : List Char}
    (h : fractionOf cs = some (chars, rest)) : rest.length ≤ cs.length := by
  unfold fractionOf at h
  split at h
  · obtain ⟨⟨digits, rest'⟩, hd, heq⟩ := Option.map_eq_some_iff.mp h
    cases heq
    have := length_of_digitsOf hd
    simp only [List.length_cons]
    omega
  · cases h
    exact Nat.le_refl _

/-- A signed exponent leaves fewer symbols. -/
theorem length_of_signedOf {mark : Char} {cs rest : List Symbol} {chars : List Char}
    (h : signedOf mark cs = some (chars, rest)) : rest.length < cs.length := by
  unfold signedOf at h
  split at h <;>
  · obtain ⟨⟨digits, rest'⟩, hd, heq⟩ := Option.map_eq_some_iff.mp h
    cases heq
    have := length_of_digitsOf hd
    simp only [List.length_cons] at *
    omega

/-- An exponent leaves no more symbols. -/
theorem length_of_exponentOf {cs rest : List Symbol} {chars : List Char}
    (h : exponentOf cs = some (chars, rest)) : rest.length ≤ cs.length := by
  unfold exponentOf at h
  split at h
  · have := length_of_signedOf h
    simp only [List.length_cons]
    omega
  · have := length_of_signedOf h
    simp only [List.length_cons]
    omega
  · cases h
    exact Nat.le_refl _

/-- A number without its sign leaves fewer symbols. -/
theorem length_of_magnitudeOf {cs rest : List Symbol} {chars : List Char}
    (h : magnitudeOf cs = some (chars, rest)) : rest.length < cs.length := by
  simp only [magnitudeOf, Option.bind_eq_bind, Option.bind_eq_some_iff, Option.pure_def,
    Option.some.injEq, Prod.mk.injEq, Prod.exists] at h
  obtain ⟨_, _, h₁, _, _, h₂, _, _, h₃, _, rfl⟩ := h
  have := length_of_wholeOf h₁
  have := length_of_fractionOf h₂
  have := length_of_exponentOf h₃
  omega

/-- A number leaves fewer symbols. -/
theorem length_of_numberOf {cs rest : List Symbol} {chars : List Char}
    (h : numberOf cs = some (chars, rest)) : rest.length < cs.length := by
  unfold numberOf at h
  split at h
  · obtain ⟨⟨digits, rest'⟩, hd, heq⟩ := Option.map_eq_some_iff.mp h
    cases heq
    have := length_of_magnitudeOf hd
    simp only [List.length_cons]
    omega
  · exact length_of_magnitudeOf h

/-- A token leaves fewer symbols. -/
theorem length_of_tokenOf {cs rest : List Symbol} {t : Token}
    (h : tokenOf cs = some (t, rest)) : rest.length < cs.length := by
  unfold tokenOf at h
  split at h
  case h_10 =>
    obtain ⟨⟨pieces, rest'⟩, hp, heq⟩ := Option.map_eq_some_iff.mp h
    cases heq
    have := length_of_piecesOf hp
    simp only [List.length_cons]
    omega
  case h_11 =>
    obtain ⟨⟨chars, rest'⟩, hn, heq⟩ := Option.map_eq_some_iff.mp h
    cases heq
    exact length_of_numberOf hn
  all_goals
    cases h
    simp only [List.length_cons]
    omega

/-! ### The whole text -/

/-- The tokens of a text. -/
def tokens (cs : List Symbol) : Option (List Token) :=
  match cs with
  | [] => some []
  | next :: rest =>
    if next.any isLayout then tokens rest
    else
      match _h : tokenOf (next :: rest) with
      | none => none
      | some (t, rest') => (tokens rest').map (t :: ·)
termination_by cs.length
decreasing_by
  · simp
  · exact length_of_tokenOf _h

end ImageSpec.Json

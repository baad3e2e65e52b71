namespace ImageSpec.Text

/-!
# Numbers as digits

Digits stand for a number, the highest first.  `decimal` reads decimal digits, and `word?` a text
of them that fits in 64 bits.  Hexadecimal digits are written in lower case (`hex`, `hexPadded`) and
read in either case (`hexValue?`).
-/

/-! ### Decimal numbers -/

/-- The number that decimal digits stand for. -/
def decimal (digits : List Char) : Nat :=
  digits.foldl (fun n d => 10 * n + (d.toNat - '0'.toNat)) 0

/-- The number of values that fit in 64 bits. -/
def wordCount : Nat := 18446744073709551616

/-- The number that a text of one or more digits stands for, if it fits in 64 bits. -/
def word? (cs : List Char) : Option Nat :=
  if cs.isEmpty then none
  else if cs.all Char.isDigit && decimal cs < wordCount then some (decimal cs)
  else none

/-! ### Hexadecimal numbers -/

/-- A hexadecimal digit in lower case; only the last four bits count. -/
def hexDigit (n : Nat) : Char :=
  match n % 16 with
  | 0 => '0' | 1 => '1' | 2 => '2' | 3 => '3' | 4 => '4' | 5 => '5' | 6 => '6' | 7 => '7'
  | 8 => '8' | 9 => '9' | 10 => 'a' | 11 => 'b' | 12 => 'c' | 13 => 'd' | 14 => 'e' | _ => 'f'

/-- A hexadecimal digit is a letter or a digit. -/
theorem isAlphanum_hexDigit (n : Nat) : (hexDigit n).isAlphanum = true := by
  unfold hexDigit
  split <;> decide

/-- The number in hexadecimal, in lower case and without leading zeros. -/
def hex (n : Nat) : List Char :=
  if n < 16 then [hexDigit n] else hex (n / 16) ++ [hexDigit n]

/-- The number in hexadecimal, in lower case and with exactly `width` digits. -/
def hexPadded : Nat → Nat → List Char
  | 0, _ => []
  | width + 1, n => hexPadded width (n / 16) ++ [hexDigit n]

/-- The value of a hexadecimal digit in either case. -/
def hexValue? (c : Char) : Option Nat :=
  if '0' ≤ c ∧ c ≤ '9' then some (c.toNat - '0'.toNat)
  else if 'a' ≤ c ∧ c ≤ 'f' then some (c.toNat - 'a'.toNat + 10)
  else if 'A' ≤ c ∧ c ≤ 'F' then some (c.toNat - 'A'.toNat + 10)
  else none

/-- A hexadecimal digit is read back. -/
theorem hexValue?_hexDigit (n : Nat) : hexValue? (hexDigit n) = some (n % 16) := by
  have hlt : n % 16 < 16 := Nat.mod_lt n (by decide)
  have hsmall : ∀ m < 16, hexValue? (hexDigit m) = some m := by decide
  have hmod : hexDigit n = hexDigit (n % 16) := by
    unfold hexDigit
    rw [Nat.mod_mod]
  rw [hmod, hsmall _ hlt]

end ImageSpec.Text

namespace ImageSpec.Url

/-!
# Domain labels in ASCII

A label with characters outside ASCII is written in ASCII: its ASCII characters first, then one
number for each other character, in the order of their code points.  A number says how far on, in
code points and places, the next character is; its digits have a base of 36 and a threshold that
follows the numbers written so far.
-/

namespace Punycode

/-- A digit: a letter, or from 26 on a decimal digit. -/
def digit (n : Nat) : Char :=
  if n < 26 then Char.ofNat ('a'.toNat + n) else Char.ofNat ('0'.toNat + (n - 26))

/-- The threshold of the digit at weight `k`, which lies between 1 and 26. -/
def threshold (bias k : Nat) : Nat := min 26 (max 1 (k - bias))

/-- A threshold is positive. -/
theorem threshold_pos (bias k : Nat) : 1 ≤ threshold bias k := by
  unfold threshold
  omega

/-- The digits of a number from weight `k` on. -/
def digitsFrom (bias k n : Nat) : List Char :=
  let t := threshold bias k
  if n < t then [digit n]
  else digit (t + (n - t) % (36 - t)) :: digitsFrom bias (k + 36) ((n - t) / (36 - t))
termination_by n
decreasing_by
  have := threshold_pos bias k
  have : (n - threshold bias k) / (36 - threshold bias k) ≤ n - threshold bias k :=
    Nat.div_le_self _ _
  omega

/-- The bias for a distance, and the weight that it adds. -/
def scale (distance weight : Nat) : Nat :=
  if 455 < distance then scale (distance / 35) (weight + 36)
  else weight + 36 * distance / (distance + 38)
termination_by distance

/-- The bias after a number. -/
def adapt (distance count : Nat) (isFirst : Bool) : Nat :=
  let halved := if isFirst then distance / 700 else distance / 2
  scale (halved + halved / count) 0

/-- How far a label has been written. -/
structure Progress where
  /-- The least code point that has not been handled. -/
  next : Nat := 128
  distance : Nat := 0
  bias : Nat := 72
  /-- The number of characters that have been written. -/
  written : Nat
  isFirst : Bool := true
  output : List Char

/-- Passes a character of the label while all characters with one code point are written. -/
def pass (code : Nat) (p : Progress) (c : Char) : Progress :=
  if c.toNat < code then { p with distance := p.distance + 1 }
  else if c.toNat = code then
    { p with
      output := p.output ++ digitsFrom p.bias 36 p.distance
      bias := adapt p.distance (p.written + 1) p.isFirst
      isFirst := false
      distance := 0
      written := p.written + 1 }
  else p

/-- Writes all characters with one code point. -/
def write (label : List Char) (p : Progress) (code : Nat) : Progress :=
  let p := { p with distance := p.distance + (code - p.next) * (p.written + 1) }
  let p := label.foldl (pass code) p
  { p with distance := p.distance + 1, next := code + 1 }

/-- A label in ASCII. -/
def encode (label : List Char) : List Char :=
  let basic := label.filter (· < '\x80')
  let codes := ((label.filter ('\x80' ≤ ·)).map Char.toNat).mergeSort.eraseDups
  let start := if basic.isEmpty then [] else basic ++ ['-']
  (codes.foldl (write label) { written := basic.length, output := start }).output

end Punycode

end ImageSpec.Url

namespace ImageSpec

/-!
# Positions in a text

A position is a line and a column, both counted from 1.  Only a line feed ends a line, and columns
count characters.  The position of a place in a text depends only on the text before it:
`Position.after before` is the position just past `before`.  For a place that is given by its byte,
a `LineIndex` of the text finds the position.
-/

/-- A line and a column, both counted from 1. -/
structure Position where
  line : Nat
  column : Nat
deriving DecidableEq, Repr, Inhabited

namespace Position

/-- The first character of a text. -/
def start : Position := ⟨1, 1⟩

/-- The position that follows a character. -/
def advance (p : Position) (c : Char) : Position :=
  if c = '\n' then ⟨p.line + 1, 1⟩ else ⟨p.line, p.column + 1⟩

/-- The position that follows a text which starts at `p`. -/
def advanceOver (p : Position) (cs : List Char) : Position := cs.foldl advance p

/-- The position just past the text `before`. -/
def after (before : List Char) : Position := start.advanceOver before

/-- Positions in reading order: by line, then by column. -/
def Before (p q : Position) : Prop :=
  p.line < q.line ∨ (p.line = q.line ∧ p.column < q.column)

instance (p q : Position) : Decidable (p.Before q) :=
  inferInstanceAs (Decidable (_ ∨ _))

/-- A position as messages show it. -/
def text (p : Position) : String := p.line.repr ++ ":" ++ p.column.repr

/-! ### Bytes -/

/-- The number of bytes of a text's UTF-8 form. -/
def byteSize : List Char → Nat
  | [] => 0
  | c :: cs => c.utf8Size + byteSize cs

/-- The characters that lie wholly before the byte at `offset` of the text's UTF-8 form. -/
def charsBefore : List Char → Nat → List Char
  | [], _ => []
  | c :: cs, offset =>
    if c.utf8Size ≤ offset then c :: charsBefore cs (offset - c.utf8Size) else []

/-- The other characters: those from the byte at `offset` on. -/
def charsFrom : List Char → Nat → List Char
  | [], _ => []
  | c :: cs, offset =>
    if c.utf8Size ≤ offset then charsFrom cs (offset - c.utf8Size) else c :: cs

end Position

/-- A value together with the position at which it starts. -/
structure Placed (α : Type) where
  position : Position
  value : α
deriving DecidableEq, Repr

/-!
### Lines by their first bytes

A `LineIndex` of a text knows at which bytes its lines start.  The line of a byte is then found by
halving, and only the characters of that line are counted.
-/

/-- The bytes behind the line feeds of a text of which the first byte is the one at `offset`. -/
def lineStartsFrom (offset : Nat) : List Char → List Nat
  | [] => []
  | c :: cs =>
    if c = '\n' then (offset + c.utf8Size) :: lineStartsFrom (offset + c.utf8Size) cs
    else lineStartsFrom (offset + c.utf8Size) cs

/-- A line starts behind the offset at which reading began. -/
theorem lt_of_mem_lineStartsFrom {offset start : Nat} {cs : List Char}
    (h : start ∈ lineStartsFrom offset cs) : offset < start := by
  induction cs generalizing offset with
  | nil => cases h
  | cons c cs ih =>
    have hpos := c.utf8Size_pos
    rw [lineStartsFrom] at h
    split at h
    · rcases List.mem_cons.mp h with rfl | h
      · omega
      · have := ih h
        omega
    · have := ih h
      omega

/-- The starts of lines increase. -/
theorem pairwise_lineStartsFrom (offset : Nat) (cs : List Char) :
    (lineStartsFrom offset cs).Pairwise (· < ·) := by
  induction cs generalizing offset with
  | nil => exact .nil
  | cons c cs ih =>
    rw [lineStartsFrom]
    split
    · exact .cons (fun _ h => lt_of_mem_lineStartsFrom h) (ih _)
    · exact ih _

/-- A text and the bytes at which its lines start, in ascending order. -/
structure LineIndex where
  source : List Char
  starts : Array Nat
  sorted : starts.toList.Pairwise (· < ·)

namespace LineIndex

/-- The index of a text: a line starts with the text and behind every line feed. -/
def ofText (source : List Char) : LineIndex where
  source := source
  starts := (0 :: lineStartsFrom 0 source).toArray
  sorted := .cons (fun _ h => lt_of_mem_lineStartsFrom h) (pairwise_lineStartsFrom 0 source)

/-- The number of ascending numbers up to `bound`, if it is known to lie between `low` and `high`:
    the number in the middle tells which half to go on with. -/
def countUpTo (xs : Array Nat) (bound low high : Nat) : Nat :=
  if low < high then
    let middle := (low + high) / 2
    if xs.getD middle 0 ≤ bound then countUpTo xs bound (middle + 1) high
    else countUpTo xs bound low middle
  else low
termination_by high - low

/-- The position of the byte at `offset`: its line is the last one that starts up to there, and its
    column counts the characters from the start of the line. -/
def position (index : LineIndex) (offset : Nat) : Position :=
  let line := countUpTo index.starts offset 0 index.starts.size
  let start := index.starts.getD (line - 1) 0
  ⟨line, (Position.charsBefore (Position.charsFrom index.source start) (offset - start)).length + 1⟩

end LineIndex

/-- The position of the byte at `offset` of the text's UTF-8 form. -/
def Position.ofByte (cs : List Char) (offset : Nat) : Position :=
  (LineIndex.ofText cs).position offset

end ImageSpec

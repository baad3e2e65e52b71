import ImageSpec.Proofs.Words

namespace ImageSpec

/-!
# Reading does not look at positions

Tokens carry positions, and what is read from them carries positions again.  They are passed on and
never looked at: a change of all positions of the tokens changes the positions of the result in the
same way, and nothing else.

* `relocate f` — a token, a declaration or an error with `f p` for every position `p` in it.
* `unplaced` — the same with all positions forgotten.
* `readEntries_cons`, `readFrom_step`, `readFrom_word` — the readers one construct at a time.
* `read_relocate` — reading after a change of positions is a change of positions after reading.
-/

/-! ### Other positions -/

/-- The value at another position. -/
def Placed.relocate {α : Type} (f : Position → Position) (x : Placed α) : Placed α :=
  ⟨f x.position, x.value⟩

/-- The entry at another position. -/
def Entry.relocate (f : Position → Position) (e : Entry) : Entry :=
  { e with position := f e.position }

/-- The prerequisite at another position. -/
def Prerequisite.relocate (f : Position → Position) (p : Prerequisite) : Prerequisite :=
  { p with position := f p.position }

/-- The syntax error at another position. -/
def SyntaxError.relocate (f : Position → Position) (e : SyntaxError) : SyntaxError :=
  { e with position := f e.position }

namespace Declaration

mutual

/-- The declaration with other positions. -/
def relocate (f : Position → Position) : Declaration → Declaration
  | base p reference => base (f p) reference
  | dep p reference => dep (f p) reference
  | instruction p keyword value => instruction (f p) keyword value
  | block p keyword entries => block (f p) keyword (entries.map (Entry.relocate f))
  | step p name after body =>
    step (f p) name (after.map (Prerequisite.relocate f)) (relocateAll f body)

/-- The declarations with other positions. -/
def relocateAll (f : Position → Position) : List Declaration → List Declaration
  | [] => []
  | d :: ds => relocate f d :: relocateAll f ds

end

/-- Moving declarations moves each of them. -/
@[simp] theorem relocateAll_eq_map (f : Position → Position) (ds : List Declaration) :
    relocateAll f ds = ds.map (relocate f) := by
  induction ds with
  | nil => rfl
  | cons d ds ih => rw [relocateAll, ih, List.map_cons]

/-- The declaration with its positions forgotten. -/
def unplaced (d : Declaration) : Declaration := d.relocate fun _ => .start

/-- The open step with other positions. -/
def OpenStep.relocate (f : Position → Position) (s : OpenStep) : OpenStep where
  position := f s.position
  name := s.name
  after := s.after.map (Prerequisite.relocate f)
  opener := f s.opener
  before := s.before.map (Declaration.relocate f)

/-- What a reader gives, with other positions; `g` changes those of the result. -/
def relocateRead {α : Type} (f : Position → Position) (g : α → α) :
    Except SyntaxError (α × Tokens) → Except SyntaxError (α × Tokens)
  | .ok (a, rest) => .ok (g a, rest.map (Placed.relocate f))
  | .error e => .error (e.relocate f)

/-- What is read from all tokens, with other positions. -/
def relocateResult (f : Position → Position) :
    Except SyntaxError (List Declaration) → Except SyntaxError (List Declaration)
  | .ok ds => .ok (ds.map (relocate f))
  | .error e => .error (e.relocate f)

/-! ### The readers, one construct at a time

The readers that recur note in each branch why what is left is shorter.  Here they are without these
notes, so that what a reader calls can be rewritten.
-/

/-- The first entry of a block and the others. -/
theorem readEntries_cons {eof opener : Position} {next : Placed Token} {rest : Tokens}
    (hnext : next.value ≠ .closeBrace) :
    readEntries eof opener (next :: rest) = match entryKey? next.value with
      | none => .error (unexpected eof .entryKey (next :: rest))
      | some key => match readAssigned eof rest with
        | .error e => .error e
        | .ok (value, rest) => match readEntries eof opener (skipSeparator rest) with
          | .error e => .error e
          | .ok (entries, rest) => .ok (⟨next.position, key, value.value⟩ :: entries, rest) := by
  rw [readEntries.eq_3]
  · cases entryKey? next.value with
    | none => rfl
    | some key => rcases readAssigned eof rest with e | ⟨value, rest'⟩ <;> rfl
  · rintro p rfl
    exact hnext rfl

/-- A step opens a group. -/
theorem readFrom_step (eof p : Position) (groups : List OpenStep) (latestFirst : List Declaration)
    (rest : Tokens) :
    readFrom eof groups latestFirst (⟨p, .step⟩ :: rest)
      = match readHeader eof p latestFirst rest with
        | .error e => .error e
        | .ok (group, rest) => readFrom eof (group :: groups) [] rest := by
  rw [readFrom]
  rcases readHeader eof p latestFirst rest with e | ⟨group, rest'⟩ <;> rfl

/-- A word starts a declaration that opens no group. -/
theorem readFrom_word (eof p : Position) (groups : List OpenStep) (latestFirst : List Declaration)
    (word : String) (rest : Tokens) :
    readFrom eof groups latestFirst (⟨p, .word word⟩ :: rest)
      = match readPlain eof p word rest with
        | .error e => .error e
        | .ok (d, rest) => readFrom eof groups (d :: latestFirst) rest := by
  rw [readFrom]
  rcases readPlain eof p word rest with e | ⟨d, rest'⟩ <;> rfl

/-! ### Single tokens -/

variable (f : Position → Position)

/-- A certain token is read at its new position. -/
theorem readExactly_relocate (eof : Position) (t : Token) (ts : Tokens) :
    readExactly (f eof) t (ts.map (Placed.relocate f))
      = relocateRead f f (readExactly eof t ts) := by
  cases ts with
  | nil => rfl
  | cons next rest =>
    rw [List.map_cons, readExactly, readExactly]
    by_cases h : next.value = t
    · simp [Placed.relocate, h, relocateRead]
    · simp [Placed.relocate, h, relocateRead, unexpected, SyntaxError.relocate]

/-- A word is read at its new position. -/
theorem readWord_relocate (eof : Position) (ts : Tokens) :
    readWord (f eof) (ts.map (Placed.relocate f))
      = relocateRead f (Placed.relocate f) (readWord eof ts) := by
  rcases ts with _ | ⟨⟨p, t⟩, rest⟩
  · rfl
  · cases t <;> rfl

/-- A literal is read at its new position. -/
theorem readLiteral_relocate (eof : Position) (ts : Tokens) :
    readLiteral (f eof) (ts.map (Placed.relocate f))
      = relocateRead f (Placed.relocate f) (readLiteral eof ts) := by
  rcases ts with _ | ⟨⟨p, t⟩, rest⟩
  · rfl
  · cases t <;> rfl

/-- What is skipped between entries does not depend on positions. -/
theorem skipSeparator_relocate (ts : Tokens) :
    skipSeparator (ts.map (Placed.relocate f)) = (skipSeparator ts).map (Placed.relocate f) := by
  rcases ts with _ | ⟨⟨p, t⟩, rest⟩
  · rfl
  · cases t <;> rfl

/-- An assigned text is read at its new position. -/
theorem readAssigned_relocate (eof : Position) (ts : Tokens) :
    readAssigned (f eof) (ts.map (Placed.relocate f))
      = relocateRead f (Placed.relocate f) (readAssigned eof ts) := by
  unfold readAssigned
  rw [readExactly_relocate]
  rcases readExactly eof .equals ts with e | ⟨p, rest⟩
  · rfl
  · exact readLiteral_relocate f eof rest

/-! ### Values and blocks -/

/-- The items of a list have no positions, and the same ones are read. -/
theorem readItems_relocate (eof opener : Position) (ts : Tokens) :
    readItems (f eof) (f opener) (ts.map (Placed.relocate f))
      = relocateRead f id (readItems eof opener ts) := by
  fun_induction readItems eof opener ts with
  | case3 p item q rest items rest' h ih | case4 p item q rest e h ih =>
    rw [h] at ih
    rw [List.map_cons, List.map_cons, Placed.relocate, Placed.relocate, readItems, ih]
    rfl
  | case7 p item rest hcomma hclose hend =>
    rcases rest with _ | ⟨⟨q, t⟩, rest⟩
    · exact absurd rfl hend
    · cases t with
      | comma => exact absurd rfl (hcomma _ _)
      | closeBracket => exact absurd rfl (hclose _ _)
      | _ => rfl
  | case8 ts hend hclose _ _ _ hliteral =>
    rcases ts with _ | ⟨⟨q, t⟩, rest⟩
    · exact absurd rfl hend
    · cases t with
      | closeBracket => exact absurd rfl (hclose _ _)
      | literal => exact absurd rfl (hliteral _ _ _)
      | _ => rfl
  | _ => rfl

/-- A value has no position, and the same one is read. -/
theorem readValue_relocate (eof : Position) (ts : Tokens) :
    readValue (f eof) (ts.map (Placed.relocate f)) = relocateRead f id (readValue eof ts) := by
  rcases ts with _ | ⟨⟨p, t⟩, rest⟩
  · rfl
  · cases t with
    | openBracket =>
      rw [List.map_cons, Placed.relocate, readValue, readValue, readItems_relocate]
      rcases readItems eof p rest with e | ⟨items, rest'⟩ <;> rfl
    | _ => rfl

/-- Entries are read at their new positions. -/
theorem readEntries_relocate (eof opener : Position) (ts : Tokens) :
    readEntries (f eof) (f opener) (ts.map (Placed.relocate f))
      = relocateRead f (List.map (Entry.relocate f)) (readEntries eof opener ts) := by
  rcases ts with _ | ⟨next, rest⟩
  · rw [List.map_nil, readEntries, readEntries]
    rfl
  · by_cases hnext : next.value = .closeBrace
    · obtain ⟨p, t⟩ := next
      cases hnext
      rw [List.map_cons, Placed.relocate, readEntries, readEntries]
      rfl
    · have hnext' : (next.relocate f).value ≠ .closeBrace := hnext
      rw [List.map_cons, readEntries_cons hnext', readEntries_cons hnext, readAssigned_relocate,
        Placed.relocate]
      cases entryKey? next.value with
      | none => rfl
      | some key =>
        rcases h : readAssigned eof rest with e | ⟨value, rest'⟩
        · rfl
        · have hlength := length_of_readAssigned h
          have hskip := length_skipSeparator_le rest'
          have ih := readEntries_relocate eof opener (skipSeparator rest')
          simp only [relocateRead, skipSeparator_relocate, ih]
          rcases readEntries eof opener (skipSeparator rest') with e | ⟨entries, rest''⟩ <;> rfl
termination_by ts.length
decreasing_by
  simp only [List.length_cons]
  omega

/-! ### Declarations -/

/-- A reference has no position, and the same one is read. -/
theorem readReference_relocate (eof : Position) (ts : Tokens) :
    readReference (f eof) (ts.map (Placed.relocate f))
      = relocateRead f id (readReference eof ts) := by
  unfold readReference
  rw [readAssigned_relocate]
  rcases readAssigned eof ts with e | ⟨written, rest⟩
  · rfl
  · simp only [relocateRead, Placed.relocate]
    cases Reference.parse written.value <;> rfl

/-- A declaration that is no step is read at its new position. -/
theorem readPlain_relocate (eof p : Position) (word : String) (ts : Tokens) :
    readPlain (f eof) (f p) word (ts.map (Placed.relocate f))
      = relocateRead f (relocate f) (readPlain eof p word ts) := by
  unfold readPlain
  rw [readReference_relocate, readExactly_relocate, readExactly_relocate]
  -- the keyword is tried as that of a base image, a dependency, a block and an instruction
  split
  · rcases readReference eof ts with e | ⟨reference, rest⟩ <;> rfl
  · split
    · rcases readReference eof ts with e | ⟨reference, rest⟩ <;> rfl
    · cases BlockKeyword.ofWord? word with
      | some keyword =>
        rcases readExactly eof .openBrace ts with e | ⟨opener, rest⟩
        · rfl
        · simp only [relocateRead, readEntries_relocate]
          rcases readEntries eof opener rest with e | ⟨entries, rest'⟩ <;> rfl
      | none =>
        cases Keyword.ofWord? word with
        | some keyword =>
          rcases readExactly eof .equals ts with e | ⟨q, rest⟩
          · rfl
          · simp only [relocateRead, readValue_relocate]
            rcases readValue eof rest with e | ⟨value, rest'⟩ <;> rfl
        | none => rfl

/-- Names are read at their new positions. -/
theorem readNames_relocate (eof : Position) (ts : Tokens) :
    readNames (f eof) (ts.map (Placed.relocate f))
      = relocateRead f (List.map (Prerequisite.relocate f)) (readNames eof ts) := by
  fun_induction readNames eof ts with
  | case1 p name q rest names rest' h ih | case2 p name q rest e h ih =>
    rw [h] at ih
    rw [List.map_cons, List.map_cons, Placed.relocate, Placed.relocate, readNames, ih]
    rfl
  | case3 p name rest hcomma =>
    rcases rest with _ | ⟨⟨q, t⟩, rest⟩
    · rfl
    · cases t with
      | comma => exact absurd rfl (hcomma _ _)
      | _ => rfl
  | case4 ts _ hword =>
    rcases ts with _ | ⟨⟨q, t⟩, rest⟩
    · rfl
    · cases t with
      | word => exact absurd rfl (hword _ _ _)
      | _ => rfl

/-- The names that a step comes after are read at their new positions. -/
theorem readAfter_relocate (eof : Position) (ts : Tokens) :
    readAfter (f eof) (ts.map (Placed.relocate f))
      = relocateRead f (List.map (Prerequisite.relocate f)) (readAfter eof ts) := by
  rcases ts with _ | ⟨⟨p, t⟩, rest⟩
  · rfl
  · cases t with
    | after => exact readNames_relocate f eof rest
    | _ => rfl

/-- The header of a step is read at its new position. -/
theorem readHeader_relocate (eof p : Position) (before : List Declaration) (ts : Tokens) :
    readHeader (f eof) (f p) (before.map (relocate f)) (ts.map (Placed.relocate f))
      = relocateRead f (OpenStep.relocate f) (readHeader eof p before ts) := by
  unfold readHeader
  rw [readWord_relocate]
  rcases readWord eof ts with e | ⟨name, rest⟩
  · rfl
  · simp only [relocateRead, readAfter_relocate]
    rcases readAfter eof rest with e | ⟨after, rest'⟩
    · rfl
    · simp only [relocateRead, readExactly_relocate]
      rcases readExactly eof .openBrace rest' with e | ⟨opener, rest''⟩ <;> rfl

/-- Closing a step keeps all positions, old or new. -/
theorem close_relocate (s : OpenStep) (latestFirst : List Declaration) :
    (s.relocate f).close (latestFirst.map (relocate f))
      = (s.close latestFirst).map (relocate f) := by
  simp [OpenStep.close, OpenStep.relocate, relocate]

/-! ### The whole specification -/

/-- **Readers.** Declarations are read at their new positions, with any steps open. -/
theorem readFrom_relocate (eof : Position) (groups : List OpenStep)
    (latestFirst : List Declaration) (ts : Tokens) :
    readFrom (f eof) (groups.map (OpenStep.relocate f)) (latestFirst.map (relocate f))
        (ts.map (Placed.relocate f))
      = relocateResult f (readFrom eof groups latestFirst ts) := by
  -- the cases are those of the reader: the end, a separator, a closing brace, a step, a
  -- declaration, and anything else
  fun_induction readFrom eof groups latestFirst ts with
  | case1 latestFirst => simp [readFrom, relocateResult]
  | case2 latestFirst group outer =>
    rw [List.map_nil, List.map_cons, readFrom]
    rfl
  | case3 groups latestFirst p rest ih =>
    rw [List.map_cons, Placed.relocate, readFrom, ih]
  | case4 latestFirst p rest =>
    simp only [List.map_cons, List.map_nil, Placed.relocate]
    rw [readFrom]
    rfl
  | case5 latestFirst p rest group outer ih =>
    rw [List.map_cons, List.map_cons, Placed.relocate, readFrom, close_relocate, ih]
  | case6 groups latestFirst p rest e h =>
    rw [List.map_cons, Placed.relocate, readFrom_step, readHeader_relocate, h]
    rfl
  | case7 groups latestFirst p rest group rest' h ih =>
    rw [List.map_cons, Placed.relocate, readFrom_step, readHeader_relocate, h]
    exact ih
  | case8 groups latestFirst p rest word e h =>
    rw [List.map_cons, Placed.relocate, readFrom_word, readPlain_relocate, h]
    rfl
  | case9 groups latestFirst p rest word d rest' h ih =>
    rw [List.map_cons, Placed.relocate, readFrom_word, readPlain_relocate, h]
    exact ih
  | case10 groups latestFirst p t rest hsemicolon hclose hstep hword =>
    rw [List.map_cons, Placed.relocate, readFrom]
    · rfl
    · exact hsemicolon
    · exact hclose
    · exact hstep
    · exact hword

/-- **Reading.** A change of the positions of all tokens shows in the positions of the result and
    nowhere else. -/
theorem read_relocate (eof : Position) (ts : Tokens) :
    read (f eof) (ts.map (Placed.relocate f)) = relocateResult f (read eof ts) :=
  readFrom_relocate f eof [] [] ts

end Declaration

end ImageSpec

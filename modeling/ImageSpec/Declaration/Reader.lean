import ImageSpec.Declaration
import ImageSpec.SyntaxError

namespace ImageSpec.Declaration

/-!
# From tokens to declarations

Each reader takes tokens from the front and gives back what is left.  Steps nest, so the reader of a
whole specification keeps the steps that are still open: `readFrom` goes once through the tokens and
puts a step in its place when its closing brace comes.  `read` reads a whole specification.
-/

/-- The tokens that are still to be read. -/
abbrev Tokens : Type := List (Placed Token)

/-! ### Faults -/

/-- The fault that the next token, or the end of the text at `eof`, is not what was expected. -/
def unexpected (eof : Position) (expected : Expectation) : Tokens → SyntaxError
  | [] => ⟨eof, expected, .endOfInput⟩
  | t :: _ => ⟨t.position, expected, .token t.value⟩

/-- The fault that a group opened at `opener` is not closed by `closer`. -/
def unclosed (opener : Position) (closer : Token) : SyntaxError :=
  ⟨opener, .closerOf closer, .endOfInput⟩

/-! ### Single tokens -/

/-- Reads a given token; the result is its position. -/
def readExactly (eof : Position) (t : Token) : Tokens → Except SyntaxError (Position × Tokens)
  | [] => .error (unexpected eof (.exactly t) [])
  | next :: rest =>
    if next.value = t then .ok (next.position, rest)
    else .error (unexpected eof (.exactly t) (next :: rest))

/-- Reads a word. -/
def readWord (eof : Position) : Tokens → Except SyntaxError (Placed String × Tokens)
  | ⟨p, .word name⟩ :: rest => .ok (⟨p, name⟩, rest)
  | ts => .error (unexpected eof .word ts)

/-- Reads a string literal. -/
def readLiteral (eof : Position) : Tokens → Except SyntaxError (Placed String × Tokens)
  | ⟨p, .literal value⟩ :: rest => .ok (⟨p, value⟩, rest)
  | ts => .error (unexpected eof .literal ts)

/-! ### Values and blocks -/

/-- Reads the items of a list and its closing bracket.  A comma may follow the last item. -/
def readItems (eof opener : Position) : Tokens → Except SyntaxError (List String × Tokens)
  | [] => .error (unclosed opener .closeBracket)
  | ⟨_, .closeBracket⟩ :: rest => .ok ([], rest)
  | ⟨_, .literal item⟩ :: ⟨_, .comma⟩ :: rest =>
    match readItems eof opener rest with
    | .ok (items, rest) => .ok (item :: items, rest)
    | .error e => .error e
  | ⟨_, .literal item⟩ :: ⟨_, .closeBracket⟩ :: rest => .ok ([item], rest)
  | [⟨_, .literal _⟩] => .error (unclosed opener .closeBracket)
  | ⟨_, .literal _⟩ :: rest => .error (unexpected eof .listSeparator rest)
  | ts => .error (unexpected eof .literal ts)

/-- Reads the value of an instruction. -/
def readValue (eof : Position) : Tokens → Except SyntaxError (Value × Tokens)
  | ⟨_, .literal s⟩ :: rest => .ok (.text s, rest)
  | ⟨_, .integer n⟩ :: rest => .ok (.integer n, rest)
  | ⟨p, .openBracket⟩ :: rest =>
    match readItems eof p rest with
    | .ok (items, rest) => .ok (.list items, rest)
    | .error e => .error e
  | ts => .error (unexpected eof .value ts)

/-- The key that a token stands for in a block. -/
def entryKey? : Token → Option String
  | .word name => some name
  | .literal value => some value
  | _ => none

/-- Leaves out one separator at the front, if there is one. -/
def skipSeparator : Tokens → Tokens
  | ⟨_, .comma⟩ :: rest => rest
  | ⟨_, .semicolon⟩ :: rest => rest
  | ts => ts

/-- Leaving out a separator makes nothing longer. -/
theorem length_skipSeparator_le (ts : Tokens) : (skipSeparator ts).length ≤ ts.length := by
  unfold skipSeparator
  split <;> simp

/-- Reads an equals sign and a string literal. -/
def readAssigned (eof : Position) (ts : Tokens) : Except SyntaxError (Placed String × Tokens) :=
  match readExactly eof .equals ts with
  | .error e => .error e
  | .ok (_, rest) => readLiteral eof rest

/-- What is left after a given token is shorter by one. -/
theorem length_of_readExactly {eof p : Position} {t : Token} {ts rest : Tokens}
    (h : readExactly eof t ts = .ok (p, rest)) : ts.length = rest.length + 1 := by
  cases ts with
  | nil => cases h
  | cons next tail =>
    rw [readExactly] at h
    split at h
    · cases h
      rfl
    · cases h

/-- What is left after a string literal is shorter by one. -/
theorem length_of_readLiteral {eof : Position} {s : Placed String} {ts rest : Tokens}
    (h : readLiteral eof ts = .ok (s, rest)) : ts.length = rest.length + 1 := by
  unfold readLiteral at h
  split at h <;> cases h
  rfl

/-- What is left after an assigned literal is shorter by two. -/
theorem length_of_readAssigned {eof : Position} {s : Placed String} {ts rest : Tokens}
    (h : readAssigned eof ts = .ok (s, rest)) : ts.length = rest.length + 2 := by
  unfold readAssigned at h
  split at h
  · cases h
  · rename_i h₁
    have := length_of_readExactly h₁
    have := length_of_readLiteral h
    omega

/-- Reads the entries of a block and its closing brace. -/
def readEntries (eof opener : Position) (ts : Tokens) :
    Except SyntaxError (List Entry × Tokens) :=
  match ts with
  | [] => .error (unclosed opener .closeBrace)
  | ⟨_, .closeBrace⟩ :: rest => .ok ([], rest)
  | next :: rest =>
    match entryKey? next.value with
    | none => .error (unexpected eof .entryKey (next :: rest))
    | some key =>
      match _h : readAssigned eof rest with
      | .error e => .error e
      | .ok (value, rest') =>
        match readEntries eof opener (skipSeparator rest') with
        | .error e => .error e
        | .ok (entries, rest'') => .ok (⟨next.position, key, value.value⟩ :: entries, rest'')
termination_by ts.length
decreasing_by
  have := length_of_readAssigned _h
  have := length_skipSeparator_le rest'
  simp only [List.length_cons]
  omega

/-! ### Declarations that open no group -/

/-- Reads what follows the keyword of a base image or a dependency. -/
def readReference (eof : Position) (ts : Tokens) : Except SyntaxError (Reference × Tokens) :=
  match readAssigned eof ts with
  | .error e => .error e
  | .ok (written, rest) =>
    match Reference.parse written.value with
    | .ok reference => .ok (reference, rest)
    | .error fault => .error ⟨written.position, .reference, .badReference written.value fault⟩

/-- Reads what follows a word at the start of a declaration. -/
def readPlain (eof p : Position) (word : String) (ts : Tokens) :
    Except SyntaxError (Declaration × Tokens) :=
  if word = "base" then
    match readReference eof ts with
    | .ok (reference, rest) => .ok (.base p reference, rest)
    | .error e => .error e
  else if word = "dep" then
    match readReference eof ts with
    | .ok (reference, rest) => .ok (.dep p reference, rest)
    | .error e => .error e
  else match BlockKeyword.ofWord? word with
    | some keyword =>
      match readExactly eof .openBrace ts with
      | .error e => .error e
      | .ok (opener, rest) =>
        match readEntries eof opener rest with
        | .ok (entries, rest) => .ok (.block p keyword entries, rest)
        | .error e => .error e
    | none =>
      match Keyword.ofWord? word with
      | some keyword =>
        match readExactly eof .equals ts with
        | .error e => .error e
        | .ok (_, rest) =>
          match readValue eof rest with
          | .ok (value, rest) => .ok (.instruction p keyword value, rest)
          | .error e => .error e
      | none => .error ⟨p, .keyword, .unknownKeyword word⟩

/-! ### Steps -/

/-- Reads names with commas between them. -/
def readNames (eof : Position) : Tokens → Except SyntaxError (List Prerequisite × Tokens)
  | ⟨p, .word name⟩ :: ⟨_, .comma⟩ :: rest =>
    match readNames eof rest with
    | .ok (names, rest) => .ok (⟨p, name⟩ :: names, rest)
    | .error e => .error e
  | ⟨p, .word name⟩ :: rest => .ok ([⟨p, name⟩], rest)
  | ts => .error (unexpected eof .word ts)

/-- Reads the names that a step has to come after, if it gives any. -/
def readAfter (eof : Position) : Tokens → Except SyntaxError (List Prerequisite × Tokens)
  | ⟨_, .after⟩ :: rest => readNames eof rest
  | ts => .ok ([], ts)

/-- A step whose closing brace has not come yet. -/
structure OpenStep where
  position : Position
  name : String
  after : List Prerequisite
  opener : Position
  before : List Declaration

/-- Reads a step's name, the names it comes after and its opening brace.  The declarations of the
    surrounding group that come before the step are passed in. -/
def readHeader (eof p : Position) (before : List Declaration) (ts : Tokens) :
    Except SyntaxError (OpenStep × Tokens) :=
  match readWord eof ts with
  | .error e => .error e
  | .ok (name, rest) =>
    match readAfter eof rest with
    | .error e => .error e
    | .ok (after, rest) =>
      match readExactly eof .openBrace rest with
      | .error e => .error e
      | .ok (opener, rest) => .ok (⟨p, name.value, after, opener, before⟩, rest)

/-- The declarations of the surrounding group, the latest first, once a step is closed. -/
def OpenStep.close (s : OpenStep) (latestFirst : List Declaration) : List Declaration :=
  .step s.position s.name s.after latestFirst.reverse :: s.before

/-! ### Progress -/

/-- A list leaves fewer tokens. -/
theorem length_of_readItems {eof opener : Position} {items : List String} {ts rest : Tokens}
    (h : readItems eof opener ts = .ok (items, rest)) : rest.length < ts.length := by
  fun_induction readItems eof opener ts generalizing items rest with
  | case2 _ tail =>
    cases h
    exact Nat.lt_succ_self _
  | case3 _ item _ tail items' rest' hitems ih =>
    cases h
    have hlt := ih hitems
    simp only [List.length_cons]
    omega
  | case5 _ item _ tail =>
    cases h
    simp only [List.length_cons]
    omega
  | _ => cases h

/-- A value leaves fewer tokens. -/
theorem length_of_readValue {eof : Position} {value : Value} {ts rest : Tokens}
    (h : readValue eof ts = .ok (value, rest)) : rest.length < ts.length := by
  unfold readValue at h
  split at h
  · cases h
    simp
  · cases h
    simp
  · split at h <;> cases h
    rename_i h₁
    have := length_of_readItems h₁
    simp only [List.length_cons]
    omega
  · cases h

/-- A block leaves fewer tokens. -/
theorem length_of_readEntries {eof opener : Position} {entries : List Entry} {ts rest : Tokens}
    (h : readEntries eof opener ts = .ok (entries, rest)) : rest.length < ts.length := by
  fun_induction readEntries eof opener ts generalizing entries rest with
  | case1 => cases h
  | case2 =>
    cases h
    simp
  | case3 => cases h
  | case4 => cases h
  | case5 => cases h
  | case6 next rest₀ hb key hkey value rest₁ h₁ entries₁ rest₂ h₂ ih =>
    cases h
    have := length_of_readAssigned h₁
    have := length_skipSeparator_le rest₁
    have := ih h₂
    simp only [List.length_cons]
    omega

/-- A reference leaves fewer tokens. -/
theorem length_of_readReference {eof : Position} {r : Reference} {ts rest : Tokens}
    (h : readReference eof ts = .ok (r, rest)) : rest.length < ts.length := by
  unfold readReference at h
  split at h
  · cases h
  · rename_i h₁
    have := length_of_readAssigned h₁
    split at h <;> cases h
    omega

/-- A declaration that opens no group leaves fewer tokens. -/
theorem length_of_readPlain {eof p : Position} {word : String} {d : Declaration}
    {ts rest : Tokens} (h : readPlain eof p word ts = .ok (d, rest)) :
    rest.length < ts.length := by
  unfold readPlain at h
  split at h
  · split at h <;> cases h
    rename_i h₁
    exact length_of_readReference h₁
  · split at h
    · split at h <;> cases h
      rename_i h₁
      exact length_of_readReference h₁
    · split at h
      · split at h
        · cases h
        · rename_i h₁
          split at h <;> cases h
          rename_i h₂
          have := length_of_readExactly h₁
          have := length_of_readEntries h₂
          omega
      · split at h
        · split at h
          · cases h
          · rename_i h₁
            split at h <;> cases h
            rename_i h₂
            have := length_of_readExactly h₁
            have := length_of_readValue h₂
            omega
        · cases h

/-- Names leave fewer tokens. -/
theorem length_of_readNames {eof : Position} {names : List Prerequisite} {ts rest : Tokens}
    (h : readNames eof ts = .ok (names, rest)) : rest.length < ts.length := by
  fun_induction readNames eof ts generalizing names rest with
  | case1 _ _ _ tail names' rest' hnames ih =>
    cases h
    have hlt := ih hnames
    simp only [List.length_cons]
    omega
  | case3 =>
    cases h
    exact Nat.lt_succ_self _
  | _ => cases h

/-- The names that a step comes after leave no more tokens. -/
theorem length_of_readAfter {eof : Position} {names : List Prerequisite} {ts rest : Tokens}
    (h : readAfter eof ts = .ok (names, rest)) : rest.length ≤ ts.length := by
  unfold readAfter at h
  split at h
  · have := length_of_readNames h
    simp only [List.length_cons]
    omega
  · cases h
    simp

/-- The header of a step leaves fewer tokens. -/
theorem length_of_readHeader {eof p : Position} {before : List Declaration} {s : OpenStep}
    {ts rest : Tokens} (h : readHeader eof p before ts = .ok (s, rest)) :
    rest.length < ts.length := by
  unfold readHeader at h
  split at h
  · cases h
  · rename_i h₁
    split at h
    · cases h
    · rename_i h₂
      split at h <;> cases h
      rename_i h₃
      have := length_of_readAfter h₂
      have := length_of_readExactly h₃
      unfold readWord at h₁
      split at h₁ <;> cases h₁
      simp only [List.length_cons]
      omega

/-! ### The whole specification -/

/-- Reads on, inside the steps `groups` that are still open, the innermost first.  The declarations
    read so far in the innermost group come latest first. -/
def readFrom (eof : Position) (groups : List OpenStep) (latestFirst : List Declaration)
    (ts : Tokens) : Except SyntaxError (List Declaration) :=
  match ts with
  | [] =>
    match groups with
    | [] => .ok latestFirst.reverse
    | group :: _ => .error (unclosed group.opener .closeBrace)
  | ⟨p, t⟩ :: rest =>
    match t with
    | .semicolon => readFrom eof groups latestFirst rest
    | .closeBrace =>
      match groups with
      | [] => .error ⟨p, .declaration, .token t⟩
      | group :: outer => readFrom eof outer (group.close latestFirst) rest
    | .step =>
      match _h : readHeader eof p latestFirst rest with
      | .error e => .error e
      | .ok (group, rest') => readFrom eof (group :: groups) [] rest'
    | .word word =>
      match _h : readPlain eof p word rest with
      | .error e => .error e
      | .ok (declaration, rest') => readFrom eof groups (declaration :: latestFirst) rest'
    | _ => .error ⟨p, .declaration, .token t⟩
termination_by ts.length
decreasing_by
  · simp
  · simp
  · have := length_of_readHeader _h
    simp only [List.length_cons]
    omega
  · have := length_of_readPlain _h
    simp only [List.length_cons]
    omega

/-- Reads the declarations of a specification whose text ends at `eof`. -/
def read (eof : Position) (ts : Tokens) : Except SyntaxError (List Declaration) :=
  readFrom eof [] [] ts

end ImageSpec.Declaration

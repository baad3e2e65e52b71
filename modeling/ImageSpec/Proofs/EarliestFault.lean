import ImageSpec.Proofs.Grammar

namespace ImageSpec

/-!
# Syntax errors come as early as possible

A syntax error is reported at the first token that rules out every continuation: what stands before
the token is the beginning of a specification, and what ends with the token is not.  If the tokens
just end too soon, they are the beginning of a specification as a whole.

The readers are put together from smaller ones, and so is the proof.  A reader is *prompt* if it
either takes tokens without looking at what follows them, or fails as early as possible.

* `Declaration.Earliest` — a failure is as early as possible; `Earliest.behind` carries it over to a
  reader that has taken some tokens before, or that goes on afterwards.
* `Declaration.Prompt` — a reader that takes tokens or fails as early as possible;
  `Prompt.andThen` puts two of them together.
* `Declaration.earliest_readFrom` — the reader of a whole specification, whatever groups are open.
* `Declaration.read_error_earliest` — what a syntax error says about the tokens.
-/

/-- A finding is about a token. -/
def Finding.Names : Finding → Token → Prop
  | token t, t' => t = t'
  | unknownKeyword name, t => t = .word name
  | badReference written _, t => t = .literal written
  | _, _ => False

/-- A finding about a token is not that the input has ended. -/
theorem Finding.Names.ne_endOfInput {f : Finding} {t : Token} (h : f.Names t) :
    f ≠ .endOfInput := by
  rintro rfl
  exact h

namespace Declaration

/-- The error is at the token and about it. -/
def Blames (e : SyntaxError) (t : Placed Token) : Prop :=
  e.position = t.position ∧ e.found.Names t.value

/-- An unexpected token is blamed itself. -/
theorem blames_unexpected (eof : Position) (expected : Expectation) (t : Placed Token)
    (rest : Tokens) : Blames (unexpected eof expected (t :: rest)) t :=
  ⟨rfl, rfl⟩

/-! ### Failing as early as possible -/

/-- A failure of `f` is as early as possible, where `Whole` are the tokens that `f` should be given.
    Either the tokens end too soon, or the first token is blamed with which no such tokens go on. -/
inductive Earliest {γ : Type} (f : Tokens → Except SyntaxError γ) (Whole : Tokens → Prop) :
    Tokens → SyntaxError → Prop where
  | ends {ts : Tokens} {e : SyntaxError} (more : Tokens) (hfound : e.found = .endOfInput)
    (hmore : Whole (ts ++ more)) : Earliest f Whole ts e
  | stops {rest ts : Tokens} {t : Placed Token} {e : SyntaxError} (front more : Tokens)
    (hts : ts = front ++ t :: rest) (hblames : Blames e t) (hmore : Whole (front ++ more))
    (hstops : ∀ rest, f (front ++ t :: rest) = .error e) : Earliest f Whole ts e

/-- A failure that is as early as possible still is if other tokens come first, and if more has to
    follow. -/
theorem Earliest.behind {γ δ : Type} {f : Tokens → Except SyntaxError γ}
    {g : Tokens → Except SyntaxError δ} {Whole Whole' : Tokens → Prop} {ts : Tokens}
    {e : SyntaxError} (front : Tokens) (h : Earliest f Whole ts e)
    (herror : ∀ ts e, f ts = .error e → g (front ++ ts) = .error e)
    (hwhole : ∀ ts, Whole ts → ∃ more, Whole' (front ++ ts ++ more)) :
    Earliest g Whole' (front ++ ts) e := by
  cases h with
  | ends more hfound hmore =>
    obtain ⟨more', hmore'⟩ := hwhole _ hmore
    refine .ends (more ++ more') hfound ?_
    rwa [← List.append_assoc, List.append_assoc front]
  | stops front' more hts hblames hmore hstops =>
    obtain ⟨more', hmore'⟩ := hwhole _ hmore
    refine .stops (front ++ front') (more ++ more') (by rw [hts, List.append_assoc]) hblames ?_ ?_
    · rwa [← List.append_assoc, List.append_assoc front]
    · intro rest'
      rw [List.append_assoc]
      exact herror _ _ (hstops rest')

/-! ### Prompt readers -/

/-- A reader of a part of a specification. -/
abbrev Reader (α : Type) : Type := Tokens → Except SyntaxError (α × Tokens)

variable {α β : Type}

/-- Reads one part and then another. -/
def Reader.andThen (r : Reader α) (next : α → Reader β) : Reader β := fun ts =>
  match r ts with
  | .error e => .error e
  | .ok (a, rest) => next a rest

/-- Reads a part and makes something of it. -/
def Reader.map (f : α → β) (r : Reader α) : Reader β := r.andThen fun a rest => .ok (f a, rest)

/-- A reader takes exactly these tokens, whatever follows them. -/
def Takes (r : Reader α) (front : Tokens) (a : α) : Prop :=
  ∀ rest, r (front ++ rest) = .ok (a, rest)

/-- What a reader should be given: tokens that it takes. -/
def Taken (r : Reader α) (front : Tokens) : Prop := ∃ a, Takes r front a

/-- On these tokens a reader takes some of them without looking further, or fails as early as
    possible. -/
inductive Prompt (r : Reader α) (ts : Tokens) : Prop where
  | takes {rest : Tokens} {a : α} (front : Tokens) (hts : ts = front ++ rest) (h : Takes r front a)
  | fails {e : SyntaxError} (h : r ts = .error e) (hearliest : Earliest r (Taken r) ts e)

section Composition

variable {r : Reader α} {next : α → Reader β} {ts : Tokens}

/-- The second part is read behind the first. -/
theorem Reader.andThen_of_ok {a : α} {rest : Tokens} (h : r ts = .ok (a, rest)) :
    r.andThen next ts = next a rest := by
  rw [Reader.andThen, h]

/-- If the first part fails, so do both. -/
theorem Reader.andThen_of_error {e : SyntaxError} (h : r ts = .error e) :
    r.andThen next ts = .error e := by
  rw [Reader.andThen, h]

/-- Two parts take the tokens of the first and then those of the second. -/
theorem Takes.andThen {front front' : Tokens} {a : α} {b : β} (h : Takes r front a)
    (hnext : Takes (next a) front' b) : Takes (r.andThen next) (front ++ front') b := by
  intro rest
  rw [List.append_assoc, Reader.andThen_of_ok (h _), hnext]

/-- A reader that does with tokens behind `front` what a prompt one does with them. -/
theorem Prompt.behind {r' : Reader α} (front : Tokens) (h : Prompt r ts)
    (hr' : ∀ ts, r' (front ++ ts) = r ts) : Prompt r' (front ++ ts) := by
  have htakes : ∀ {front' a}, Takes r front' a → Takes r' (front ++ front') a := by
    intro front' a htakes rest
    rw [List.append_assoc, hr', htakes]
  cases h with
  | takes front' hts h => exact .takes (front ++ front') (by rw [hts, List.append_assoc]) (htakes h)
  | fails h hearliest =>
    refine .fails ((hr' ts).trans h) (hearliest.behind front ?_ ?_)
    · intro ts e he
      exact (hr' ts).trans he
    · rintro ts ⟨a, ha⟩
      exact ⟨[], a, by rw [List.append_nil]; exact htakes ha⟩

/-- What a prompt reader takes can be supplied. -/
theorem Prompt.exists_taken (h : Prompt r []) : ∃ more, Taken r more := by
  cases h with
  | takes front _ h => exact ⟨front, _, h⟩
  | fails _ hearliest =>
    cases hearliest with
    | ends more _ hmore => exact ⟨_, hmore⟩
    | stops front more _ _ hmore _ => exact ⟨_, hmore⟩

/-- **One part and then another.** -/
theorem Prompt.andThen (h : Prompt r ts)
    (hnext : ∀ a rest, r ts = .ok (a, rest) → Prompt (next a) rest)
    (hmore : ∀ a, ∃ more, Taken (next a) more) : Prompt (r.andThen next) ts := by
  cases h with
  | @takes rest a front hts h =>
    subst hts
    exact (hnext a rest (h rest)).behind front fun ts => Reader.andThen_of_ok (h ts)
  | fails h hearliest =>
    refine .fails (Reader.andThen_of_error h) (hearliest.behind [] ?_ ?_)
    · intro ts e he
      exact Reader.andThen_of_error he
    · rintro ts ⟨a, ha⟩
      obtain ⟨more, b, hb⟩ := hmore a
      exact ⟨more, b, ha.andThen hb⟩

/-- Making something of a part does not make its reader look further. -/
theorem Prompt.map (f : α → β) (h : Prompt r ts) : Prompt (r.map f) ts := by
  have htakes : ∀ a, Takes (fun rest => .ok (f a, rest)) [] (f a) := fun a rest => rfl
  exact h.andThen (fun a rest _ => .takes [] rfl (htakes a)) fun a => ⟨[], _, htakes a⟩

end Composition

/-! ### Single tokens -/

/-- A reader that looks at one token is prompt. -/
theorem prompt_of_single {r : Reader α} {e : SyntaxError} (good : Placed Token)
    (hend : r [] = .error e) (hfound : e.found = .endOfInput) (hgood : Taken r [good])
    (hcons : ∀ t, Taken r [t] ∨ ∃ e, Blames e t ∧ ∀ rest, r (t :: rest) = .error e)
    (ts : Tokens) : Prompt r ts := by
  cases ts with
  | nil => exact .fails hend (.ends [good] hfound hgood)
  | cons t rest =>
    rcases hcons t with ⟨a, ha⟩ | ⟨e, hblames, hstops⟩
    · exact .takes [t] rfl ha
    · exact .fails (hstops rest) (.stops [] [good] rfl hblames hgood hstops)

/-- A certain token is read promptly. -/
theorem prompt_readExactly (eof : Position) (t : Token) (ts : Tokens) :
    Prompt (readExactly eof t) ts := by
  refine prompt_of_single ⟨.start, t⟩ rfl rfl ⟨_, readExactly_self eof .start t⟩ ?_ ts
  intro next
  by_cases h : next.value = t
  · exact .inl ⟨next.position, fun rest => by simp [readExactly, h]⟩
  · exact .inr ⟨_, blames_unexpected eof (.exactly t) next [], fun rest => by
      simp [readExactly, h, unexpected]⟩

theorem prompt_readWord (eof : Position) (ts : Tokens) : Prompt (readWord eof) ts := by
  refine prompt_of_single ⟨.start, .word ""⟩ rfl rfl ⟨_, fun rest => rfl⟩ ?_ ts
  rintro ⟨p, t⟩
  cases t with
  | word name => exact .inl ⟨⟨p, name⟩, fun rest => rfl⟩
  | _ => exact .inr ⟨_, blames_unexpected eof .word _ [], fun rest => rfl⟩

theorem prompt_readLiteral (eof : Position) (ts : Tokens) : Prompt (readLiteral eof) ts := by
  refine prompt_of_single ⟨.start, .literal ""⟩ rfl rfl ⟨_, fun rest => rfl⟩ ?_ ts
  rintro ⟨p, t⟩
  cases t with
  | literal value => exact .inl ⟨⟨p, value⟩, fun rest => rfl⟩
  | _ => exact .inr ⟨_, blames_unexpected eof .literal _ [], fun rest => rfl⟩

/-- An assigned text is a sign of equality and then a literal. -/
theorem readAssigned_eq_andThen (eof : Position) :
    readAssigned eof = Reader.andThen (readExactly eof .equals) fun _ => readLiteral eof := by
  funext ts
  rw [readAssigned, Reader.andThen]
  rcases readExactly eof .equals ts with e | ⟨p, rest⟩ <;> rfl

/-- An assigned text is read promptly. -/
theorem prompt_readAssigned (eof : Position) (ts : Tokens) : Prompt (readAssigned eof) ts := by
  rw [readAssigned_eq_andThen]
  exact (prompt_readExactly eof .equals ts).andThen (fun _ rest _ => prompt_readLiteral eof rest)
    fun _ => (prompt_readLiteral eof []).exists_taken

/-! ### Values and blocks -/

/-- The items of a list are read promptly, since a comma or the bracket has to follow each. -/
theorem prompt_readItems (eof opener : Position) (ts : Tokens) :
    Prompt (readItems eof opener) ts := by
  have hclose : ∀ p, Taken (readItems eof opener) [⟨p, .closeBracket⟩] :=
    fun p => ⟨[], fun _ => rfl⟩
  have hone : ∀ p q item, Taken (readItems eof opener) [⟨p, .literal item⟩, ⟨q, .closeBracket⟩] :=
    fun p q item => ⟨[item], fun _ => rfl⟩
  fun_induction readItems eof opener ts with
  | case1 => exact .fails rfl (.ends _ rfl (hclose opener))
  | case2 p rest => exact .takes [_] rfl fun _ => rfl
  | case3 p item q rest items rest' h ih | case4 p item q rest e h ih =>
    -- behind the comma it makes no difference whether an item or the bracket comes next
    refine (ih.map (item :: ·)).behind [⟨p, .literal item⟩, ⟨q, .comma⟩] fun ts => ?_
    simp only [List.cons_append, List.nil_append, readItems, Reader.map, Reader.andThen]
    rcases readItems eof opener ts with e | ⟨items, rest⟩ <;> rfl
  | case5 p item q rest => exact .takes [_, _] rfl fun _ => rfl
  | case6 p item => exact .fails rfl (.ends _ rfl (hone p opener item))
  | case7 p item rest hcomma hclose' hend =>
    rcases rest with _ | ⟨⟨q, t⟩, rest⟩
    · exact absurd rfl hend
    · have hblames := blames_unexpected eof .listSeparator ⟨q, t⟩ []
      cases t with
      | comma => exact absurd rfl (hcomma _ _)
      | closeBracket => exact absurd rfl (hclose' _ _)
      | _ => exact .fails rfl (.stops [_] _ rfl hblames (hone p q item) fun _ => rfl)
  | case8 ts hend hclose' _ _ _ hliteral =>
    rcases ts with _ | ⟨⟨q, t⟩, rest⟩
    · exact absurd rfl hend
    · have hblames := blames_unexpected eof .literal ⟨q, t⟩ []
      cases t with
      | closeBracket => exact absurd rfl (hclose' _ _)
      | literal => exact absurd rfl (hliteral _ _ _)
      | _ => exact .fails rfl (.stops [] _ rfl hblames (hclose q) fun _ => rfl)

theorem prompt_readValue (eof : Position) (ts : Tokens) : Prompt (readValue eof) ts := by
  have htext : Taken (readValue eof) [⟨.start, .literal ""⟩] := ⟨_, fun _ => rfl⟩
  rcases ts with _ | ⟨⟨p, t⟩, rest⟩
  · exact .fails rfl (.ends _ rfl htext)
  · have hblames := blames_unexpected eof .value ⟨p, t⟩ []
    cases t with
    | literal s => exact .takes [_] rfl fun _ => rfl
    | integer n => exact .takes [_] rfl fun _ => rfl
    | openBracket =>
      refine ((prompt_readItems eof p rest).map Value.list).behind [⟨p, .openBracket⟩] fun ts => ?_
      simp only [List.cons_append, List.nil_append, readValue, Reader.map, Reader.andThen]
      rcases readItems eof p ts with e | ⟨items, rest⟩ <;> rfl
    | _ => exact .fails rfl (.stops [] _ rfl hblames htext fun _ => rfl)

/-- What follows an entry of a block: a separator, if there is one, and more entries. -/
def readEntriesBehind (eof opener : Position) : Reader (List Entry) := fun ts =>
  readEntries eof opener (skipSeparator ts)

/-- No entries start with a separator. -/
theorem skipSeparator_of_readEntries {eof opener : Position} {entries : List Entry}
    {ts rest : Tokens} (h : readEntries eof opener ts = .ok (entries, rest)) :
    skipSeparator ts = ts := by
  rcases ts with _ | ⟨⟨p, t⟩, ts⟩
  · rfl
  · cases t with
    | comma | semicolon =>
      rw [readEntries_cons (by simp)] at h
      cases h
    | _ => rfl

/-- Whether there is a separator shows in the first token. -/
theorem skipSeparator_append_cons {front rest rest' : Tokens} {t : Placed Token}
    (h : skipSeparator (front ++ t :: rest) = front ++ t :: rest) :
    skipSeparator (front ++ t :: rest') = front ++ t :: rest' := by
  have hfirst : ∀ (next : Placed Token) (ts ts' : Tokens),
      skipSeparator (next :: ts) = next :: ts → skipSeparator (next :: ts') = next :: ts' := by
    rintro ⟨p, t⟩ ts ts' h
    cases t with
    | comma | semicolon => exact absurd h.symm (List.cons_ne_self _ _)
    | _ => rfl
  cases front with
  | nil => exact hfirst t rest rest' h
  | cons next front => exact hfirst next _ _ h

/-- What can be taken as entries can be taken behind an entry. -/
theorem Taken.readEntriesBehind {eof opener : Position} {front : Tokens}
    (h : Taken (readEntries eof opener) front) : Taken (readEntriesBehind eof opener) front := by
  obtain ⟨entries, h⟩ := h
  refine ⟨entries, fun rest => ?_⟩
  rw [Declaration.readEntriesBehind, skipSeparator_of_readEntries (h rest), h]

/-- Entries behind an entry are read promptly if they are where the separator has been skipped. -/
theorem prompt_readEntriesBehind {eof opener : Position} {ts : Tokens}
    (h : Prompt (readEntries eof opener) (skipSeparator ts)) :
    Prompt (readEntriesBehind eof opener) ts := by
  by_cases hskip : skipSeparator ts = ts
  · rw [hskip] at h
    cases h with
    | takes front hts h =>
      obtain ⟨entries, h⟩ := Taken.readEntriesBehind ⟨_, h⟩
      exact .takes front hts h
    | fails h hearliest =>
      refine .fails (by rw [readEntriesBehind, hskip, h]) ?_
      cases hearliest with
      | ends more hfound hmore => exact .ends more hfound hmore.readEntriesBehind
      | stops front more hts hblames hmore hstops =>
        subst hts
        refine .stops front more rfl hblames hmore.readEntriesBehind fun rest => ?_
        rw [readEntriesBehind, skipSeparator_append_cons hskip, hstops]
  · -- there is a separator, and the entries behind it are read
    have hread : ∀ separator ts', (∀ ts, skipSeparator (separator :: ts) = ts) →
        Prompt (readEntries eof opener) ts' →
        Prompt (readEntriesBehind eof opener) (separator :: ts') := by
      intro separator ts' hseparator h
      refine h.behind [separator] fun ts => ?_
      rw [readEntriesBehind, List.singleton_append, hseparator]
    rcases ts with _ | ⟨⟨p, t⟩, ts⟩
    · exact absurd rfl hskip
    · cases t with
      | comma | semicolon => exact hread _ ts (fun _ => rfl) h
      | _ => exact absurd rfl hskip

/-- An entry behind its key, and the entries that follow it. -/
def readEntriesFrom (eof opener p : Position) (key : String) : Reader (List Entry) :=
  Reader.andThen (readAssigned eof) fun value =>
    (readEntriesBehind eof opener).map fun entries => ⟨p, key, value.value⟩ :: entries

/-- Where a key stands, an entry is read behind it. -/
theorem readEntries_key {eof opener : Position} {next : Placed Token} {key : String}
    (hkey : entryKey? next.value = some key) (ts : Tokens) :
    readEntries eof opener (next :: ts) = readEntriesFrom eof opener next.position key ts := by
  have hnext : next.value ≠ .closeBrace := by
    intro h
    rw [h] at hkey
    cases hkey
  rw [readEntries_cons hnext, hkey, readEntriesFrom, Reader.andThen]
  dsimp only
  rcases readAssigned eof ts with e | ⟨value, rest⟩
  · rfl
  · dsimp only
    rw [Reader.map, Reader.andThen, readEntriesBehind]
    rcases readEntries eof opener (skipSeparator rest) with e | ⟨entries, rest'⟩ <;> rfl

theorem taken_closeBrace (eof opener p : Position) :
    Taken (readEntries eof opener) [⟨p, .closeBrace⟩] :=
  ⟨[], fun rest => by rw [List.singleton_append, readEntries]⟩

theorem prompt_readEntries (eof opener : Position) (ts : Tokens) :
    Prompt (readEntries eof opener) ts := by
  rcases ts with _ | ⟨next, rest⟩
  · exact .fails (by rw [readEntries]) (.ends _ rfl (taken_closeBrace eof opener opener))
  · by_cases hnext : next.value = .closeBrace
    · obtain ⟨p, t⟩ := next
      cases hnext
      obtain ⟨entries, h⟩ := taken_closeBrace eof opener p
      exact .takes [_] rfl h
    · cases hkey : entryKey? next.value with
      | none =>
        have hstops : ∀ rest, readEntries eof opener (next :: rest)
            = .error (unexpected eof .entryKey [next]) := by
          intro rest
          rw [readEntries_cons hnext, hkey]
          rfl
        have hblames := blames_unexpected eof .entryKey next []
        exact .fails (hstops rest)
          (.stops [] _ rfl hblames (taken_closeBrace eof opener next.position) hstops)
      | some key =>
        -- the entries that follow are read from fewer tokens, past a separator
        have hfrom : Prompt (readEntriesFrom eof opener next.position key) rest := by
          refine (prompt_readAssigned eof rest).andThen ?_ ?_
          · intro value rest' hvalue
            have hlength := length_of_readAssigned hvalue
            have hskip := length_skipSeparator_le rest'
            exact (prompt_readEntriesBehind
              (prompt_readEntries eof opener (skipSeparator rest'))).map _
          · intro value
            obtain ⟨entries, h⟩ := (taken_closeBrace eof opener opener).readEntriesBehind
            exact ⟨_, _, fun rest => Reader.andThen_of_ok (h rest)⟩
        exact hfrom.behind [next] (readEntries_key hkey)
termination_by ts.length
decreasing_by
  simp only [List.length_cons]
  omega

/-! ### Declarations that open no group -/

/-- Reads a string literal that is a reference. -/
def readBound (eof : Position) : Reader Reference :=
  Reader.andThen (readLiteral eof) fun written rest =>
    match Reference.parse written.value with
    | .ok reference => .ok (reference, rest)
    | .error fault => .error ⟨written.position, .reference, .badReference written.value fault⟩

/-- A literal that has to be a reference is read promptly. -/
theorem prompt_readBound (eof : Position) (ts : Tokens) : Prompt (readBound eof) ts := by
  have hparse : Reference.parse "a" = .ok ⟨"a", none⟩ := by with_unfolding_all rfl
  refine prompt_of_single ⟨.start, .literal "a"⟩ rfl rfl ⟨⟨"a", none⟩, fun rest => ?_⟩ ?_ ts
  · simp [readBound, Reader.andThen, readLiteral, hparse]
  · rintro ⟨p, t⟩
    cases t with
    | literal s =>
      cases hs : Reference.parse s with
      | ok reference =>
        exact .inl ⟨reference, fun rest => by simp [readBound, Reader.andThen, readLiteral, hs]⟩
      | error fault =>
        exact .inr ⟨⟨p, .reference, .badReference s fault⟩, ⟨rfl, rfl⟩, fun rest => by
          simp [readBound, Reader.andThen, readLiteral, hs]⟩
    | _ => exact .inr ⟨_, blames_unexpected eof .literal _ [], fun rest => rfl⟩

/-- A reference is a sign of equality and then a literal that is one. -/
theorem readReference_eq_andThen (eof : Position) :
    readReference eof = Reader.andThen (readExactly eof .equals) fun _ => readBound eof := by
  funext ts
  rw [readReference, readAssigned_eq_andThen, Reader.andThen, Reader.andThen]
  rcases readExactly eof .equals ts with e | ⟨p, rest⟩
  · rfl
  · dsimp only
    rw [readBound, Reader.andThen]
    rcases readLiteral eof rest with e | ⟨written, rest'⟩ <;> rfl

theorem prompt_readReference (eof : Position) (ts : Tokens) : Prompt (readReference eof) ts := by
  rw [readReference_eq_andThen]
  exact (prompt_readExactly eof .equals ts).andThen (fun _ rest _ => prompt_readBound eof rest)
    fun _ => (prompt_readBound eof []).exists_taken

/-- A base image is its keyword and a reference. -/
theorem readPlain_base (eof p : Position) :
    readPlain eof p "base" = Reader.map (base p) (readReference eof) := by
  funext ts
  rw [readPlain, if_pos rfl, Reader.map, Reader.andThen]
  rcases readReference eof ts with e | ⟨reference, rest⟩ <;> rfl

/-- A dependency is its keyword and a reference. -/
theorem readPlain_dep (eof p : Position) :
    readPlain eof p "dep" = Reader.map (dep p) (readReference eof) := by
  funext ts
  rw [readPlain, if_neg (by decide), if_pos rfl, Reader.map, Reader.andThen]
  rcases readReference eof ts with e | ⟨reference, rest⟩ <;> rfl

/-- A block is its keyword, an opening brace and entries. -/
theorem readPlain_blockKeyword_eq_andThen (eof p : Position) (k : BlockKeyword) :
    readPlain eof p k.text = Reader.andThen (readExactly eof .openBrace) fun opener =>
      Reader.map (block p k) (readEntries eof opener) := by
  funext ts
  rw [readPlain_blockKeyword, Reader.andThen]
  rcases readExactly eof .openBrace ts with e | ⟨opener, rest⟩
  · rfl
  · dsimp only
    rw [Reader.map, Reader.andThen]
    rcases readEntries eof opener rest with e | ⟨entries, rest'⟩ <;> rfl

/-- An instruction is its keyword, a sign of equality and a value. -/
theorem readPlain_keyword_eq_andThen (eof p : Position) (k : Keyword) :
    readPlain eof p k.text = Reader.andThen (readExactly eof .equals) fun _ =>
      Reader.map (instruction p k) (readValue eof) := by
  funext ts
  rw [readPlain_keyword, Reader.andThen]
  rcases readExactly eof .equals ts with e | ⟨q, rest⟩
  · rfl
  · dsimp only
    rw [Reader.map, Reader.andThen]
    rcases readValue eof rest with e | ⟨value, rest'⟩ <;> rfl

/-- Behind a keyword reading is prompt; another word is blamed itself. -/
theorem prompt_readPlain (eof p : Position) (word : String) :
    (∀ ts, Prompt (readPlain eof p word) ts) ∨
      ∀ ts, readPlain eof p word ts = .error ⟨p, .keyword, .unknownKeyword word⟩ := by
  -- the keywords in the order in which the reader tries them
  by_cases hbase : word = "base"
  · subst hbase
    rw [readPlain_base]
    exact .inl fun ts => (prompt_readReference eof ts).map _
  · by_cases hdep : word = "dep"
    · subst hdep
      rw [readPlain_dep]
      exact .inl fun ts => (prompt_readReference eof ts).map _
    · cases hblock : BlockKeyword.ofWord? word with
      | some k =>
        rw [← text_of_blockKeyword hblock, readPlain_blockKeyword_eq_andThen]
        exact .inl fun ts => (prompt_readExactly eof .openBrace ts).andThen
          (fun opener rest _ => (prompt_readEntries eof opener rest).map _)
          fun opener => ((prompt_readEntries eof opener []).map _).exists_taken
      | none =>
        cases hkeyword : Keyword.ofWord? word with
        | some k =>
          rw [← text_of_keyword hkeyword, readPlain_keyword_eq_andThen]
          exact .inl fun ts => (prompt_readExactly eof .equals ts).andThen
            (fun _ rest _ => (prompt_readValue eof rest).map _)
            fun _ => ((prompt_readValue eof []).map _).exists_taken
        | none =>
          refine .inr fun ts => ?_
          rw [readPlain, if_neg hbase, if_neg hdep, hblock]
          dsimp only
          rw [hkeyword]

/-! ### Steps -/

/-- Reads an opening brace behind names. -/
def readOpener (eof : Position) (names : List Prerequisite) :
    Reader (List Prerequisite × Position) :=
  Reader.map (names, ·) (readExactly eof .openBrace)

/-- Behind names, an opening brace is taken. -/
theorem takes_readOpener (eof p : Position) (names : List Prerequisite) :
    Takes (readOpener eof names) [⟨p, .openBrace⟩] (names, p) := fun rest => by
  rw [readOpener, Reader.map, List.singleton_append,
    Reader.andThen_of_ok (readExactly_self eof p .openBrace rest)]

/-- Names are read as far as commas go, so that what follows them counts: the opening brace. -/
theorem prompt_readNames (eof : Position) (ts : Tokens) :
    Prompt (Reader.andThen (readNames eof) (readOpener eof)) ts := by
  have hone : ∀ p q name, Taken (Reader.andThen (readNames eof) (readOpener eof))
      [⟨p, .word name⟩, ⟨q, .openBrace⟩] := by
    intro p q name
    refine ⟨([⟨p, name⟩], q), fun rest => ?_⟩
    have hnames : readNames eof ([⟨p, .word name⟩, ⟨q, .openBrace⟩] ++ rest)
        = .ok ([⟨p, name⟩], ⟨q, .openBrace⟩ :: rest) := rfl
    rw [Reader.andThen_of_ok hnames]
    exact takes_readOpener eof q _ rest
  fun_induction readNames eof ts with
  | case1 p name q rest names rest' h ih | case2 p name q rest e h ih =>
    -- a comma asks for one more name, and the brace comes behind the last of them
    refine (ih.map fun read => (⟨p, name⟩ :: read.1, read.2)).behind
      [⟨p, .word name⟩, ⟨q, .comma⟩] fun ts => ?_
    simp only [List.cons_append, List.nil_append, readNames, Reader.map, Reader.andThen, readOpener]
    rcases readNames eof ts with e | ⟨names, rest⟩
    · rfl
    · dsimp only
      rcases readExactly eof .openBrace rest with e | ⟨opener, rest'⟩ <;> rfl
  | case3 p name rest hcomma =>
    rcases rest with _ | ⟨⟨q, t⟩, rest⟩
    · exact .fails rfl (.ends _ rfl (hone p p name))
    · have hblames := blames_unexpected eof (.exactly .openBrace) ⟨q, t⟩ []
      cases t with
      | comma => exact absurd rfl (hcomma _ _)
      | openBrace =>
        obtain ⟨names, h⟩ := hone p q name
        exact .takes [_, _] rfl h
      | _ => exact .fails rfl (.stops [_] _ rfl hblames (hone p q name) fun _ => rfl)
  | case4 ts _ hword =>
    rcases ts with _ | ⟨⟨q, t⟩, rest⟩
    · exact .fails rfl (.ends _ rfl (hone eof eof ""))
    · have hblames := blames_unexpected eof .word ⟨q, t⟩ []
      cases t with
      | word => exact absurd rfl (hword _ _ _)
      | _ => exact .fails rfl (.stops [] _ rfl hblames (hone q q "") fun _ => rfl)

/-- The names that a step comes after are read promptly, together with the brace behind them. -/
theorem prompt_readAfter (eof : Position) (ts : Tokens) :
    Prompt (Reader.andThen (readAfter eof) (readOpener eof)) ts := by
  have hbrace : ∀ p, Taken (Reader.andThen (readAfter eof) (readOpener eof)) [⟨p, .openBrace⟩] :=
    fun p => ⟨([], p), takes_readOpener eof p []⟩
  rcases ts with _ | ⟨⟨p, t⟩, rest⟩
  · exact .fails rfl (.ends _ rfl (hbrace eof))
  · have hblames := blames_unexpected eof (.exactly .openBrace) ⟨p, t⟩ []
    cases t with
    | after => exact (prompt_readNames eof rest).behind [⟨p, .after⟩] fun _ => rfl
    | openBrace =>
      obtain ⟨names, h⟩ := hbrace p
      exact .takes [_] rfl h
    | _ => exact .fails rfl (.stops [] _ rfl hblames (hbrace p) fun _ => rfl)

/-- A header is a name, the names that the step comes after and an opening brace. -/
theorem readHeader_eq_andThen (eof p : Position) (before : List Declaration) :
    readHeader eof p before = Reader.andThen (readWord eof) fun name =>
      Reader.map (fun (after, opener) => ⟨p, name.value, after, opener, before⟩)
        (Reader.andThen (readAfter eof) (readOpener eof)) := by
  funext ts
  rw [readHeader, Reader.andThen]
  rcases readWord eof ts with e | ⟨name, rest⟩
  · rfl
  · dsimp only
    rw [Reader.map, Reader.andThen, Reader.andThen]
    rcases readAfter eof rest with e | ⟨after, rest'⟩
    · rfl
    · dsimp only
      rw [readOpener, Reader.map, Reader.andThen]
      rcases readExactly eof .openBrace rest' with e | ⟨opener, rest''⟩ <;> rfl

/-- The header of a step is read promptly. -/
theorem prompt_readHeader (eof p : Position) (before : List Declaration) (ts : Tokens) :
    Prompt (readHeader eof p before) ts := by
  rw [readHeader_eq_andThen]
  exact (prompt_readWord eof ts).andThen (fun _ rest _ => (prompt_readAfter eof rest).map _)
    fun _ => ((prompt_readAfter eof []).map _).exists_taken

/-! ### The whole specification -/

/-- The tokens that are read without a fault, in the groups that are open. -/
def Readable (eof : Position) (groups : List OpenStep) (latestFirst : List Declaration)
    (ts : Tokens) : Prop :=
  ∃ ds, readFrom eof groups latestFirst ts = .ok ds

/-- Whatever groups are open, they can be closed. -/
theorem exists_read (eof : Position) (groups : List OpenStep) (latestFirst : List Declaration) :
    ∃ ts, Readable eof groups latestFirst ts := by
  induction groups generalizing latestFirst with
  | nil => exact ⟨[], latestFirst.reverse, by rw [readFrom]⟩
  | cons group outer ih =>
    obtain ⟨ts, ds, h⟩ := ih (group.close latestFirst)
    exact ⟨⟨.start, .closeBrace⟩ :: ts, ds, by rw [readFrom]; exact h⟩

/-- **A part and the rest.** Behind tokens `front`, reading a part and then the rest fails as early
    as possible if both do. -/
theorem earliest_of_part {r : Reader α} {f : Tokens → Except SyntaxError (List Declaration)}
    {next : α → Tokens → Except SyntaxError (List Declaration)} {ts : Tokens} {e : SyntaxError}
    (front : Tokens) (herror : ∀ ts e, r ts = .error e → f (front ++ ts) = .error e)
    (hok : ∀ ts a rest, r ts = .ok (a, rest) → f (front ++ ts) = next a rest)
    (hr : Prompt r ts) (h : f (front ++ ts) = .error e)
    (hnext : ∀ a rest, r ts = .ok (a, rest) → next a rest = .error e →
      Earliest (next a) (fun ts => ∃ ds, next a ts = .ok ds) rest e)
    (hmore : ∀ a, ∃ more ds, next a more = .ok ds) :
    Earliest f (fun ts => ∃ ds, f ts = .ok ds) (front ++ ts) e := by
  have htaken : ∀ {a front'}, Takes r front' a → ∀ ts, f (front ++ front' ++ ts) = next a ts := by
    intro a front' htakes ts
    rw [List.append_assoc, hok _ _ _ (htakes ts)]
  cases hr with
  | @takes rest a front' hts htakes =>
    -- the part is read, so the rest fails
    subst hts
    rw [hok _ _ _ (htakes rest)] at h
    rw [← List.append_assoc]
    refine (hnext a rest (htakes rest) h).behind (front ++ front') ?_ ?_
    · intro ts e he
      rw [htaken htakes, he]
    · rintro ts ⟨ds, hds⟩
      exact ⟨[], ds, by rw [List.append_nil, htaken htakes, hds]⟩
  | @fails e' he hearliest =>
    rw [herror _ _ he] at h
    cases h
    refine hearliest.behind front herror ?_
    rintro ts ⟨a, ha⟩
    -- what completes the part is itself completed by the rest
    obtain ⟨more, ds, hds⟩ := hmore a
    exact ⟨more, ds, by rw [htaken ha, hds]⟩

section Parts

variable {eof p : Position} {groups : List OpenStep} {latestFirst : List Declaration}
  {rest : Tokens} {e : SyntaxError}

/-- A failure at a step is as early as possible, if one in its body is. -/
theorem earliest_step
    (h : readFrom eof groups latestFirst (⟨p, .step⟩ :: rest) = .error e)
    (hnext : ∀ group rest', readHeader eof p latestFirst rest = .ok (group, rest') →
      readFrom eof (group :: groups) [] rest' = .error e →
      Earliest (readFrom eof (group :: groups) []) (Readable eof (group :: groups) []) rest' e) :
    Earliest (readFrom eof groups latestFirst) (Readable eof groups latestFirst)
      (⟨p, .step⟩ :: rest) e := by
  refine earliest_of_part [⟨p, .step⟩] ?_ ?_ (prompt_readHeader eof p latestFirst rest)
    h hnext fun group => exists_read eof (group :: groups) []
  · intro ts e he
    rw [List.singleton_append, readFrom_step, he]
  · intro ts group rest' hok
    rw [List.singleton_append, readFrom_step, hok]

/-- A failure at a declaration that is no step is as early as possible, if one behind it is. -/
theorem earliest_word {word : String}
    (h : readFrom eof groups latestFirst (⟨p, .word word⟩ :: rest) = .error e)
    (hnext : ∀ d rest', readPlain eof p word rest = .ok (d, rest') →
      readFrom eof groups (d :: latestFirst) rest' = .error e →
      Earliest (readFrom eof groups (d :: latestFirst)) (Readable eof groups (d :: latestFirst))
        rest' e) :
    Earliest (readFrom eof groups latestFirst) (Readable eof groups latestFirst)
      (⟨p, .word word⟩ :: rest) e := by
  rcases prompt_readPlain eof p word with hprompt | hunknown
  · refine earliest_of_part [⟨p, .word word⟩] ?_ ?_ (hprompt rest) h hnext
      fun d => exists_read eof groups (d :: latestFirst)
    · intro ts e he
      rw [List.singleton_append, readFrom_word, he]
    · intro ts d rest' hok
      rw [List.singleton_append, readFrom_word, hok]
  · -- the word itself is the first that cannot stand there
    have hstops : ∀ rest, readFrom eof groups latestFirst (⟨p, .word word⟩ :: rest)
        = .error ⟨p, .keyword, .unknownKeyword word⟩ := by
      intro rest
      rw [readFrom_word, hunknown]
    rw [hstops] at h
    cases h
    obtain ⟨more, hmore⟩ := exists_read eof groups latestFirst
    exact .stops [] more rfl ⟨rfl, rfl⟩ hmore hstops

end Parts

/-- **Reading on.** Whatever groups are open, a failure is as early as possible. -/
theorem earliest_readFrom {eof : Position} {groups : List OpenStep}
    {latestFirst : List Declaration} {ts : Tokens} {e : SyntaxError}
    (h : readFrom eof groups latestFirst ts = .error e) :
    Earliest (readFrom eof groups latestFirst) (Readable eof groups latestFirst) ts e := by
  fun_induction readFrom eof groups latestFirst ts with
  | case1 latestFirst => cases h
  | case2 latestFirst group outer =>
    cases h
    obtain ⟨more, hmore⟩ := exists_read eof (group :: outer) latestFirst
    exact .ends more rfl hmore
  | case3 groups latestFirst p rest ih =>
    refine (ih h).behind [⟨p, .semicolon⟩] ?_ ?_
    · intro ts e he
      rw [List.singleton_append, readFrom, he]
    · rintro ts ⟨ds, hds⟩
      exact ⟨[], ds, by rw [List.append_nil, List.singleton_append, readFrom, hds]⟩
  | case4 latestFirst p rest =>
    -- a brace that closes nothing: without it the specification ends here
    cases h
    refine .stops [] [] rfl ⟨rfl, rfl⟩ ?_ ?_
    · exact ⟨latestFirst.reverse, by rw [List.append_nil, readFrom]⟩
    · intro rest
      rw [List.nil_append, readFrom]
  | case5 latestFirst p rest group outer ih =>
    refine (ih h).behind [⟨p, .closeBrace⟩] ?_ ?_
    · intro ts e he
      rw [List.singleton_append, readFrom, he]
    · rintro ts ⟨ds, hds⟩
      exact ⟨[], ds, by rw [List.append_nil, List.singleton_append, readFrom, hds]⟩
  | case6 groups latestFirst p rest e' hheader =>
    refine earliest_step (by rw [readFrom_step, hheader]; exact h) fun group rest' hok => ?_
    rw [hheader] at hok
    cases hok
  | case7 groups latestFirst p rest group rest' hheader ih =>
    refine earliest_step (by rw [readFrom_step, hheader]; exact h) fun group' rest'' hok => ?_
    rw [hheader] at hok
    cases hok
    exact ih
  | case8 groups latestFirst p rest word e' hplain =>
    refine earliest_word (by rw [readFrom_word, hplain]; exact h) fun d rest' hok => ?_
    rw [hplain] at hok
    cases hok
  | case9 groups latestFirst p rest word d rest' hplain ih =>
    refine earliest_word (by rw [readFrom_word, hplain]; exact h) fun d' rest'' hok => ?_
    rw [hplain] at hok
    cases hok
    exact ih
  | case10 groups latestFirst p t rest hsemicolon hclose hstep hword =>
    obtain ⟨more, hmore⟩ := exists_read eof groups latestFirst
    cases h
    refine .stops [] more rfl ⟨rfl, rfl⟩ hmore fun rest => ?_
    rw [List.nil_append, readFrom]
    · exact hsemicolon
    · exact hclose
    · exact hstep
    · exact hword

/-- The tokens of a specification. -/
def Parses (ts : Tokens) : Prop := ∃ eof ds, read eof ts = .ok ds

/-- Where the text ends does not matter for tokens that can be read. -/
theorem Parses.exists_read {ts : Tokens} (h : Parses ts) (eof : Position) :
    ∃ ds, read eof ts = .ok ds := by
  obtain ⟨eof', ds, hread⟩ := h
  obtain ⟨ds', hread', -⟩ := read_of_statements eof (statements_of_read hread)
  exact ⟨ds', hread'⟩

/-- **Errors come as early as possible.** If the tokens end too soon, they go on to a specification.
    Else the error is at one of them and about it; the tokens before it go on to a specification,
    and together with it they do not. -/
theorem read_error_earliest (eof : Position) (ts : Tokens) (e : SyntaxError)
    (h : read eof ts = .error e) :
    (e.found = .endOfInput → ∃ more, more ≠ [] ∧ Parses (ts ++ more)) ∧
      (e.found ≠ .endOfInput → ∃ k t, ts[k]? = some t ∧ e.position = t.position ∧
        e.found.Names t.value ∧ (∃ more, Parses (ts.take k ++ more)) ∧
          ∀ more, ¬ Parses (ts.take (k + 1) ++ more)) := by
  cases earliest_readFrom h with
  | ends more hfound hmore =>
    refine ⟨fun _ => ⟨more, ?_, eof, hmore⟩, fun hne => absurd hfound hne⟩
    rintro rfl
    obtain ⟨ds, hds⟩ := hmore
    rw [List.append_nil] at hds
    rw [read, hds] at h
    cases h
  | @stops rest _ t _ front more hts hblames hmore hstops =>
    subst hts
    refine ⟨fun hfound => absurd hfound hblames.2.ne_endOfInput, fun _ => ?_⟩
    refine ⟨front.length, t, by simp, hblames.1, hblames.2, ⟨more, eof, ?_⟩,
      fun more' hparses => ?_⟩
    · rw [List.take_left]
      exact hmore
    · -- the same error comes whatever follows the token
      have htake : (front ++ t :: rest).take (front.length + 1) = front ++ [t] := by
        rw [List.append_cons, List.take_left' (by simp)]
      obtain ⟨ds, hds⟩ := hparses.exists_read eof
      rw [htake, List.append_assoc, List.singleton_append, read, hstops] at hds
      cases hds

/-- The tokens of `step a { run = ["x" "y"] }`, with a comma left out. -/
def commaless : Tokens :=
  [⟨⟨1, 1⟩, .step⟩, ⟨⟨1, 6⟩, .word "a"⟩, ⟨⟨1, 8⟩, .openBrace⟩, ⟨⟨1, 10⟩, .word "run"⟩,
    ⟨⟨1, 14⟩, .equals⟩, ⟨⟨1, 16⟩, .openBracket⟩, ⟨⟨1, 17⟩, .literal "x"⟩,
    ⟨⟨1, 21⟩, .literal "y"⟩, ⟨⟨1, 24⟩, .closeBracket⟩, ⟨⟨1, 26⟩, .closeBrace⟩]

/-- The second string is blamed; without it and what follows, the tokens just end too soon. -/
theorem read_error_commaless :
    (∃ e, read ⟨1, 27⟩ commaless = .error e ∧ e.found ≠ .endOfInput ∧
      ∃ k t, commaless[k]? = some t ∧ e.position = t.position ∧ e.found.Names t.value ∧
        (∃ more, Parses (commaless.take k ++ more)) ∧
          ∀ more, ¬ Parses (commaless.take (k + 1) ++ more)) ∧
    ∃ e, read ⟨1, 20⟩ (commaless.take 7) = .error e ∧ e.found = .endOfInput ∧
      ∃ more, more ≠ [] ∧ Parses (commaless.take 7 ++ more) := by
  have hread : read ⟨1, 27⟩ commaless
      = .error ⟨⟨1, 21⟩, .listSeparator, .token (.literal "y")⟩ := by
    with_unfolding_all rfl
  have hshort : read ⟨1, 20⟩ (commaless.take 7)
      = .error ⟨⟨1, 16⟩, .closerOf .closeBracket, .endOfInput⟩ := by
    with_unfolding_all rfl
  exact ⟨⟨_, hread, by simp, (read_error_earliest _ _ _ hread).2 (by simp)⟩,
    ⟨_, hshort, rfl, (read_error_earliest _ _ _ hshort).1 rfl⟩⟩

end Declaration

end ImageSpec

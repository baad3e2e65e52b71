import ImageSpec.Proofs.ReferenceText
import ImageSpec.Proofs.Relocation

namespace ImageSpec

/-!
# The grammar of specifications

    statements := { ";" | plain | step }
    plain      := ("base" | "dep") "=" STRING | KEYWORD "=" value
                | ("env" | "label") "{" { (WORD | STRING) "=" STRING ["," | ";"] } "}"
    step       := "step" WORD ["after" WORD { "," WORD }] "{" statements "}"
    value      := STRING | INTEGER | "[" [STRING { "," STRING } [","]] "]"

The string behind `base` and `dep` has to be a reference.  A derivation relates tokens to
declarations; positions have no part in it.

* `Grammar.Statements` — the derivations.
* `Declaration.statements_of_read` — what is read is derived, all tokens of it.
* `Declaration.readFrom_unread` — what is derived is read, in whatever groups are open.
* `Declaration.tokensAll` — declarations as tokens; `statements_tokensAll` derives them again.
* `Declaration.read_iff_statements` — reading accepts exactly the grammar.
-/

namespace Grammar

/-- The tokens of a value. -/
inductive Valued : List Token → Value → Prop where
  | text (s : String) : Valued [.literal s] (.text s)
  | integer (n : Nat) : Valued [.integer n] (.integer n)
  | list (items : List String) {trailing : List Token}
    (htrailing : trailing = [] ∨ trailing = [.comma] ∧ items ≠ []) :
    Valued ([.openBracket] ++ (items.map Token.literal).intersperse .comma ++ trailing
      ++ [.closeBracket]) (.list items)

/-- The tokens of the entries of a block. -/
inductive Entries : List Token → List Entry → Prop where
  | nil : Entries [] []
  | cons {key : Token} {separator ts : List Token} {e : Entry} {es : List Entry}
    (hkey : key = .word e.key ∨ key = .literal e.key)
    (hseparator : separator = [] ∨ separator = [.comma] ∨ separator = [.semicolon])
    (hes : Entries ts es) :
    Entries ([key, .equals, .literal e.value] ++ separator ++ ts) (e :: es)

/-- The tokens of a declaration that opens no group. -/
inductive Plain : List Token → Declaration → Prop where
  | base (p : Position) {s : String} {r : Reference} (hr : Reference.parse s = .ok r) :
    Plain [.word "base", .equals, .literal s] (.base p r)
  | dep (p : Position) {s : String} {r : Reference} (hr : Reference.parse s = .ok r) :
    Plain [.word "dep", .equals, .literal s] (.dep p r)
  | instruction (p : Position) (k : Keyword) {ts : List Token} {value : Value}
    (hvalue : Valued ts value) : Plain ([.word k.text, .equals] ++ ts) (.instruction p k value)
  | block (p : Position) (k : BlockKeyword) {ts : List Token} {es : List Entry}
    (hes : Entries ts es) :
    Plain ([.word k.text, .openBrace] ++ ts ++ [.closeBrace]) (.block p k es)

/-- The names that a step comes after, if there are any. -/
def afterClause : List String → List Token
  | [] => []
  | names => .after :: (names.map Token.word).intersperse .comma

/-- A step up to its opening brace. -/
def header (name : String) (after : List String) : List Token :=
  [.step, .word name] ++ afterClause after ++ [.openBrace]

/-- The tokens of declarations, with semicolons before, between and after them. -/
inductive Statements : List Token → List Declaration → Prop where
  | nil : Statements [] []
  | separator {ts : List Token} {ds : List Declaration} (hds : Statements ts ds) :
    Statements (.semicolon :: ts) ds
  | plain {ts us : List Token} {d : Declaration} {ds : List Declaration} (hd : Plain ts d)
    (hds : Statements us ds) : Statements (ts ++ us) (d :: ds)
  | step (p : Position) (name : String) (after : List Prerequisite) {ts us : List Token}
    {body ds : List Declaration} (hbody : Statements ts body) (hds : Statements us ds) :
    Statements (header name (after.map Prerequisite.name) ++ ts ++ [.closeBrace] ++ us)
      (.step p name after body :: ds)

end Grammar

namespace Declaration

open Grammar

/-- The tokens without their positions. -/
def values (ts : Tokens) : List Token := ts.map Placed.value

@[simp] theorem values_nil : values [] = [] := rfl

@[simp] theorem values_cons (t : Placed Token) (ts : Tokens) :
    values (t :: ts) = t.value :: values ts := rfl

/-! ### What is read is derived -/

/-- What is read as a certain token is that token. -/
theorem values_of_readExactly {eof p : Position} {t : Token} {ts rest : Tokens}
    (h : readExactly eof t ts = .ok (p, rest)) : values ts = t :: values rest := by
  cases ts with
  | nil => cases h
  | cons next tail =>
    rw [readExactly] at h
    split at h
    · next hnext =>
      cases h
      rw [values_cons, hnext]
    · cases h

/-- What is read as an assigned text is a sign of equality and a literal. -/
theorem values_of_readAssigned {eof : Position} {s : Placed String} {ts rest : Tokens}
    (h : readAssigned eof ts = .ok (s, rest)) :
    values ts = .equals :: .literal s.value :: values rest := by
  unfold readAssigned at h
  split at h
  · cases h
  · next hequals =>
    rw [values_of_readExactly hequals]
    unfold readLiteral at h
    split at h <;> cases h
    rfl

/-- What is read as the rest of a list are its items with commas between them, perhaps one more
    comma, and the bracket that closes it. -/
theorem values_of_readItems {eof opener : Position} {items : List String} {ts rest : Tokens}
    (h : readItems eof opener ts = .ok (items, rest)) :
    ∃ trailing, (trailing = [] ∨ trailing = [.comma] ∧ items ≠ []) ∧
      values ts = (items.map Token.literal).intersperse .comma ++ trailing
        ++ [.closeBracket] ++ values rest := by
  fun_induction readItems eof opener ts generalizing items rest with
  | case2 p tail =>
    cases h
    exact ⟨[], Or.inl rfl, rfl⟩
  | case3 p item q tail items' rest' hitems ih =>
    cases h
    obtain ⟨trailing, htrailing, hvalues⟩ := ih hitems
    cases items' with
    | nil =>
      -- the bracket closes right behind the comma, which is thus a trailing one
      have hnil : trailing = [] := by simpa using htrailing
      refine ⟨[.comma], Or.inr ⟨rfl, by simp⟩, ?_⟩
      rw [values_cons, values_cons, hvalues, hnil]
      rfl
    | cons next items' =>
      refine ⟨trailing, by simpa using htrailing, ?_⟩
      rw [values_cons, values_cons, hvalues]
      rfl
  | case5 p item q tail =>
    cases h
    exact ⟨[], Or.inl rfl, rfl⟩
  | _ => cases h

/-- What is read as a value is derived as one. -/
theorem valued_of_readValue {eof : Position} {value : Value} {ts rest : Tokens}
    (h : readValue eof ts = .ok (value, rest)) :
    ∃ front, Valued front value ∧ values ts = front ++ values rest := by
  unfold readValue at h
  split at h
  · cases h
    exact ⟨_, .text _, rfl⟩
  · cases h
    exact ⟨_, .integer _, rfl⟩
  · split at h <;> cases h
    next items hitems =>
      obtain ⟨trailing, htrailing, hvalues⟩ := values_of_readItems hitems
      refine ⟨_, .list items htrailing, ?_⟩
      rw [values_cons, hvalues]
      simp
  · cases h

/-- What is skipped between entries is nothing, a comma or a semicolon. -/
theorem exists_separator (ts : Tokens) : ∃ separator,
    (separator = [] ∨ separator = [.comma] ∨ separator = [.semicolon]) ∧
      values ts = separator ++ values (skipSeparator ts) := by
  unfold skipSeparator
  split
  · exact ⟨[.comma], by simp, rfl⟩
  · exact ⟨[.semicolon], by simp, rfl⟩
  · exact ⟨[], by simp, rfl⟩

/-- A key is written as a word or as a literal. -/
theorem eq_of_entryKey? {t : Token} {key : String} (h : entryKey? t = some key) :
    t = .word key ∨ t = .literal key := by
  cases t <;> simp_all [entryKey?]

/-- What is read as the rest of a block are entries and the brace that closes it. -/
theorem entries_of_readEntries {eof opener : Position} {entries : List Entry} {ts rest : Tokens}
    (h : readEntries eof opener ts = .ok (entries, rest)) :
    ∃ front, Entries front entries ∧ values ts = front ++ [.closeBrace] ++ values rest := by
  fun_induction readEntries eof opener ts generalizing entries rest with
  | case2 p tail =>
    cases h
    exact ⟨[], .nil, rfl⟩
  | case6 next tail hb key hkey value rest₁ hvalue entries₁ rest₂ hentries ih =>
    cases h
    obtain ⟨front, hfront, hvalues⟩ := ih hentries
    obtain ⟨separator, hseparator, hskip⟩ := exists_separator rest₁
    refine ⟨_, .cons (eq_of_entryKey? hkey) hseparator hfront, ?_⟩
    rw [values_cons, values_of_readAssigned hvalue, hskip, hvalues]
    simp
  | _ => cases h

/-- What is read as a reference is a sign of equality and a literal that parses as one. -/
theorem values_of_readReference {eof : Position} {r : Reference} {ts rest : Tokens}
    (h : readReference eof ts = .ok (r, rest)) :
    ∃ s, Reference.parse s = .ok r ∧ values ts = .equals :: .literal s :: values rest := by
  unfold readReference at h
  split at h
  · cases h
  · next written _ hwritten =>
    split at h <;> cases h
    next hparse => exact ⟨written.value, hparse, values_of_readAssigned hwritten⟩

/-- A keyword is found by its own text. -/
theorem text_of_keyword {word : String} {k : Keyword} (h : Keyword.ofWord? word = some k) :
    k.text = word := by
  have hk := List.find?_some h
  simpa using hk

/-- The keyword of a block is found by its own text. -/
theorem text_of_blockKeyword {word : String} {k : BlockKeyword}
    (h : BlockKeyword.ofWord? word = some k) : k.text = word := by
  have hk := List.find?_some h
  simpa using hk

/-- What is read as a declaration that is no step is derived as one. -/
theorem plain_of_readPlain {eof p : Position} {word : String} {d : Declaration} {ts rest : Tokens}
    (h : readPlain eof p word ts = .ok (d, rest)) :
    ∃ front, Plain (.word word :: front) d ∧ values ts = front ++ values rest := by
  unfold readPlain at h
  -- the keyword is tried as that of a base image, a dependency, a block and an instruction
  split at h
  · next hword =>
    split at h <;> cases h
    next hreference =>
      obtain ⟨s, hs, hvalues⟩ := values_of_readReference hreference
      exact ⟨[.equals, .literal s], hword ▸ .base p hs, hvalues⟩
  · split at h
    · next hword =>
      split at h <;> cases h
      next hreference =>
        obtain ⟨s, hs, hvalues⟩ := values_of_readReference hreference
        exact ⟨[.equals, .literal s], hword ▸ .dep p hs, hvalues⟩
    · split at h
      · next keyword hkeyword =>
        split at h
        · cases h
        · next hopener =>
          split at h <;> cases h
          next entries hentries =>
            obtain ⟨front, hfront, hvalues⟩ := entries_of_readEntries hentries
            have hblock := Plain.block p keyword hfront
            rw [text_of_blockKeyword hkeyword] at hblock
            refine ⟨_, hblock, ?_⟩
            rw [values_of_readExactly hopener, hvalues]
            simp
      · split at h
        · next keyword hkeyword =>
          split at h
          · cases h
          · next hequals =>
            split at h <;> cases h
            next value hvalue =>
              obtain ⟨front, hfront, hvalues⟩ := valued_of_readValue hvalue
              have hinstruction := Plain.instruction p keyword hfront
              rw [text_of_keyword hkeyword] at hinstruction
              refine ⟨_, hinstruction, ?_⟩
              rw [values_of_readExactly hequals, hvalues]
              simp
        · cases h

/-- What is read as names are words with commas between them, at least one. -/
theorem values_of_readNames {eof : Position} {names : List Prerequisite} {ts rest : Tokens}
    (h : readNames eof ts = .ok (names, rest)) :
    names ≠ [] ∧ values ts
      = ((names.map Prerequisite.name).map Token.word).intersperse .comma ++ values rest := by
  fun_induction readNames eof ts generalizing names rest with
  | case1 p name q tail names' rest' hnames ih =>
    cases h
    obtain ⟨hne, hvalues⟩ := ih hnames
    refine ⟨by simp, ?_⟩
    cases names' with
    | nil => exact absurd rfl hne
    | cons next names' =>
      rw [values_cons, values_cons, hvalues]
      rfl
  | case3 p name tail hcomma =>
    cases h
    exact ⟨by simp, rfl⟩
  | _ => cases h

/-- What is read behind the name of a step is the clause for the names that it comes after. -/
theorem values_of_readAfter {eof : Position} {names : List Prerequisite} {ts rest : Tokens}
    (h : readAfter eof ts = .ok (names, rest)) :
    values ts = afterClause (names.map Prerequisite.name) ++ values rest := by
  unfold readAfter at h
  split at h
  · obtain ⟨hne, hvalues⟩ := values_of_readNames h
    cases names with
    | nil => exact absurd rfl hne
    | cons first names =>
      rw [values_cons, hvalues]
      rfl
  · cases h
    rfl

/-- What is read as the header of a step is its header. -/
theorem values_of_readHeader {eof p : Position} {before : List Declaration} {s : OpenStep}
    {ts rest : Tokens} (h : readHeader eof p before ts = .ok (s, rest)) :
    s.before = before ∧
      .step :: values ts = header s.name (s.after.map Prerequisite.name) ++ values rest := by
  unfold readHeader at h
  split at h
  · cases h
  · next hword =>
    unfold readWord at hword
    split at hword <;> cases hword
    split at h
    · cases h
    · next hafter =>
      split at h <;> cases h
      next hopener =>
        refine ⟨rfl, ?_⟩
        rw [values_cons, values_of_readAfter hafter, values_of_readExactly hopener]
        simp [header]

/-- What the rest of the tokens has to be for declarations to come out: statements for the innermost
    open step and its closing brace, then the same for the step around it, and so on. -/
def Completes : List OpenStep → List Declaration → List Token → List Declaration → Prop
  | [], latestFirst, ts, ds => ∃ rest, Statements ts rest ∧ ds = latestFirst.reverse ++ rest
  | group :: outer, latestFirst, ts, ds => ∃ inner us rest, Statements inner rest ∧
      ts = inner ++ [.closeBrace] ++ us ∧
      Completes outer (group.close (rest.reverse ++ latestFirst)) us ds

/-- A semicolon between declarations adds nothing. -/
theorem Completes.separator {groups : List OpenStep} {latestFirst ds : List Declaration}
    {ts : List Token} (h : Completes groups latestFirst ts ds) :
    Completes groups latestFirst (.semicolon :: ts) ds := by
  cases groups with
  | nil =>
    obtain ⟨rest, hrest, rfl⟩ := h
    exact ⟨rest, .separator hrest, rfl⟩
  | cons group outer =>
    obtain ⟨inner, us, rest, hrest, rfl, houter⟩ := h
    exact ⟨.semicolon :: inner, us, rest, .separator hrest, rfl, houter⟩

/-- Tokens that put one declaration in front of any others. -/
theorem Completes.cons {groups : List OpenStep} {latestFirst ds : List Declaration}
    {d : Declaration} {ts us : List Token}
    (hd : ∀ {us ds}, Statements us ds → Statements (ts ++ us) (d :: ds))
    (h : Completes groups (d :: latestFirst) us ds) :
    Completes groups latestFirst (ts ++ us) ds := by
  cases groups with
  | nil =>
    obtain ⟨rest, hrest, rfl⟩ := h
    exact ⟨d :: rest, hd hrest, by simp⟩
  | cons group outer =>
    obtain ⟨inner, us, rest, hrest, rfl, houter⟩ := h
    refine ⟨ts ++ inner, us, d :: rest, hd hrest, by simp, ?_⟩
    simpa using houter

/-- **Soundness.** What is read with some steps open completes them. -/
theorem completes_of_readFrom {eof : Position} {groups : List OpenStep}
    {latestFirst ds : List Declaration} {ts : Tokens}
    (h : readFrom eof groups latestFirst ts = .ok ds) :
    Completes groups latestFirst (values ts) ds := by
  fun_induction readFrom eof groups latestFirst ts with
  | case1 latestFirst =>
    cases h
    exact ⟨[], .nil, by simp⟩
  | case3 groups latestFirst p rest ih => exact (ih h).separator
  | case5 latestFirst p rest group outer ih => exact ⟨[], values rest, [], .nil, rfl, ih h⟩
  | case7 groups latestFirst p rest group rest' hheader ih =>
    -- the step is whole when the group that is opened here has been closed
    obtain ⟨inner, us, body, hbody, hvalues, houter⟩ := ih h
    obtain ⟨hbefore, htokens⟩ := values_of_readHeader hheader
    have hstep : values (⟨p, .step⟩ :: rest)
        = (header group.name (group.after.map Prerequisite.name) ++ inner ++ [.closeBrace])
          ++ us := by
      rw [values_cons, htokens, hvalues]
      simp
    rw [hstep]
    refine Completes.cons (d := .step group.position group.name group.after body) ?_ ?_
    · intro us ds hds
      exact .step group.position group.name group.after hbody hds
    · simpa [OpenStep.close, hbefore] using houter
  | case9 groups latestFirst p rest word d rest' hplain ih =>
    obtain ⟨front, hd, hvalues⟩ := plain_of_readPlain hplain
    have hword : values (⟨p, .word word⟩ :: rest) = (.word word :: front) ++ values rest' := by
      rw [values_cons, hvalues]
      rfl
    rw [hword]
    exact Completes.cons (fun hds => .plain hd hds) (ih h)
  | _ => cases h

/-- **Soundness.** What is read is derived from the tokens, and from all of them. -/
theorem statements_of_read {eof : Position} {ts : Tokens} {ds : List Declaration}
    (h : read eof ts = .ok ds) : Statements (values ts) ds := by
  obtain ⟨rest, hrest, rfl⟩ := completes_of_readFrom h
  exact hrest

/-! ### What is derived is read

Since reading does not look at positions, it is enough to read tokens that are all at the start.
-/

/-- Tokens to be read, all at the start. -/
def unread (ts : List Token) : Tokens := ts.map (Placed.mk .start)

@[simp] theorem unread_nil : unread [] = [] := rfl

@[simp] theorem unread_cons (t : Token) (ts : List Token) :
    unread (t :: ts) = ⟨.start, t⟩ :: unread ts := rfl

/-- Tokens put back are put back part by part. -/
@[simp] theorem unread_append (ts us : List Token) :
    unread (ts ++ us) = unread ts ++ unread us := List.map_append

/-- Forgetting all positions leaves the values of tokens. -/
theorem map_relocate_eq_unread (ts : Tokens) :
    ts.map (Placed.relocate fun _ => .start) = unread (values ts) := by
  simp [unread, values, Placed.relocate]

theorem readExactly_self (eof p : Position) (t : Token) (rest : Tokens) :
    readExactly eof t (⟨p, t⟩ :: rest) = .ok (p, rest) := by
  simp [readExactly]

/-- A sign of equality and a literal are read as an assigned text. -/
theorem readAssigned_self (eof p q : Position) (s : String) (rest : Tokens) :
    readAssigned eof (⟨p, .equals⟩ :: ⟨q, .literal s⟩ :: rest) = .ok (⟨q, s⟩, rest) := by
  simp [readAssigned, readExactly, readLiteral]

/-- The items of a list are read back, with a comma behind the last of them or without. -/
theorem readItems_unread (eof opener : Position) {items : List String} {trailing : List Token}
    (htrailing : trailing = [] ∨ trailing = [.comma] ∧ items ≠ []) (rest : Tokens) :
    readItems eof opener (unread ((items.map Token.literal).intersperse .comma ++ trailing
      ++ [.closeBracket]) ++ rest) = .ok (items, rest) := by
  induction items with
  | nil =>
    have hnil : trailing = [] := by simpa using htrailing
    simp [hnil, readItems]
  | cons item items ih =>
    cases items with
    | nil => rcases htrailing with rfl | ⟨rfl, -⟩ <;> simp [readItems]
    | cons next items =>
      have hrest := ih (by simpa using htrailing)
      simp only [List.map_cons, List.intersperse_cons_cons, List.cons_append, unread_cons]
        at hrest ⊢
      rw [readItems, hrest]

/-- A value is read back from any tokens that it is derived from. -/
theorem readValue_unread (eof : Position) {ts : List Token} {value : Value} (h : Valued ts value)
    (rest : Tokens) : readValue eof (unread ts ++ rest) = .ok (value, rest) := by
  cases h with
  | text s => rfl
  | integer n => rfl
  | list items htrailing =>
    simp only [List.cons_append, List.nil_append, unread_cons]
    rw [readValue, readItems_unread eof .start htrailing]

/-- One separator is skipped, and not more than one. -/
theorem skipSeparator_unread {separator : List Token} {ts : Tokens}
    (hseparator : separator = [] ∨ separator = [.comma] ∨ separator = [.semicolon])
    (hts : skipSeparator ts = ts) : skipSeparator (unread separator ++ ts) = ts := by
  rcases hseparator with rfl | rfl | rfl
  · exact hts
  · rfl
  · rfl

/-- Entries are read back from any tokens that they are derived from. -/
theorem readEntries_unread (eof opener : Position) {ts : List Token} {es : List Entry}
    (h : Entries ts es) (rest : Tokens) :
    readEntries eof opener (unread (ts ++ [.closeBrace]) ++ rest)
      = .ok (es.map (Entry.relocate fun _ => .start), rest) := by
  induction h with
  | nil => simp [readEntries]
  | @cons key separator ts e es hkey hseparator hes ih =>
    have hskip : skipSeparator (unread (separator ++ (ts ++ [.closeBrace])) ++ rest)
        = unread (ts ++ [.closeBrace]) ++ rest := by
      rw [unread_append, List.append_assoc]
      refine skipSeparator_unread hseparator ?_
      -- neither the next key nor the closing brace is a separator
      cases hes with
      | nil => rfl
      | cons hkey _ _ => rcases hkey with rfl | rfl <;> rfl
    have hclose : key ≠ .closeBrace := by
      rintro rfl
      simp at hkey
    have hname : entryKey? key = some e.key := by rcases hkey with rfl | rfl <;> rfl
    simp only [List.cons_append, List.nil_append, List.append_assoc, unread_cons]
    rw [readEntries_cons hclose, hname, readAssigned_self]
    dsimp only
    rw [hskip, ih]
    rfl

/-- The keyword of an instruction is read as such. -/
theorem readPlain_keyword (eof p : Position) (k : Keyword) (ts : Tokens) :
    readPlain eof p k.text ts = match readExactly eof .equals ts with
      | .error e => .error e
      | .ok (_, rest) => match readValue eof rest with
        | .ok (value, rest) => .ok (.instruction p k value, rest)
        | .error e => .error e := by
  cases k <;> rfl

/-- The keyword of a block is read as such. -/
theorem readPlain_blockKeyword (eof p : Position) (k : BlockKeyword) (ts : Tokens) :
    readPlain eof p k.text ts = match readExactly eof .openBrace ts with
      | .error e => .error e
      | .ok (opener, rest) => match readEntries eof opener rest with
        | .ok (entries, rest) => .ok (.block p k entries, rest)
        | .error e => .error e := by
  cases k <;> rfl

/-- A declaration that is no step is read back and put in front of those before it. -/
theorem readFrom_plain (eof : Position) (groups : List OpenStep) (latestFirst : List Declaration)
    {ts : List Token} {d : Declaration} (h : Plain ts d) (rest : Tokens) :
    readFrom eof groups latestFirst (unread ts ++ rest)
      = readFrom eof groups (d.unplaced :: latestFirst) rest := by
  cases h with
  | @base p s r hr =>
    have hread : readPlain eof .start "base" (unread [.equals, .literal s] ++ rest)
        = .ok (.base .start r, rest) := by
      simp [readPlain, readReference, readAssigned_self, hr]
    rw [unread_cons, List.cons_append, readFrom_word, hread]
    rfl
  | @dep p s r hr =>
    have hread : readPlain eof .start "dep" (unread [.equals, .literal s] ++ rest)
        = .ok (.dep .start r, rest) := by
      simp [readPlain, readReference, readAssigned_self, hr]
    rw [unread_cons, List.cons_append, readFrom_word, hread]
    rfl
  | instruction p k hvalue =>
    simp only [List.cons_append, List.nil_append, unread_cons]
    rw [readFrom_word, readPlain_keyword, readExactly_self]
    dsimp only
    rw [readValue_unread eof hvalue]
    rfl
  | block p k hes =>
    simp only [List.cons_append, List.nil_append, unread_cons]
    rw [readFrom_word, readPlain_blockKeyword, readExactly_self]
    dsimp only
    rw [readEntries_unread eof .start hes]
    rfl

/-- Names are read back up to the brace. -/
theorem readNames_unread (eof : Position) {names : List Prerequisite} (hne : names ≠ [])
    (rest : Tokens) :
    readNames eof (unread (((names.map Prerequisite.name).map Token.word).intersperse .comma)
        ++ ⟨.start, .openBrace⟩ :: rest)
      = .ok (names.map (Prerequisite.relocate fun _ => .start), ⟨.start, .openBrace⟩ :: rest) := by
  induction names with
  | nil => exact absurd rfl hne
  | cons name names ih =>
    cases names with
    | nil => rfl
    | cons next names =>
      have hrest := ih (by simp)
      simp only [List.map_cons, List.intersperse_cons_cons, unread_cons, List.cons_append]
        at hrest ⊢
      rw [readNames, hrest]
      rfl

/-- The clause for the names that a step comes after is read back up to the brace. -/
theorem readAfter_unread (eof : Position) (names : List Prerequisite) (rest : Tokens) :
    readAfter eof (unread (afterClause (names.map Prerequisite.name))
        ++ ⟨.start, .openBrace⟩ :: rest)
      = .ok (names.map (Prerequisite.relocate fun _ => .start), ⟨.start, .openBrace⟩ :: rest) := by
  cases names with
  | nil => rfl
  | cons name names => exact readNames_unread eof (List.cons_ne_nil name names) rest

/-- The header of a step is read back, and the step is open then. -/
theorem readHeader_unread (eof p : Position) (before : List Declaration) (name : String)
    (after : List Prerequisite) (rest : Tokens) :
    readHeader eof p before
        (unread ([.word name] ++ afterClause (after.map Prerequisite.name) ++ [.openBrace]) ++ rest)
      = .ok (⟨p, name, after.map (Prerequisite.relocate fun _ => .start), .start, before⟩,
          rest) := by
  simp only [unread_append, unread_cons, unread_nil, List.append_assoc, List.cons_append,
    List.nil_append]
  rw [readHeader, readWord]
  dsimp only
  rw [readAfter_unread]
  dsimp only
  rw [readExactly_self]

/-- A step without positions has a body without positions. -/
theorem unplaced_step (p : Position) (name : String) (after : List Prerequisite)
    (body : List Declaration) :
    (step p name after body).unplaced
      = step .start name (after.map (Prerequisite.relocate fun _ => .start))
          (body.map unplaced) := by
  rw [unplaced, relocate, relocateAll_eq_map]
  rfl

/-- **Completeness.** Tokens from which declarations are derived add these to what has been read,
    whatever groups are open and whatever follows. -/
theorem readFrom_unread {ts : List Token} {ds : List Declaration} (h : Statements ts ds)
    (eof : Position) (groups : List OpenStep) (latestFirst : List Declaration) (rest : Tokens) :
    readFrom eof groups latestFirst (unread ts ++ rest)
      = readFrom eof groups ((ds.map unplaced).reverse ++ latestFirst) rest := by
  induction h generalizing groups latestFirst rest with
  | nil => rfl
  | separator hds ih => rw [unread_cons, List.cons_append, readFrom, ih]
  | plain hd hds ih =>
    rw [unread_append, List.append_assoc, readFrom_plain eof groups latestFirst hd, ih]
    simp
  | @step p name after ts us body ds hbody hds ihbody ih =>
    have htokens : unread (header name (after.map Prerequisite.name) ++ ts ++ [.closeBrace] ++ us)
          ++ rest
        = ⟨.start, .step⟩ ::
          (unread ([.word name] ++ afterClause (after.map Prerequisite.name) ++ [.openBrace])
            ++ (unread ts ++ ⟨.start, .closeBrace⟩ :: (unread us ++ rest))) := by
      simp [header]
    rw [htokens, readFrom_step, readHeader_unread]
    dsimp only
    -- the body is read inside the new group, and the brace behind it closes the group
    rw [ihbody, readFrom, ih]
    simp [OpenStep.close, unplaced_step]

/-- **Completeness.** Declarations are read from any tokens that they are derived from, up to
    positions. -/
theorem read_of_statements (eof : Position) {ts : Tokens} {ds : List Declaration}
    (h : Statements (values ts) ds) :
    ∃ ds', read eof ts = .ok ds' ∧ ds'.map unplaced = ds.map unplaced := by
  have hread : read .start (unread (values ts)) = .ok (ds.map unplaced) := by
    have hfrom := readFrom_unread h .start [] [] []
    rw [List.append_nil, List.append_nil] at hfrom
    rw [read, hfrom, readFrom, List.reverse_reverse]
  have hrelocate := read_relocate (fun _ => .start) eof ts
  rw [map_relocate_eq_unread, hread] at hrelocate
  cases hresult : read eof ts with
  | error e =>
    rw [hresult] at hrelocate
    cases hrelocate
  | ok ds' =>
    rw [hresult] at hrelocate
    exact ⟨ds', rfl, (Except.ok.inj hrelocate).symm⟩

/-! ### Positions aside -/

/-- Positions play no part in the derivation of entries. -/
theorem entries_congr {ts : List Token} {es es' : List Entry} (h : Entries ts es)
    (heq : es.map (Entry.relocate fun _ => .start) = es'.map (Entry.relocate fun _ => .start)) :
    Entries ts es' := by
  induction h generalizing es' with
  | nil =>
    cases es' with
    | nil => exact .nil
    | cons e' es' => simp at heq
  | @cons key separator ts e es hkey hseparator hes ih =>
    cases es' with
    | nil => simp at heq
    | cons e' es' =>
      simp only [List.map_cons, List.cons.injEq, Entry.relocate, Entry.mk.injEq] at heq
      obtain ⟨⟨-, hname, hvalue⟩, hrest⟩ := heq
      rw [hvalue]
      exact .cons (hname ▸ hkey) hseparator (ih hrest)

/-- Positions play no part in the derivation of a declaration that is no step. -/
theorem plain_congr {ts : List Token} {d d' : Declaration} (h : Plain ts d)
    (heq : d.unplaced = d'.unplaced) : Plain ts d' := by
  cases h with
  | base p hr =>
    cases d' <;> cases heq
    exact .base _ hr
  | dep p hr =>
    cases d' <;> cases heq
    exact .dep _ hr
  | instruction p k hvalue =>
    cases d' <;> cases heq
    exact .instruction _ k hvalue
  | @block p k ts es hes =>
    cases d' with
    | block p' k' es' =>
      rw [unplaced, unplaced, relocate, relocate, block.injEq] at heq
      obtain ⟨-, rfl, hentries⟩ := heq
      exact .block p' k (entries_congr hes hentries)
    | _ => cases heq

/-- A derivation does not depend on the positions of its declarations. -/
theorem statements_congr {ts : List Token} {ds ds' : List Declaration} (h : Statements ts ds)
    (heq : ds.map unplaced = ds'.map unplaced) : Statements ts ds' := by
  induction h generalizing ds' with
  | nil =>
    cases ds' with
    | nil => exact .nil
    | cons d' ds' => simp at heq
  | separator hds ih => exact .separator (ih heq)
  | plain hd hds ih =>
    cases ds' with
    | nil => simp at heq
    | cons d' ds' =>
      rw [List.map_cons, List.map_cons, List.cons.injEq] at heq
      exact .plain (plain_congr hd heq.1) (ih heq.2)
  | step p name after hbody hds ihbody ih =>
    cases ds' with
    | nil => simp at heq
    | cons d' ds' =>
      rw [List.map_cons, List.map_cons, List.cons.injEq, unplaced_step] at heq
      cases d' with
      | step p' name' after' body' =>
        rw [unplaced_step, step.injEq] at heq
        obtain ⟨⟨-, rfl, hafter, hinner⟩, hrest⟩ := heq
        -- only the names of the prerequisites are among the tokens
        have hnames := congrArg (List.map Prerequisite.name) hafter
        rw [List.map_map, List.map_map] at hnames
        have hclause : after.map Prerequisite.name = after'.map Prerequisite.name := hnames
        rw [hclause]
        exact .step p' name after' (ihbody hinner) (ih hrest)
      | _ => cases heq.1

end Declaration

/-! ### Printing -/

/-- The tokens that a value is printed as. -/
def Value.tokens : Value → List Token
  | text s => [.literal s]
  | integer n => [.integer n.toNat]
  | list items => [.openBracket] ++ (items.map Token.literal).intersperse .comma ++ [.closeBracket]

/-- The tokens that an entry is printed as. -/
def Entry.tokens (e : Entry) : List Token := [.literal e.key, .equals, .literal e.value, .comma]

namespace Declaration

open Grammar

/-- The declarations that can be printed: references are ones that can be read, and integers are not
    negative. -/
inductive WellFormed : Declaration → Prop where
  | base (p : Position) {r : Reference} {s : String} (hr : Reference.parse s = .ok r) :
    WellFormed (base p r)
  | dep (p : Position) {r : Reference} {s : String} (hr : Reference.parse s = .ok r) :
    WellFormed (dep p r)
  | instruction (p : Position) (k : Keyword) {value : Value}
    (hvalue : ∀ n, value = .integer n → 0 ≤ n) : WellFormed (instruction p k value)
  | block (p : Position) (k : BlockKeyword) (es : List Entry) : WellFormed (block p k es)
  | step (p : Position) (name : String) (after : List Prerequisite) {body : List Declaration}
    (hbody : ∀ d ∈ body, WellFormed d) : WellFormed (step p name after body)

mutual

/-- The tokens that a declaration is printed as. -/
def tokens : Declaration → List Token
  | base _ r => [.word "base", .equals, .literal r.text]
  | dep _ r => [.word "dep", .equals, .literal r.text]
  | instruction _ k value => [.word k.text, .equals] ++ value.tokens
  | block _ k es => [.word k.text, .openBrace] ++ es.flatMap Entry.tokens ++ [.closeBrace]
  | step _ name after body =>
    header name (after.map Prerequisite.name) ++ tokensAll body ++ [.closeBrace]

/-- The tokens that declarations are printed as. -/
def tokensAll : List Declaration → List Token
  | [] => []
  | d :: ds => tokens d ++ .semicolon :: tokensAll ds

end

/-- A value is derived from its own tokens, if it is no negative number. -/
theorem valued_tokens {value : Value} (h : ∀ n, value = .integer n → 0 ≤ n) :
    Valued value.tokens value := by
  cases value with
  | text s => exact .text s
  | integer n =>
    obtain ⟨n, rfl⟩ := Int.eq_ofNat_of_zero_le (h n rfl)
    exact .integer n
  | list items =>
    have hlist := Valued.list items (Or.inl rfl)
    rwa [List.append_nil] at hlist

/-- Entries are derived from their own tokens. -/
theorem entries_tokens (es : List Entry) : Entries (es.flatMap Entry.tokens) es := by
  induction es with
  | nil => exact .nil
  | cons e es ih => exact .cons (Or.inr rfl) (Or.inr (Or.inl rfl)) ih

/-- A well-formed declaration is derived from its tokens, in front of any others. -/
theorem statements_tokens {d : Declaration} (h : d.WellFormed) {ts : List Token}
    {ds : List Declaration} (hds : Statements ts ds) : Statements (d.tokens ++ ts) (d :: ds) := by
  induction h generalizing ts ds with
  | base p hr =>
    rw [tokens, Reference.text_of_parse hr]
    exact .plain (.base p hr) hds
  | dep p hr =>
    rw [tokens, Reference.text_of_parse hr]
    exact .plain (.dep p hr) hds
  | instruction p k hvalue => exact .plain (.instruction p k (valued_tokens hvalue)) hds
  | block p k es => exact .plain (.block p k (entries_tokens es)) hds
  | @step p name after body hbody ih =>
    rw [tokens]
    refine .step p name after ?_ hds
    -- the induction hypothesis speaks of each member of the body; put the members together
    clear hbody
    induction body with
    | nil => exact .nil
    | cons d body ihbody =>
      rw [tokensAll]
      have hrest := ihbody fun c hc => ih c (List.mem_cons_of_mem _ hc)
      exact ih d List.mem_cons_self (.separator hrest)

/-- Declarations are derived from their own tokens. -/
theorem statements_tokensAll {ds : List Declaration} (h : ∀ d ∈ ds, d.WellFormed) :
    Statements (tokensAll ds) ds := by
  induction ds with
  | nil => exact .nil
  | cons d ds ih =>
    obtain ⟨hd, hds⟩ := List.forall_mem_cons.mp h
    rw [tokensAll]
    exact statements_tokens hd (.separator (ih hds))

/-- Only well-formed declarations are derived. -/
theorem wellFormed_of_plain {ts : List Token} {d : Declaration} (h : Plain ts d) :
    d.WellFormed := by
  cases h with
  | base p hr => exact .base p hr
  | dep p hr => exact .dep p hr
  | instruction p k hvalue =>
    refine .instruction p k fun n hn => ?_
    subst hn
    cases hvalue
    exact Int.natCast_nonneg _
  | block p k hes => exact .block p k _

/-- Whatever is derived is well-formed. -/
theorem wellFormed_of_statements {ts : List Token} {ds : List Declaration} (h : Statements ts ds) :
    ∀ d ∈ ds, d.WellFormed := by
  induction h with
  | nil => simp
  | separator _ ih => exact ih
  | plain hd _ ih => exact List.forall_mem_cons.mpr ⟨wellFormed_of_plain hd, ih⟩
  | step p name after _ _ ihbody ih =>
    exact List.forall_mem_cons.mpr ⟨.step p name after ihbody, ih⟩

/-! ### Reading and the grammar -/

/-- **Reading accepts exactly the grammar.** Positions aside, tokens are read as the declarations
    that are derived from them; there is one way to derive them at most; and the well-formed
    declarations, which are all that are ever derived, are read back from their printed tokens. -/
theorem read_iff_statements (eof : Position) (ts : Tokens) (ds : List Declaration) :
    ((∃ ds', read eof ts = .ok ds' ∧ ds'.map unplaced = ds.map unplaced)
        ↔ Statements (values ts) ds) ∧
      (∀ ds', Statements (values ts) ds → Statements (values ts) ds' →
        ds'.map unplaced = ds.map unplaced) ∧
      (Statements (values ts) ds → ∀ d ∈ ds, d.WellFormed) ∧
      ((∀ d ∈ ds, d.WellFormed) → values ts = tokensAll ds →
        ∃ ds', read eof ts = .ok ds' ∧ ds'.map unplaced = ds.map unplaced) := by
  refine ⟨⟨?_, read_of_statements eof⟩, ?_, wellFormed_of_statements, ?_⟩
  · rintro ⟨ds', hread, heq⟩
    exact statements_congr (statements_of_read hread) heq
  · intro ds' h h'
    obtain ⟨read₁, hread₁, heq₁⟩ := read_of_statements eof h
    obtain ⟨read₂, hread₂, heq₂⟩ := read_of_statements eof h'
    rw [hread₁] at hread₂
    cases hread₂
    rw [← heq₂, heq₁]
  · intro hds hts
    exact read_of_statements eof (hts ▸ statements_tokensAll hds)

end Declaration

end ImageSpec

import ImageSpec.Proofs.Layout
import Mathlib.Algebra.Group.Nat.Defs

namespace ImageSpec

/-!
# Lexical errors

Reading the tokens of a text stops where no token, no blank and no comment starts.  What stands
there is wrong in one of three ways, and the first character tells which: a literal without its
closing quote, a number that is too large, or a character that starts nothing.  The text in front of
that place is in order by itself.

* `Position.eq_of_after_eq` — two places of a text have different positions.
* `Lexer.literalOf_eq_none_iff` — unclosed literals, by the backslashes in front of each quote.
* `Lexer.Fault.At` — the three ways in which a text starts with a fault.
* `Lexer.Fault.At.eq_ofFirst` — the first character tells which one it is.
* `Lexer.separator_of_triviaOf`, `Lexer.lexeme_truncate` — what is read stays the same when the text
  is cut off later.
* `Lexer.exists_fault_of_tokensFrom` — where reading stops.
* `Text.quoteChar_injective`, `Lexer.Fault.wrongText_injective` — what is quoted tells what it is.
* `Lexer.tokenize_error_located` — every lexical error is located and says what is wrong.
-/

/-! ### Places of a text -/

namespace Position

theorem Before.trans {p q r : Position} (hpq : p.Before q) (hqr : q.Before r) : p.Before r := by
  unfold Before at *
  omega

/-- A character leads to a later position. -/
theorem before_advance (p : Position) (c : Char) : p.Before (p.advance c) := by
  unfold Before advance
  split
  · exact .inl (Nat.lt_succ_self p.line)
  · exact .inr ⟨rfl, Nat.lt_succ_self p.column⟩

/-- Every character leads to a later position. -/
theorem before_advanceOver (p : Position) {cs : List Char} (h : cs ≠ []) :
    p.Before (p.advanceOver cs) := by
  induction cs generalizing p with
  | nil => exact absurd rfl h
  | cons c cs ih =>
    show p.Before ((p.advance c).advanceOver cs)
    by_cases hcs : cs = []
    · rw [hcs]
      exact before_advance p c
    · exact (before_advance p c).trans (ih (p.advance c) hcs)

/-- **Places.** A position tells how much of a text stands before it. -/
theorem eq_of_after_eq {before rest before' rest' : List Char}
    (htext : before ++ rest = before' ++ rest') (hposition : after before = after before') :
    before = before' := by
  have hirrefl : ∀ p : Position, ¬ p.Before p := by
    intro p
    unfold Before
    omega
  have hlonger : ∀ cs more : List Char, after cs = after (cs ++ more) → more = [] := by
    intro cs more heq
    by_contra hmore
    rw [after_append] at heq
    have hbefore := before_advanceOver (after cs) hmore
    rw [← heq] at hbefore
    exact hirrefl _ hbefore
  rcases List.append_eq_append_iff.mp htext with ⟨more, rfl, -⟩ | ⟨more, rfl, -⟩
  · rw [hlonger before more hposition, List.append_nil]
  · rw [hlonger before' more hposition.symm, List.append_nil]

end Position

namespace Lexer

/-! ### Unclosed literals -/

/-- What follows the text is escaped: the text ends in an odd number of backslashes, so that the
    last of them is not escaped itself. -/
def EscapesNext (before : List Char) : Prop :=
  (before.reverse.takeWhile (· == '\\')).length % 2 = 1

/-- A literal that goes on with the text is not closed there: every quote in the text is escaped. -/
def Unclosed (body : List Char) : Prop :=
  ∀ before after, body = before ++ '"' :: after → EscapesNext before

/-- A character that is no backslash in front changes nothing. -/
theorem escapesNext_cons {c : Char} (hc : c ≠ '\\') (before : List Char) :
    EscapesNext (c :: before) ↔ EscapesNext before := by
  have hstop : [c].takeWhile (· == '\\') = [] := by simp [hc]
  unfold EscapesNext
  rw [List.reverse_cons, List.takeWhile_append, hstop]
  split
  · next hall => rw [hall, List.append_nil]
  · rfl

/-- Escapes come in pairs, so one in front changes nothing. -/
theorem escapesNext_escape (c : Char) (before : List Char) :
    EscapesNext ('\\' :: c :: before) ↔ EscapesNext before := by
  unfold EscapesNext
  rw [List.reverse_cons, List.reverse_cons, List.append_assoc, List.takeWhile_append]
  split
  · next hall =>
    -- backslashes only: the run goes on with both characters or with none
    rw [hall, List.length_append]
    by_cases hc : c = '\\'
    · simp [hc]
    · simp [hc]
  · rfl

/-- A plain character neither opens nor closes a literal. -/
theorem unclosed_cons {c : Char} (hquote : c ≠ '"') (hbackslash : c ≠ '\\') (rest : List Char) :
    Unclosed (c :: rest) ↔ Unclosed rest := by
  constructor
  · intro h before after hrest
    rw [← escapesNext_cons hbackslash]
    exact h (c :: before) after (by rw [hrest, List.cons_append])
  · intro h before after hrest
    cases before with
    | nil => exact absurd (List.cons.inj hrest).1 hquote
    | cons b before =>
      obtain ⟨rfl, htail⟩ := List.cons.inj hrest
      exact (escapesNext_cons hbackslash before).mpr (h before after htail)

/-- An escape neither opens nor closes a literal. -/
theorem unclosed_escape (c : Char) (rest : List Char) :
    Unclosed ('\\' :: c :: rest) ↔ Unclosed rest := by
  constructor
  · intro h before after hrest
    rw [← escapesNext_escape c]
    exact h ('\\' :: c :: before) after (by rw [hrest, List.cons_append, List.cons_append])
  · intro h before after hrest
    cases before with
    | nil => exact absurd (List.cons.inj hrest).1 (by decide)
    | cons b before =>
      obtain ⟨rfl, htail⟩ := List.cons.inj hrest
      cases before with
      | nil => rfl -- the quote is the character that the backslash escapes
      | cons b before =>
        obtain ⟨rfl, hlast⟩ := List.cons.inj htail
        exact (escapesNext_escape c before).mpr (h before after hlast)

/-- What starts neither a lone backslash nor an escape is no backslash. -/
theorem ne_backslash {c : Char} {rest : List Char} (hlone : c = '\\' → rest = [] → False)
    (hpair : ∀ d tail, c = '\\' → rest = d :: tail → False) : c ≠ '\\' := by
  intro hc
  cases rest with
  | nil => exact hlone hc rfl
  | cons d tail => exact hpair d tail hc rfl

/-- **Unclosed literals.** No closing quote is found if and only if every quote is escaped. -/
theorem literalOf_eq_none_iff {body : List Char} : literalOf body = none ↔ Unclosed body := by
  fun_induction literalOf body with
  | case1 => simp [Unclosed]
  | case2 rest =>
    have hclosed : ¬ Unclosed ('"' :: rest) := by
      intro h
      have hescaped : 0 % 2 = 1 := h [] rest rfl
      omega
    simp [hclosed]
  | case3 =>
    refine ⟨fun _ before after hbody => ?_, fun _ => rfl⟩
    cases before with
    | nil => exact absurd (List.cons.inj hbody).1 (by decide)
    | cons b before => simp at hbody
  | case4 c rest value written after h ih =>
    rw [unclosed_escape, ← ih, h]
    simp
  | case5 c rest h ih =>
    rw [unclosed_escape, ← ih, h]
  | case6 c rest hquote hlone hpair value written after h ih =>
    rw [unclosed_cons hquote (ne_backslash hlone hpair), ← ih, h]
    simp
  | case7 c rest hquote hlone hpair h ih =>
    rw [unclosed_cons hquote (ne_backslash hlone hpair), ← ih, h]

/-! ### Comments -/

/-- The text starts where a line ends: there is nothing more, or a line break comes first. -/
def EndsLine (rest : List Char) : Prop :=
  rest = [] ∨ ∃ ending more, IsLineBreak ending ∧ rest = ending ++ more

/-- The text starts with a comment: with what opens one, and then a remark up to the end of the
    line.  A carriage return that is no part of a line break stands in the way. -/
def OpensComment (cs : List Char) : Prop :=
  ∃ opener text rest, cs = opener ++ (text ++ rest) ∧ IsOpener opener ∧ IsRemark text ∧
    EndsLine rest

/-- A remark is split off up to the end of its line. -/
theorem commentOf_of_endsLine {text rest : List Char} (htext : IsRemark text)
    (hrest : EndsLine rest) : commentOf (text ++ rest) = some (text, rest) := by
  rcases hrest with rfl | ⟨ending, more, hending, rfl⟩
  · rw [List.append_nil]
    exact commentOf_remark htext
  · exact commentOf_append_lineBreak htext hending more

/-- What is split off as a comment is one. -/
theorem endsLine_of_commentOf {cs text rest : List Char} (h : commentOf cs = some (text, rest)) :
    IsRemark text ∧ EndsLine rest := by
  fun_induction commentOf cs generalizing text rest with
  | case1 =>
    cases h
    exact ⟨by simp [IsRemark], .inl rfl⟩
  | case2 more =>
    cases h
    exact ⟨by simp [IsRemark], .inr ⟨['\n'], more, .inl rfl, rfl⟩⟩
  | case3 more =>
    cases h
    exact ⟨by simp [IsRemark], .inr ⟨['\r', '\n'], more, .inr rfl, rfl⟩⟩
  | case4 => cases h
  | case5 c more hfeed hpair hreturn comment after hmore ih =>
    cases h
    obtain ⟨hremark, hends⟩ := ih hmore
    exact ⟨List.forall_mem_cons.mpr ⟨⟨hreturn, hfeed⟩, hremark⟩, hends⟩
  | case6 => cases h

/-- A comment is trivia. -/
theorem triviumOf_of_opensComment {cs : List Char} (h : OpensComment cs) :
    triviumOf cs ≠ none := by
  obtain ⟨opener, text, rest, rfl, hopener, htext, hrest⟩ := h
  rw [triviumOf_comment hopener (commentOf_of_endsLine htext hrest)]
  exact Option.some_ne_none _

/-! ### Characters that start a token -/

/-- The characters that a token may start with: a quote, the symbols, digits, letters and `_`. -/
def BeginsToken (c : Char) : Prop :=
  c = '"' ∨ c ∈ Token.symbols ∨ c.isDigit = true ∨ c.isAlpha = true ∨ c = '_'

theorem exists_symbol {c : Char} (h : c ∈ Token.symbols) : ∃ t, Token.ofSymbol? c = some t := by
  simp only [Token.symbols, List.mem_cons, List.not_mem_nil, or_false] at h
  rcases h with rfl | rfl | rfl | rfl | rfl | rfl | rfl <;> exact ⟨_, rfl⟩

/-- Trivia start with none of them. -/
theorem triviumOf_of_beginsToken {c : Char} (h : BeginsToken c) (rest : List Char) :
    triviumOf (c :: rest) = none := by
  rcases h with rfl | hsymbol | hdigit | hword
  · exact triviumOf_eq_none (by decide) (by decide) (by decide) rest
  · obtain ⟨t, ht⟩ := exists_symbol hsymbol
    exact (starts_symbol ht rest).triviumOf_eq
  · exact triviumOf_of_isWordPart (isWordPart_of_isDigit hdigit) rest
  · exact triviumOf_of_isWordPart (isWordPart_of_isWordStart (isWordStart_iff.mpr hword)) rest

/-! What is read at a character depends on its kind. -/

/-- A symbol is a token of its own. -/
theorem lexeme_symbol {c : Char} (h : c ∈ Token.symbols) :
    ∃ t, ∀ rest, lexeme c rest = some ⟨t, [c], rest⟩ := by
  obtain ⟨t, ht⟩ := exists_symbol h
  exact ⟨t, fun rest => (starts_symbol ht rest).lexeme_eq⟩

/-- Digits are a token unless their number is too large. -/
theorem lexeme_digit {c : Char} (h : c.isDigit = true) (rest : List Char) :
    lexeme c rest
      = if Text.decimal (c :: rest.takeWhile Char.isDigit) ≤ Token.maxInteger then
          some ⟨.integer (Text.decimal (c :: rest.takeWhile Char.isDigit)),
            c :: rest.takeWhile Char.isDigit, rest.dropWhile Char.isDigit⟩
        else none := by
  have hpart := isWordPart_of_isDigit h
  have hquote : c ≠ '"' := ne_of_isWordPart hpart rfl
  rw [lexeme, if_neg hquote, ofSymbol?_of_isWordPart hpart]
  exact if_pos h

/-- A letter or `_` starts a word, which goes on as far as it can. -/
theorem lexeme_word {c : Char} (h : isWordStart c = true) (rest : List Char) :
    lexeme c rest = some ⟨Token.ofWord (String.ofList (c :: rest.takeWhile isWordPart)),
      c :: rest.takeWhile isWordPart, rest.dropWhile isWordPart⟩ := by
  have hpart := isWordPart_of_isWordStart h
  have hquote : c ≠ '"' := ne_of_isWordPart hpart rfl
  have hdigit : ¬ c.isDigit = true := by simp [isDigit_of_isWordStart h]
  rw [lexeme, if_neg hquote, ofSymbol?_of_isWordPart hpart]
  dsimp only
  rw [if_neg hdigit, if_pos h]

/-- No token starts with any other character. -/
theorem lexeme_stray {c : Char} (h : ¬ BeginsToken c) (rest : List Char) :
    lexeme c rest = none := by
  have hquote : c ≠ '"' := fun hc => h (.inl hc)
  have hsymbol : Token.ofSymbol? c = none := by
    rw [Option.eq_none_iff_forall_ne_some]
    exact fun t ht => h (.inr (.inl (Token.mem_symbols ht)))
  have hdigit : ¬ c.isDigit = true := fun hc => h (.inr (.inr (.inl hc)))
  have hword : ¬ isWordStart c = true := fun hc => h (.inr (.inr (.inr (isWordStart_iff.mp hc))))
  rw [lexeme, if_neg hquote, hsymbol]
  dsimp only
  rw [if_neg hdigit, if_neg hword]

/-- What is read as a token starts as one. -/
theorem beginsToken_of_lexeme {c : Char} {rest : List Char} {l : Lexeme}
    (h : lexeme c rest = some l) : BeginsToken c := by
  by_contra hnone
  rw [lexeme_stray hnone] at h
  cases h

/-! ### Faults -/

/-- A text starts with a fault: with a literal that is not closed, with all the digits of a number
    that is too large, or with a character that starts no token, no blank and no comment. -/
inductive Fault.At : Fault → List Char → Prop where
  | unclosed {body : List Char} (hbody : Unclosed body) : At .unclosedLiteral ('"' :: body)
  | large {digits rest : List Char} (hne : digits ≠ []) (hdigits : ∀ c ∈ digits, c.isDigit = true)
    (hrest : ∀ c ∈ rest.head?, c.isDigit = false) (hlarge : 2 ^ 63 - 1 < Text.decimal digits) :
    At (.largeInteger digits) (digits ++ rest)
  | stray {c : Char} {rest : List Char} (htoken : ¬ BeginsToken c) (hblank : c ∉ blanks)
    (hcomment : ¬ OpensComment (c :: rest)) : At (.stray c) (c :: rest)

/-- Characters of a class, up to one that is not of it, are all that is taken. -/
theorem span_of_stop {p : Char → Bool} {cs rest : List Char} (hcs : ∀ c ∈ cs, p c = true)
    (hrest : ∀ c ∈ rest.head?, p c = false) :
    (cs ++ rest).takeWhile p = cs ∧ (cs ++ rest).dropWhile p = rest := by
  rw [List.takeWhile_append_of_pos hcs, List.dropWhile_append_of_pos hcs]
  cases rest with
  | nil => simp
  | cons c rest => simp [hrest c rfl]

/-- A class of characters ends before one that is not of it. -/
theorem eq_false_of_head?_dropWhile {p : Char → Bool} {cs : List Char} {c : Char}
    (h : c ∈ (cs.dropWhile p).head?) : p c = false := by
  have hstop := List.head?_dropWhile_not p cs
  rw [h] at hstop
  exact hstop

/-- **One fault.** No text starts with two faults, since the first character tells of one. -/
theorem Fault.At.eq_ofFirst {fault : Fault} {c : Char} {rest : List Char}
    (h : fault.At (c :: rest)) : fault = ofFirst c rest := by
  -- the digits are not in front of the index, so it is kept apart
  generalize htext : c :: rest = cs at h
  cases h with
  | unclosed hbody =>
    obtain ⟨rfl, -⟩ := List.cons.inj htext
    rfl
  | @large digits after hne hdigits hafter hlarge =>
    obtain ⟨d, digits, rfl⟩ := List.exists_cons_of_ne_nil hne
    obtain ⟨rfl, hrest⟩ := List.cons.inj htext
    have hdigit : c.isDigit = true := hdigits c List.mem_cons_self
    have hquote : c ≠ '"' := by
      rintro rfl
      cases hdigit
    rw [ofFirst, if_neg hquote, if_pos hdigit, htext,
      (span_of_stop hdigits hafter).1]
  | stray htoken hblank hcomment =>
    obtain ⟨rfl, -⟩ := List.cons.inj htext
    have hquote : c ≠ '"' := fun hc => htoken (.inl hc)
    have hdigit : ¬ c.isDigit = true := fun hc => htoken (.inr (.inr (.inl hc)))
    rw [ofFirst, if_neg hquote, if_neg hdigit]

/-- **Faults.** Where no trivia and no token start, the first character tells of the fault that is
    there. -/
theorem at_ofFirst {c : Char} {rest : List Char} (h : lexeme c rest = none)
    (htrivium : triviumOf (c :: rest) = none) : (Fault.ofFirst c rest).At (c :: rest) := by
  by_cases hbegins : BeginsToken c
  · rcases hbegins with rfl | hsymbol | hdigit | hword
    · rw [lexeme, if_pos rfl] at h
      split at h
      · cases h
      · next hnone => exact .unclosed (literalOf_eq_none_iff.mp hnone)
    · obtain ⟨t, ht⟩ := lexeme_symbol hsymbol
      rw [ht] at h
      cases h
    · rw [lexeme_digit hdigit] at h
      split at h
      · cases h
      · next hlarge =>
        have htext : c :: rest
            = (c :: rest.takeWhile Char.isDigit) ++ rest.dropWhile Char.isDigit := by simp
        have hdigits : ∀ d ∈ c :: rest.takeWhile Char.isDigit, d.isDigit = true :=
          List.forall_mem_cons.mpr ⟨hdigit, List.all_eq_true.mp List.all_takeWhile⟩
        have hstop : ∀ d ∈ (rest.dropWhile Char.isDigit).head?, d.isDigit = false :=
          fun d hd => eq_false_of_head?_dropWhile hd
        have hat :=
          Fault.At.large (List.cons_ne_nil _ _) hdigits hstop (Nat.lt_of_not_le hlarge)
        rw [← htext] at hat
        exact hat.eq_ofFirst ▸ hat
    · rw [lexeme_word (isWordStart_iff.mpr hword)] at h
      cases h
  · have hblank : c ∉ blanks := by
      intro hblank
      rw [triviumOf_blank hblank] at htrivium
      cases htrivium
    have hat := Fault.At.stray hbegins hblank fun hcomment =>
      triviumOf_of_opensComment hcomment htrivium
    exact hat.eq_ofFirst ▸ hat

/-! ### Texts that are cut off -/

/-- A literal is read in the same way when something else follows it. -/
theorem literalOf_written {cs value written after : List Char}
    (h : literalOf cs = some (value, written, after)) (rest : List Char) :
    literalOf (written ++ rest) = some (value, written, rest) := by
  fun_induction literalOf cs generalizing value written after with
  | case1 => cases h
  | case2 more =>
    cases h
    rfl
  | case3 => cases h
  | case4 c more value' written' after' hmore ih =>
    cases h
    rw [List.cons_append, List.cons_append, literalOf, ih hmore]
  | case5 => cases h
  | case6 c more hquote hlone hpair value' written' after' hmore ih =>
    cases h
    have hbackslash := ne_backslash hlone hpair
    rw [List.cons_append, literalOf, ih hmore]
    · exact hquote
    · exact fun hc _ => hbackslash hc
    · exact fun _ _ hc _ => hbackslash hc
  | case7 => cases h

/-- The run of a class at the start of a text is the same when the text is cut off behind it. -/
theorem span_truncate {p : Char → Bool} {cs keep more : List Char}
    (h : cs.dropWhile p = keep ++ more) :
    (cs.takeWhile p ++ keep).takeWhile p = cs.takeWhile p ∧
      (cs.takeWhile p ++ keep).dropWhile p = keep := by
  apply span_of_stop
  · exact fun c hc => List.all_eq_true.mp List.all_takeWhile c hc
  · intro c hc
    have hhead : c ∈ (cs.dropWhile p).head? := by
      rw [h, List.head?_append, hc]
      rfl
    exact eq_false_of_head?_dropWhile hhead

/-- **Tokens.** A token is read in the same way when the text is cut off behind it. -/
theorem lexeme_truncate {c : Char} {rest : List Char} {l : Lexeme} (h : lexeme c rest = some l)
    {keep more : List Char} (hrest : l.rest = keep ++ more) :
    ∃ cs, l.written = c :: cs ∧ lexeme c (cs ++ keep) = some ⟨l.token, c :: cs, keep⟩ := by
  rcases beginsToken_of_lexeme h with rfl | hsymbol | hdigit | hword
  · rw [lexeme, if_pos rfl] at h
    split at h
    · next value written after hliteral =>
      cases h
      refine ⟨written, rfl, ?_⟩
      rw [lexeme, if_pos rfl, literalOf_written hliteral]
    · cases h
  · obtain ⟨t, ht⟩ := lexeme_symbol hsymbol
    rw [ht] at h
    cases h
    exact ⟨[], rfl, ht keep⟩
  · rw [lexeme_digit hdigit] at h
    split at h
    · next hsmall =>
      cases h
      obtain ⟨htake, hdrop⟩ := span_truncate hrest
      refine ⟨rest.takeWhile Char.isDigit, rfl, ?_⟩
      rw [lexeme_digit hdigit, htake, hdrop, if_pos hsmall]
    · cases h
  · have hstart := isWordStart_iff.mpr hword
    rw [lexeme_word hstart] at h
    cases h
    obtain ⟨htake, hdrop⟩ := span_truncate hrest
    refine ⟨rest.takeWhile isWordPart, rfl, ?_⟩
    rw [lexeme_word hstart, htake, hdrop]

/-- What is split off as trivia is a blank or a comment. -/
theorem cases_of_triviumOf {cs gap after : List Char} (h : triviumOf cs = some (gap, after)) :
    (∃ c ∈ blanks, gap = [c]) ∨
      ∃ opener text, gap = opener ++ text ∧ IsOpener opener ∧ IsRemark text ∧ EndsLine after := by
  unfold triviumOf at h
  split at h
  · simp only [Option.map_eq_some_iff, Prod.mk.injEq] at h
    obtain ⟨⟨text, rest⟩, hcomment, rfl, rfl⟩ := h
    exact .inr ⟨['#'], text, rfl, .inl rfl, endsLine_of_commentOf hcomment⟩
  · simp only [Option.map_eq_some_iff, Prod.mk.injEq] at h
    obtain ⟨⟨text, rest⟩, hcomment, rfl, rfl⟩ := h
    exact .inr ⟨['/', '/'], text, rfl, .inr rfl, endsLine_of_commentOf hcomment⟩
  · next c rest _ _ =>
    split at h
    · next hblank =>
      cases h
      exact .inl ⟨c, isLayout_iff.mp hblank, rfl⟩
    · cases h
  · cases h

/-- A separator without the blank in front of it is one. -/
theorem Separator.of_blank {c : Char} {gap : List Char} (hc : c ∈ blanks)
    (h : Separator (c :: gap)) : Separator gap := by
  generalize htext : c :: gap = cs at h
  cases h with
  | nil => cases htext
  | blank hblank hgap =>
    obtain ⟨-, rfl⟩ := List.cons.inj htext
    exact hgap
  | comment hopener htext' hending hgap =>
    rcases hopener with rfl | rfl
    · obtain ⟨rfl, -⟩ := List.cons.inj htext
      exact absurd hc (by decide)
    · obtain ⟨rfl, -⟩ := List.cons.inj htext
      exact absurd hc (by decide)

/-- A separator without the line break in front of it is one. -/
theorem Separator.of_lineBreak {ending gap : List Char} (hending : IsLineBreak ending)
    (h : Separator (ending ++ gap)) : Separator gap := by
  rcases hending with rfl | rfl
  · exact h.of_blank (by decide)
  · exact (h.of_blank (by decide)).of_blank (by decide)

/-- **Trivia.** Trivia with something behind them are a separator: the last comment has its line
    break. -/
theorem separator_of_triviaOf {cs : List Char} (h : (triviaOf cs).2 ≠ []) :
    Separator (triviaOf cs).1 := by
  fun_induction triviaOf cs with
  | case1 cs hnone => exact .nil
  | case2 cs gap after hsome gaps rest hrest ih =>
    rw [hrest] at ih
    have hgaps : Separator gaps := ih h
    rcases cases_of_triviumOf hsome with
      ⟨c, hblank, rfl⟩ | ⟨opener, text, rfl, hopener, htext, hends⟩
    · exact .blank hblank hgaps
    · rcases hends with rfl | ⟨ending, more, hending, rfl⟩
      · -- a comment that ends with the text has nothing behind it
        rw [triviaOf_of_none rfl] at hrest
        cases hrest
        exact absurd rfl h
      · -- the line break that ends the comment is the first of the trivia behind it
        rw [triviaOf_lineBreak hending] at hrest
        obtain ⟨rfl, -⟩ := Prod.mk.inj hrest
        have hseparator := Separator.comment hopener htext hending (hgaps.of_lineBreak hending)
        rwa [List.append_assoc] at hseparator

/-- Behind all trivia there are none. -/
theorem triviumOf_triviaOf (cs : List Char) : triviumOf (triviaOf cs).2 = none := by
  fun_induction triviaOf cs with
  | case1 cs hnone => exact hnone
  | case2 cs gap after hsome gaps rest hrest ih => rwa [hrest] at ih

/-- The trivia in front of a token are split off in the same way when other text follows. -/
theorem triviaOf_truncate {cs : List Char} (h : (triviaOf cs).2 ≠ []) {text : List Char}
    (htext : triviumOf text = none) :
    triviaOf ((triviaOf cs).1 ++ text) = ((triviaOf cs).1, text) := by
  rw [triviaOf_separator (separator_of_triviaOf h), triviaOf_of_none htext, List.append_nil]

/-! ### Where reading stops -/

/-- **Where reading stops.** No trivia and no token start there, and what stands before is read by
    itself. -/
theorem exists_fault_of_tokensFrom {p : Position} {cs : List Char} {e : SyntaxError}
    (h : tokensFrom p cs = .error e) :
    ∃ before c rest, cs = before ++ c :: rest ∧ triviumOf (c :: rest) = none ∧
      lexeme c rest = none ∧ e = (Fault.ofFirst c rest).errorAt (p.advanceOver before) ∧
      ∃ tokens, tokensFrom p before = .ok tokens := by
  fun_induction tokensFrom p cs with
  | case1 => cases h
  | case2 p cs gap c rest hrest here hlex =>
    cases h
    have htext : gap ++ c :: rest = cs := by
      rw [← hrest]
      exact triviaOf_append cs
    have htrivium := triviumOf_triviaOf cs
    rw [hrest] at htrivium
    -- the trivia in front are all that stands before the fault
    have hgap : triviaOf (gap ++ []) = (gap, []) :=
      triviaOf_truncate (by rw [hrest]; exact List.cons_ne_nil c rest) rfl
    rw [List.append_nil] at hgap
    exact ⟨gap, c, rest, htext.symm, htrivium, hlex, rfl, [], tokensFrom_of_closing hgap⟩
  | case3 p cs gap c rest hrest here l hlex e' htokens ih =>
    cases h
    obtain ⟨before, c', rest', hsplit, htrivium, hnone, rfl, tokens, hbefore⟩ := ih htokens
    have htext : gap ++ c :: rest = cs := by
      rw [← hrest]
      exact triviaOf_append cs
    -- the token is read again from the text that is cut off at the fault
    obtain ⟨written, hwritten, hread⟩ := lexeme_truncate hlex hsplit
    have hstarts : Starts l.token c written before :=
      ⟨triviumOf_of_beginsToken (beginsToken_of_lexeme hlex) _, hread⟩
    have hgap : triviaOf (gap ++ c :: (written ++ before)) = (gap, c :: (written ++ before)) :=
      triviaOf_truncate (by rw [hrest]; exact List.cons_ne_nil c rest) hstarts.triviumOf_eq
    rw [hwritten] at hbefore
    refine ⟨gap ++ c :: (written ++ before), c', rest', ?_, htrivium, hnone, ?_, _,
      tokensFrom_of_starts hgap hstarts hbefore⟩
    · rw [← htext, ← (lexeme_append hlex).2, hwritten, hsplit]
      simp
    · rw [hwritten]
      simp [Position.advanceOver, here]
  | case4 => cases h

end Lexer

/-! ### Quoted characters -/

namespace Text

/-- The number that hexadecimal digits stand for. -/
def hexNumber (digits : List Char) : Nat :=
  digits.foldl (fun n d => 16 * n + (hexValue? d).getD 0) 0

/-- The digits of a number stand for it. -/
theorem hexNumber_hex (n : Nat) : hexNumber (hex n) = n := by
  fun_induction hex n with
  | case1 n hsmall => simp [hexNumber, hexValue?_hexDigit, Nat.mod_eq_of_lt hsmall]
  | case2 n hlarge ih =>
    have hlast : hexNumber (hex (n / 16) ++ [hexDigit n])
        = 16 * hexNumber (hex (n / 16)) + (hexValue? (hexDigit n)).getD 0 := by
      simp [hexNumber]
    rw [hlast, ih, hexValue?_hexDigit]
    exact Nat.div_add_mod n 16

theorem hex_ne_nil (n : Nat) : hex n ≠ [] := by
  rw [hex]
  split <;> simp

/-- The character that a backslash and `c` stand for in a message. -/
def escapedAs (c : Char) : Char :=
  if c = '0' then '\x00' else if c = 't' then '\t' else if c = 'r' then '\r'
  else if c = 'n' then '\n' else c

/-- The character that is shown as some text. -/
def ofShown : List Char → Char
  | ['\\', c] => escapedAs c
  | '\\' :: 'u' :: '\x7b' :: digits => Char.ofNat (hexNumber digits.dropLast)
  | cs => cs.headD ' '

/-- A character is read back from what is shown of it between single quotes. -/
theorem ofShown_shown (c : Char) : ofShown (shown '\'' c) = c := by
  by_cases hshort : c ∈ ['\x00', '\t', '\r', '\n', '\\', '\'']
  · have hall : ['\x00', '\t', '\r', '\n', '\\', '\''].all
        (fun d => ofShown (shown '\'' d) == d) = true := by rfl
    exact eq_of_beq (List.all_eq_true.mp hall c hshort)
  · simp only [List.mem_cons, List.not_mem_nil, or_false, not_or] at hshort
    obtain ⟨hzero, htab, hreturn, hfeed, hbackslash, hquote⟩ := hshort
    rw [shown, if_neg hzero, if_neg htab, if_neg hreturn, if_neg hfeed, if_neg hbackslash,
      if_neg hquote]
    split
    · -- the braces hold at least one digit, so this is no short escape
      obtain ⟨digit, digits, hhex⟩ := List.exists_cons_of_ne_nil (hex_ne_nil c.toNat)
      have hnumber := hexNumber_hex c.toNat
      rw [hhex] at hnumber ⊢
      show Char.ofNat (hexNumber ((digit :: digits) ++ ['\x7d']).dropLast) = c
      rw [List.dropLast_concat, hnumber, Char.ofNat_toNat]
    · rw [ofShown]
      · rfl
      · exact fun _ h => hbackslash (List.cons.inj h).1
      · exact fun _ h => hbackslash (List.cons.inj h).1

/-- **Quoted characters.** A quoted character determines the character. -/
theorem quoteChar_injective : Function.Injective quoteChar := by
  intro c d h
  have hlist := congrArg String.toList h
  simp only [quoteChar, String.toList_ofList, List.append_cancel_right_eq,
    List.append_cancel_left_eq] at hlist
  rw [← ofShown_shown c, hlist, ofShown_shown]

end Text

namespace Lexer

/-! ### Errors -/

/-- What an error says in place of a fault would have been right. -/
def Fault.rightText : Fault → String
  | .unclosedLiteral => "closing `\"` for string literal"
  | .largeInteger _ => "an integer that fits in 64 bits"
  | .stray _ => "a token"

/-- What an error says about a fault itself. -/
def Fault.wrongText : Fault → String
  | .unclosedLiteral => "end of input"
  | .largeInteger digits => "`" ++ String.ofList digits ++ "`"
  | .stray c => "unexpected character " ++ Text.quoteChar c

/-- The message of an error about a fault. -/
theorem message_eq (position : Position) (fault : Fault) :
    SyntaxError.message ⟨position, fault.expected, fault.found⟩
      = "syntax error at " ++ position.text ++ ": expected " ++ fault.rightText
        ++ ", found " ++ fault.wrongText := by
  cases fault <;> rfl

/-- The character that an error about a fault starts with. -/
def Fault.initial : Fault → Char
  | .unclosedLiteral => 'e'
  | .largeInteger _ => '`'
  | .stray _ => 'u'

/-- How an error about a fault starts. -/
theorem Fault.head?_wrongText (fault : Fault) :
    fault.wrongText.toList.head? = some fault.initial := by
  cases fault with
  | unclosedLiteral => rfl
  | largeInteger digits =>
    show ("`" ++ String.ofList digits ++ "`").toList.head? = some '`'
    rw [String.toList_append, String.toList_append]
    rfl
  | stray c =>
    show ("unexpected character " ++ Text.quoteChar c).toList.head? = some 'u'
    rw [String.toList_append]
    rfl

/-- **What is said tells the fault.** What an error says about a fault determines it: the kind by
    how it starts, and the digits or the character by what it quotes. -/
theorem Fault.wrongText_injective : Function.Injective wrongText := by
  intro fault other h
  have hinitial : fault.initial = other.initial := by
    apply Option.some.inj
    rw [← head?_wrongText, h, head?_wrongText]
  cases fault with
  | unclosedLiteral =>
    cases other with
    | unclosedLiteral => rfl
    | largeInteger digits => exact absurd hinitial (show 'e' ≠ '`' by decide)
    | stray d => exact absurd hinitial (show 'e' ≠ 'u' by decide)
  | largeInteger digits =>
    cases other with
    | unclosedLiteral => exact absurd hinitial (show '`' ≠ 'e' by decide)
    | largeInteger digits' =>
      have htext : "`" ++ String.ofList digits ++ "`" = "`" ++ String.ofList digits' ++ "`" := h
      have hdigits := congrArg String.toList htext
      simp only [String.toList_append, List.append_cancel_right_eq, List.append_cancel_left_eq,
        String.toList_ofList] at hdigits
      rw [hdigits]
    | stray d => exact absurd hinitial (show '`' ≠ 'u' by decide)
  | stray c =>
    cases other with
    | unclosedLiteral => exact absurd hinitial (show 'u' ≠ 'e' by decide)
    | largeInteger digits => exact absurd hinitial (show 'u' ≠ '`' by decide)
    | stray d =>
      have htext : "unexpected character " ++ Text.quoteChar c
          = "unexpected character " ++ Text.quoteChar d := h
      have hquoted := congrArg String.toList htext
      simp only [String.toList_append, List.append_cancel_left_eq] at hquoted
      rw [Text.quoteChar_injective (String.toList_inj.mp hquoted)]

/-- **Lexical errors.** If the tokens of a text cannot be read, the error points at the one place in
    the text of which the following holds.  The text before it can be read.  The text from there on
    starts with exactly one fault: a quote and no closing quote behind it, the whole run of digits
    of a number above `2 ^ 63 - 1`, or a character that starts no token, no blank and no comment.
    The error tells which fault it is, and quotes the digits or the character: what it says it has
    found is said of no other fault. -/
theorem tokenize_error_located {source : String} {e : SyntaxError}
    (h : tokenize source = .error e) :
    ∃ before rest fault, source.toList = before ++ rest ∧
      e = ⟨.counted before, fault.expected, fault.found⟩ ∧
      (∀ before' rest', source.toList = before' ++ rest' → e.position = .counted before' →
        before' = before) ∧
      (∃ tokens, tokenize (String.ofList before) = .ok tokens) ∧
      fault.At rest ∧ (∀ other : Fault, other.At rest → other = fault) ∧
      e.message = "syntax error at " ++ e.position.text ++ ": expected " ++ fault.rightText
        ++ ", found " ++ fault.wrongText ∧
      ∀ other : Fault, other.wrongText = fault.wrongText → other = fault := by
  obtain ⟨before, c, rest, htext, htrivium, hlex, rfl, tokens, htokens⟩ :=
    exists_fault_of_tokensFrom h
  have hat : (Fault.ofFirst c rest).At (c :: rest) := at_ofFirst hlex htrivium
  have hposition : Position.start.advanceOver before = .counted before :=
    Position.after_eq_counted before
  refine ⟨before, c :: rest, Fault.ofFirst c rest, htext, ?_, ?_, ⟨tokens, ?_⟩, hat, ?_,
    message_eq _ _, fun other hother => Fault.wrongText_injective hother⟩
  · rw [hposition]
    rfl
  · intro before' rest' htext' hposition'
    have hafter : Position.after before' = Position.after before := by
      rw [Position.after_eq_counted before']
      exact hposition'.symm
    exact Position.eq_of_after_eq (htext'.symm.trans htext) hafter
  · rw [tokenize, String.toList_ofList]
    exact htokens
  · intro other hother
    rw [hother.eq_ofFirst, hat.eq_ofFirst]

/-- A comment that a carriage return breaks off is none: its first character is the fault. -/
theorem broken_comment_located :
    tokenize "run #a\rb" = .error ⟨⟨1, 5⟩, .token, .character '#'⟩ ∧
      (∃ tokens, tokenize "run " = .ok tokens) ∧ Fault.At (.stray '#') "#a\rb".toList := by
  have herror : tokenize "run #a\rb" = .error ⟨⟨1, 5⟩, .token, .character '#'⟩ := by
    with_unfolding_all rfl
  obtain ⟨before, rest, fault, htext, he, hunique, htokens, hat, -, -, -⟩ :=
    tokenize_error_located herror
  obtain rfl : "run ".toList = before := hunique "run ".toList "#a\rb".toList rfl (by decide)
  have hsplit : "run ".toList ++ "#a\rb".toList = "run ".toList ++ rest := htext
  obtain rfl : "#a\rb".toList = rest := List.append_cancel_left hsplit
  obtain rfl : fault = .stray '#' := hat.eq_ofFirst
  exact ⟨herror, htokens, hat⟩

end Lexer

end ImageSpec

import ImageSpec.Proofs.Words

namespace ImageSpec

/-!
# Layout

Tokens may be written with any blanks and comments between them.  A `Layout` is such a writing: the
tokens, what stands between them and what stands at both ends.

* `Lexer.Separator`, `Lexer.Closing` — what may stand between two tokens, and at the end.
* `Token.written`, `Token.Printable` — a token as text, and the tokens that have one.
* `Lexer.triviaOf_separator` — separators are trivia, whatever follows them.
* `Lexer.lexeme_written` — a written token is read back, if no word goes on behind it.
* `Position.after_eq_counted` — positions by counting line feeds.
* `Layout.tokenize_text` — reading a layout gives its tokens, each where its text starts.
-/

namespace Position

/-- The line and the column just past the text `before`: one more than its line feeds, and one more
    than the characters behind the last of them. -/
def counted (before : List Char) : Position :=
  ⟨before.count '\n' + 1, (before.reverse.takeWhile (· ≠ '\n')).length + 1⟩

/-- The position behind two texts is reached over the first and then over the second. -/
theorem after_append (before cs : List Char) :
    after (before ++ cs) = (after before).advanceOver cs := List.foldl_append

/-- Stepping over a text character by character counts its lines and columns. -/
theorem after_eq_counted (before : List Char) : after before = counted before := by
  -- the last character decides, so the induction is on the text read backwards
  obtain ⟨latestFirst, rfl⟩ : ∃ latestFirst : List Char, before = latestFirst.reverse :=
    ⟨before.reverse, before.reverse_reverse.symm⟩
  induction latestFirst with
  | nil => rfl
  | cons c latestFirst ih =>
    have hstep : after (c :: latestFirst).reverse = (counted latestFirst.reverse).advance c := by
      rw [← ih, List.reverse_cons, after_append]
      rfl
    rw [hstep, advance]
    by_cases hc : c = '\n'
    · simp [counted, hc]
    · simp [counted, hc]

end Position

namespace Lexer

/-! ### What stands between tokens -/

/-- The blanks: the space, the tab, the carriage return and the line feed. -/
def blanks : List Char := [' ', '\t', '\r', '\n']

/-- The characters that are skipped one by one are the blanks. -/
theorem isLayout_iff {c : Char} : isLayout c = true ↔ c ∈ blanks := by
  simp [isLayout, blanks, or_assoc]

/-- What opens a comment. -/
def IsOpener (opener : List Char) : Prop := opener = ['#'] ∨ opener = ['/', '/']

/-- What ends a comment, unless the text ends. -/
def IsLineBreak (ending : List Char) : Prop := ending = ['\n'] ∨ ending = ['\r', '\n']

/-- The text of a comment. -/
def IsRemark (text : List Char) : Prop := ∀ c ∈ text, c ≠ '\r' ∧ c ≠ '\n'

instance (text : List Char) : Decidable (IsRemark text) :=
  List.decidableBAll (fun c => c ≠ '\r' ∧ c ≠ '\n') text

/-- Blanks and comments in any order, each comment with the line break that ends it. -/
inductive Separator : List Char → Prop where
  | nil : Separator []
  | blank {c : Char} {gap : List Char} (hc : c ∈ blanks) (hgap : Separator gap) :
    Separator (c :: gap)
  | comment {opener text ending gap : List Char} (hopener : IsOpener opener)
    (htext : IsRemark text) (hending : IsLineBreak ending) (hgap : Separator gap) :
    Separator (opener ++ text ++ ending ++ gap)

/-- Nothing, or a comment that ends with the whole text. -/
inductive Closing : List Char → Prop where
  | nil : Closing []
  | comment {opener text : List Char} (hopener : IsOpener opener) (htext : IsRemark text) :
    Closing (opener ++ text)

/-- A remark is split off up to the line break behind it. -/
theorem commentOf_append_lineBreak {text ending : List Char} (htext : IsRemark text)
    (hending : IsLineBreak ending) (rest : List Char) :
    commentOf (text ++ (ending ++ rest)) = some (text, ending ++ rest) := by
  induction text with
  | nil => rcases hending with rfl | rfl <;> rfl
  | cons c text ih =>
    obtain ⟨⟨hreturn, hfeed⟩, htext⟩ := List.forall_mem_cons.mp htext
    rw [List.cons_append, commentOf, ih htext]
    · exact hfeed
    · exact fun _ h _ => hreturn h
    · exact hreturn

/-- A remark at the end of the text is split off whole. -/
theorem commentOf_remark {text : List Char} (htext : IsRemark text) :
    commentOf text = some (text, []) := by
  induction text with
  | nil => rfl
  | cons c text ih =>
    obtain ⟨⟨hreturn, hfeed⟩, htext⟩ := List.forall_mem_cons.mp htext
    rw [commentOf, ih htext]
    · exact hfeed
    · exact fun _ h _ => hreturn h
    · exact hreturn

/-- What opens a comment is split off together with its text. -/
theorem triviumOf_comment {opener text rest after : List Char} (hopener : IsOpener opener)
    (h : commentOf rest = some (text, after)) :
    triviumOf (opener ++ rest) = some (opener ++ text, after) := by
  rcases hopener with rfl | rfl <;> simp [triviumOf, h]

/-- A blank is split off by itself. -/
theorem triviumOf_blank {c : Char} (hc : c ∈ blanks) (rest : List Char) :
    triviumOf (c :: rest) = some ([c], rest) := by
  rw [triviumOf]
  · rw [if_pos (isLayout_iff.mpr hc)]
  · rintro rfl
    revert hc
    decide
  · rintro _ rfl _
    revert hc
    decide

/-- A character that is no blank and opens no comment is not trivia. -/
theorem triviumOf_eq_none {c : Char} (hhash : c ≠ '#') (hslash : c ≠ '/')
    (hblank : c ∉ blanks) (rest : List Char) : triviumOf (c :: rest) = none := by
  rw [triviumOf]
  · rw [if_neg (mt isLayout_iff.mp hblank)]
  · exact hhash
  · exact fun _ h _ => hslash h

/-- Trivia are split off one piece after the other. -/
theorem triviaOf_of_triviumOf {cs gap after : List Char} (h : triviumOf cs = some (gap, after)) :
    triviaOf cs = (gap ++ (triviaOf after).1, (triviaOf after).2) := by
  rw [triviaOf]
  split
  · next hnone =>
    rw [h] at hnone
    cases hnone
  · next hsome =>
    rw [h] at hsome
    cases hsome
    rfl

/-- Where no piece of trivia starts, there are none. -/
theorem triviaOf_of_none {cs : List Char} (h : triviumOf cs = none) : triviaOf cs = ([], cs) := by
  rw [triviaOf]
  split
  · rfl
  · next hsome =>
    rw [h] at hsome
    cases hsome

/-- A blank and the trivia behind it are split off. -/
theorem triviaOf_blank {c : Char} (hc : c ∈ blanks) (rest : List Char) :
    triviaOf (c :: rest) = (c :: (triviaOf rest).1, (triviaOf rest).2) :=
  triviaOf_of_triviumOf (triviumOf_blank hc rest)

/-- A line break and the trivia behind it are split off. -/
theorem triviaOf_lineBreak {ending : List Char} (h : IsLineBreak ending) (rest : List Char) :
    triviaOf (ending ++ rest) = (ending ++ (triviaOf rest).1, (triviaOf rest).2) := by
  rcases h with rfl | rfl
  · exact triviaOf_blank (by decide) rest
  · show triviaOf ('\r' :: '\n' :: rest) = _
    rw [triviaOf_blank (by decide), triviaOf_blank (by decide)]
    rfl

/-- **Separators are trivia.** A separator is split off whole, and the trivia behind it as well. -/
theorem triviaOf_separator {gap : List Char} (h : Separator gap) (rest : List Char) :
    triviaOf (gap ++ rest) = (gap ++ (triviaOf rest).1, (triviaOf rest).2) := by
  induction h with
  | nil => rfl
  | blank hc hgap ih => rw [List.cons_append, triviaOf_blank hc, ih, List.cons_append]
  | @comment opener text ending gap hopener htext hending hgap ih =>
    have htrivium :=
      triviumOf_comment hopener (commentOf_append_lineBreak htext hending (gap ++ rest))
    simp only [List.append_assoc] at htrivium ⊢
    rw [triviaOf_of_triviumOf htrivium, triviaOf_lineBreak hending, ih, List.append_assoc]

/-- A comment at the end of the text leaves nothing. -/
theorem triviaOf_closing {closing : List Char} (h : Closing closing) :
    triviaOf closing = (closing, []) := by
  cases h with
  | nil => exact triviaOf_of_none rfl
  | comment hopener htext =>
    rw [triviaOf_of_triviumOf (triviumOf_comment hopener (commentOf_remark htext)),
      triviaOf_of_none rfl, List.append_nil]

/-! ### Where a word ends -/

/-- No word and no number goes on into the text. -/
def Bounded (rest : List Char) : Prop := ∀ c ∈ rest.head?, isWordPart c = false

theorem isWordPart_of_isDigit {c : Char} (h : c.isDigit = true) : isWordPart c = true := by
  simp [isWordPart, Char.isAlphanum, h]

theorem isWordPart_of_isWordStart {c : Char} (h : isWordStart c = true) : isWordPart c = true := by
  rw [isWordStart, Bool.or_eq_true] at h
  rcases h with h | h <;> simp [isWordPart, Char.isAlphanum, h]

/-- No word starts with a digit. -/
theorem isDigit_of_isWordStart {c : Char} (h : isWordStart c = true) : c.isDigit = false := by
  rw [isWordStart, Bool.or_eq_true, beq_iff_eq] at h
  rcases h with h | rfl
  · -- the digits come before both ranges of letters
    have hletter : (decide ('A'.val ≤ c.val ∧ c.val ≤ 'Z'.val)
        || (decide ('a'.val ≤ c.val) && decide (c.val ≤ 'z'.val))) = true := h
    simp only [Bool.or_eq_true, Bool.and_eq_true, decide_eq_true_eq, UInt32.le_iff_toNat_le]
      at hletter
    rw [← Bool.not_eq_true, Char.isDigit_iff_toNat]
    have hupper : 'A'.val.toNat = 65 := rfl
    have hlower : 'a'.val.toNat = 97 := rfl
    have hnine : '9'.toNat = 57 := rfl
    have hc : c.toNat = c.val.toNat := rfl
    omega
  · rfl

/-- What goes on in a word differs from what does not. -/
theorem ne_of_isWordPart {c d : Char} (hc : isWordPart c = true) (hd : isWordPart d = false) :
    c ≠ d := by
  rintro rfl
  rw [hc] at hd
  cases hd

/-- A blank ends a word. -/
theorem isWordPart_of_mem_blanks {c : Char} (h : c ∈ blanks) : isWordPart c = false := by
  have hblanks : blanks.all (fun d => !isWordPart d) = true := by rfl
  simpa using List.all_eq_true.mp hblanks c h

/-- A comment ends a word. -/
theorem bounded_append_of_isOpener {opener : List Char} (h : IsOpener opener) (rest : List Char) :
    Bounded (opener ++ rest) := by
  rcases h with rfl | rfl <;> simp [Bounded] <;> rfl

/-- A separator ends a word; where there is none, what follows has to. -/
theorem bounded_separator_append {gap rest : List Char} (h : Separator gap)
    (hrest : gap = [] → Bounded rest) : Bounded (gap ++ rest) := by
  cases h with
  | nil => exact hrest rfl
  | blank hc hgap => simpa [Bounded] using isWordPart_of_mem_blanks hc
  | comment hopener htext hending hgap =>
    simp only [List.append_assoc]
    exact bounded_append_of_isOpener hopener _

/-- The end of the text ends a word, with a comment or without. -/
theorem bounded_closing {closing : List Char} (h : Closing closing) : Bounded closing := by
  cases h with
  | nil => simp [Bounded]
  | comment hopener htext => exact bounded_append_of_isOpener hopener _

/-- Characters of a class up to a place where no word goes on are all that is taken. -/
theorem span_bounded {p : Char → Bool} {cs rest : List Char}
    (hp : ∀ c, p c = true → isWordPart c = true) (hcs : cs.all p = true) (hrest : Bounded rest) :
    (cs ++ rest).takeWhile p = cs ∧ (cs ++ rest).dropWhile p = rest := by
  have hall : ∀ c ∈ cs, p c = true := List.all_eq_true.mp hcs
  rw [List.takeWhile_append_of_pos hall, List.dropWhile_append_of_pos hall]
  cases rest with
  | nil => simp
  | cons c rest =>
    have hc : ¬ p c = true := fun h => ne_of_isWordPart (hp c h) (hrest c rfl) rfl
    simp [hc]

end Lexer

/-! ### Written tokens -/

namespace Token

/-- A token as it is written. -/
def written : Token → List Char
  | step => "step".toList
  | after => "after".toList
  | word name => name.toList
  | literal value => Script.doubleQuoted value.toList
  | integer value => value.repr.toList
  | openBrace => ['\x7b']
  | closeBrace => ['\x7d']
  | openBracket => ['[']
  | closeBracket => [']']
  | equals => ['=']
  | comma => [',']
  | semicolon => [';']

/-- The tokens that a text can hold: words that are not reserved, integers that are not too large
    and all others. -/
def Printable : Token → Prop
  | word name => IsWord name ∧ name ≠ "step" ∧ name ≠ "after"
  | integer value => value ≤ maxInteger
  | _ => True

/-- The characters that are symbols. -/
def symbols : List Char := ['\x7b', '\x7d', '[', ']', '=', ',', ';']

/-- The characters that are read as symbols are the symbols. -/
theorem mem_symbols {c : Char} {t : Token} (h : ofSymbol? c = some t) : c ∈ symbols := by
  unfold ofSymbol? at h
  grind [symbols]

end Token

namespace Lexer

/-- A text whose first character is `c` starts with the token `t`, written with `c` and `cs`. -/
structure Starts (t : Token) (c : Char) (cs rest : List Char) : Prop where
  triviumOf_eq : triviumOf (c :: (cs ++ rest)) = none
  lexeme_eq : lexeme c (cs ++ rest) = some ⟨t, c :: cs, rest⟩

/-- No trivia start with a character of a word. -/
theorem triviumOf_of_isWordPart {c : Char} (h : isWordPart c = true) (rest : List Char) :
    triviumOf (c :: rest) = none := by
  have hblank : c ∉ blanks := by
    intro hc
    rw [isWordPart_of_mem_blanks hc] at h
    cases h
  exact triviumOf_eq_none (ne_of_isWordPart h rfl) (ne_of_isWordPart h rfl) hblank rest

/-- No symbol is a character of a word. -/
theorem ofSymbol?_of_isWordPart {c : Char} (h : isWordPart c = true) :
    Token.ofSymbol? c = none := by
  rw [Option.eq_none_iff_forall_ne_some]
  intro t ht
  have hsymbol := Token.mem_symbols ht
  have hpart : isWordPart c = false := by
    simp only [Token.symbols, List.mem_cons, List.not_mem_nil, or_false] at hsymbol
    rcases hsymbol with rfl | rfl | rfl | rfl | rfl | rfl | rfl <;> rfl
  exact ne_of_isWordPart h hpart rfl

/-- A symbol is read as its token, whatever follows. -/
theorem starts_symbol {c : Char} {t : Token} (h : Token.ofSymbol? c = some t)
    (rest : List Char) : Starts t c [] rest := by
  have hsymbol := Token.mem_symbols h
  have hother : c ≠ '#' ∧ c ≠ '/' ∧ c ∉ blanks ∧ c ≠ '"' := by
    simp only [Token.symbols, List.mem_cons, List.not_mem_nil, or_false] at hsymbol
    rcases hsymbol with rfl | rfl | rfl | rfl | rfl | rfl | rfl <;> decide
  obtain ⟨hhash, hslash, hblank, hquote⟩ := hother
  constructor
  · exact triviumOf_eq_none hhash hslash hblank _
  · rw [lexeme, if_neg hquote, h]
    rfl

/-- A value with its quotes and backslashes escaped. -/
def escaped (cs : List Char) : List Char :=
  cs.flatMap fun c => if c = '"' ∨ c = '\\' then ['\\', c] else [c]

/-- A value is escaped character by character. -/
theorem escaped_cons (c : Char) (cs : List Char) :
    escaped (c :: cs) = (if c = '"' ∨ c = '\\' then ['\\', c] else [c]) ++ escaped cs := by
  rw [escaped, List.flatMap_cons]
  rfl

/-- **Literals.** Reading undoes quoting, whatever the value holds. -/
theorem literalOf_escaped (cs rest : List Char) :
    literalOf (escaped cs ++ '"' :: rest) = some (cs, escaped cs ++ ['"'], rest) := by
  induction cs with
  | nil => rfl
  | cons c cs ih =>
    rw [escaped_cons]
    by_cases hc : c = '"' ∨ c = '\\'
    · have hunescape : unescape c = [c] := by rcases hc with rfl | rfl <;> rfl
      rw [if_pos hc, List.append_assoc, List.cons_append, List.cons_append, List.nil_append,
        literalOf, ih, hunescape]
      rfl
    · rw [if_neg hc, List.append_assoc, List.singleton_append, literalOf, ih]
      · rfl
      · exact fun h => hc (Or.inl h)
      · exact fun h _ => hc (Or.inr h)
      · exact fun _ _ h _ => hc (Or.inr h)

/-- A quoted value is read as a literal, whatever follows. -/
theorem starts_literal (value rest : List Char) :
    Starts (.literal (String.ofList value)) '"' (escaped value ++ ['"']) rest := by
  constructor
  · exact triviumOf_eq_none (by decide) (by decide) (by decide) _
  · rw [lexeme, if_pos rfl, List.append_assoc, List.singleton_append, literalOf_escaped]

/-- Digits of a number that is not too large are read as that number. -/
theorem starts_digits {c : Char} {digits rest : List Char} (hc : c.isDigit = true)
    (hdigits : digits.all Char.isDigit = true)
    (hsmall : Text.decimal (c :: digits) ≤ Token.maxInteger) (hrest : Bounded rest) :
    Starts (.integer (Text.decimal (c :: digits))) c digits rest := by
  have hpart := isWordPart_of_isDigit hc
  have hquote : c ≠ '"' := ne_of_isWordPart hpart rfl
  obtain ⟨htake, hdrop⟩ := span_bounded (fun _ => isWordPart_of_isDigit) hdigits hrest
  constructor
  · exact triviumOf_of_isWordPart hpart _
  · rw [lexeme, if_neg hquote, ofSymbol?_of_isWordPart hpart]
    dsimp only
    rw [if_pos hc, htake, hdrop, if_pos hsmall]

/-- The characters of a word are read as its token. -/
theorem starts_word {t : Token} {c : Char} {name rest : List Char}
    (ht : Token.ofWord (String.ofList (c :: name)) = t) (hc : isWordStart c = true)
    (hname : name.all isWordPart = true) (hrest : Bounded rest) : Starts t c name rest := by
  have hpart := isWordPart_of_isWordStart hc
  have hquote : c ≠ '"' := ne_of_isWordPart hpart rfl
  obtain ⟨htake, hdrop⟩ := span_bounded (fun _ => id) hname hrest
  constructor
  · exact triviumOf_of_isWordPart hpart _
  · rw [lexeme, if_neg hquote, ofSymbol?_of_isWordPart hpart]
    dsimp only
    rw [if_neg (by simp [isDigit_of_isWordStart hc]), if_pos hc, htake, hdrop, ht]

/-- The digits of a number stand for it. -/
theorem decimal_toDigits (n : Nat) : Text.decimal (Nat.toDigits 10 n) = n := by
  have h := Nat.ofDigitChars_ten_toDigits (n := n)
  rw [Nat.ofDigitChars_eq_foldl] at h
  exact h

/-- A number that is not too large is read back from its digits. -/
theorem starts_integer {n : Nat} (hn : n ≤ Token.maxInteger) {rest : List Char}
    (hrest : Bounded rest) : ∃ c cs, n.repr.toList = c :: cs ∧ Starts (.integer n) c cs rest := by
  have hvalue := decimal_toDigits n
  have hdigits : (Nat.toDigits 10 n).all Char.isDigit = true :=
    List.all_eq_true.mpr fun c hc => Nat.isDigit_of_mem_toDigits (by decide) (by decide) hc
  rw [Nat.toList_repr]
  obtain ⟨c, cs, heq⟩ := List.exists_cons_of_ne_nil (Nat.toDigits_ne_nil (n := n) (b := 10))
  rw [heq] at hvalue hdigits
  rw [List.all_cons, Bool.and_eq_true] at hdigits
  refine ⟨c, cs, heq, ?_⟩
  have hstarts := starts_digits hdigits.1 hdigits.2 (hvalue ▸ hn) hrest
  rwa [hvalue] at hstarts

/-- **Tokens.** A token is read back from what is written for it, if no word goes on behind it. -/
theorem lexeme_written {t : Token} (ht : t.Printable) {rest : List Char} (hrest : Bounded rest) :
    ∃ c cs, t.written = c :: cs ∧ Starts t c cs rest := by
  cases t with
  | step => exact ⟨'s', "tep".toList, rfl, starts_word rfl rfl rfl hrest⟩
  | after => exact ⟨'a', "fter".toList, rfl, starts_word rfl rfl rfl hrest⟩
  | word name =>
    -- the two words that have tokens of their own are none of these
    obtain ⟨hword, hstep, hafter⟩ := ht
    obtain ⟨c, cs, hname, hstart, hparts⟩ := isWord_iff.mp hword
    have htoken : Token.ofWord (String.ofList (c :: cs)) = .word name := by
      rw [← hname, String.ofList_toList, Token.ofWord, if_neg hstep, if_neg hafter]
    exact ⟨c, cs, hname, starts_word htoken hstart hparts hrest⟩
  | literal value =>
    have hliteral := starts_literal value.toList rest
    rw [String.ofList_toList] at hliteral
    exact ⟨'"', _, rfl, hliteral⟩
  | integer value => exact starts_integer ht hrest
  | openBrace => exact ⟨_, [], rfl, starts_symbol rfl rest⟩
  | closeBrace => exact ⟨_, [], rfl, starts_symbol rfl rest⟩
  | openBracket => exact ⟨_, [], rfl, starts_symbol rfl rest⟩
  | closeBracket => exact ⟨_, [], rfl, starts_symbol rfl rest⟩
  | equals => exact ⟨_, [], rfl, starts_symbol rfl rest⟩
  | comma => exact ⟨_, [], rfl, starts_symbol rfl rest⟩
  | semicolon => exact ⟨_, [], rfl, starts_symbol rfl rest⟩

/-! ### One token after another -/

/-- Trivia up to the end of the text hold no token. -/
theorem tokensFrom_of_closing {p : Position} {cs gap : List Char} (h : triviaOf cs = (gap, [])) :
    tokensFrom p cs = .ok [] := by
  rw [tokensFrom]
  split
  · rfl
  · next hrest =>
    rw [h] at hrest
    cases hrest

/-- Behind trivia, the token that starts there is read first, and then what follows it. -/
theorem tokensFrom_of_starts {p : Position} {t : Token} {c : Char} {cs rest gap text : List Char}
    {tokens : List (Placed Token)} (htext : triviaOf text = (gap, c :: (cs ++ rest)))
    (h : Starts t c cs rest)
    (htokens : tokensFrom ((p.advanceOver gap).advanceOver (c :: cs)) rest = .ok tokens) :
    tokensFrom p text = .ok (⟨p.advanceOver gap, t⟩ :: tokens) := by
  rw [tokensFrom]
  split
  · next hrest =>
    rw [htext] at hrest
    cases hrest
  · next hrest =>
    rw [htext] at hrest
    cases hrest
    split
    · next hlex =>
      rw [h.lexeme_eq] at hlex
      cases hlex
    · next hlex =>
      rw [h.lexeme_eq] at hlex
      cases hlex
      dsimp only
      rw [htext, htokens]

end Lexer

/-- A token and what stands between it and the next one. -/
structure Printed where
  token : Token
  gap : List Char

namespace Printed

/-- A token as it is written, and what follows it. -/
def text (i : Printed) : List Char := i.token.written ++ i.gap

/-- The tokens, each at the position where its text starts. -/
def placed (before : List Char) (items : List Printed) : List (Placed Token) :=
  items.mapIdx fun n i => ⟨.counted (before ++ (items.take n).flatMap text), i.token⟩

/-- The first token stands behind what is before all of them, and the others behind the first. -/
theorem placed_cons (before : List Char) (i : Printed) (items : List Printed) :
    placed before (i :: items) = ⟨.counted before, i.token⟩ :: placed (before ++ i.text) items := by
  simp [placed, List.mapIdx_cons]

open Lexer in
/-- Reading takes the tokens one by one, whatever stands between them. -/
theorem tokensFrom_printed {items : List Printed} {closing : List Char}
    (hprintable : ∀ i ∈ items, i.token.Printable) (hgaps : ∀ i ∈ items, Separator i.gap)
    (hinner : ∀ i ∈ items.dropLast, i.gap ≠ []) (hclosing : Closing closing) (before : List Char)
    {gap : List Char} (hgap : Separator gap) :
    tokensFrom (.after before) (gap ++ (items.flatMap text ++ closing))
      = .ok (placed (before ++ gap) items) := by
  induction items generalizing before gap with
  | nil =>
    have htrivia := triviaOf_separator hgap closing
    rw [triviaOf_closing hclosing] at htrivia
    exact tokensFrom_of_closing htrivia
  | cons i items ih =>
    obtain ⟨hi, hprintable⟩ := List.forall_mem_cons.mp hprintable
    obtain ⟨hnext, hgaps⟩ := List.forall_mem_cons.mp hgaps
    -- The token's text ends where the gap behind it starts; only the last gap may be empty.
    have hbounded : Bounded (i.gap ++ (items.flatMap text ++ closing)) := by
      apply bounded_separator_append hnext
      intro hempty
      cases items with
      | nil => exact bounded_closing hclosing
      | cons j items => exact absurd hempty (hinner i (by simp))
    have hrest : ∀ j ∈ items.dropLast, j.gap ≠ [] := by
      intro j hj
      cases items with
      | nil => cases hj
      | cons k items => exact hinner j (by simp [hj])
    obtain ⟨c, cs, hwritten, hstarts⟩ := lexeme_written hi hbounded
    have htext : (i :: items).flatMap text ++ closing
        = c :: (cs ++ (i.gap ++ (items.flatMap text ++ closing))) := by
      simp [text, hwritten]
    have htrivia := triviaOf_separator hgap ((i :: items).flatMap text ++ closing)
    rw [htext, triviaOf_of_none hstarts.triviumOf_eq, List.append_nil] at htrivia
    have htokens := ih hprintable hgaps hrest (before ++ gap ++ i.token.written) hnext
    rw [Position.after_append, Position.after_append, hwritten] at htokens
    rw [htext, tokensFrom_of_starts htrivia hstarts htokens, ← Position.after_append,
      Position.after_eq_counted, placed_cons, text, hwritten, ← List.append_assoc _ (c :: cs)]

end Printed

/-- A way to write tokens down: any separators between them, none of them empty, and at both ends,
    and perhaps a comment that ends with the text. -/
structure Layout where
  lead : List Char
  items : List Printed
  closing : List Char
  separator_lead : Lexer.Separator lead
  printable_token : ∀ i ∈ items, i.token.Printable
  separator_gap : ∀ i ∈ items, Lexer.Separator i.gap
  gap_ne_nil : ∀ i ∈ items.dropLast, i.gap ≠ []
  isClosing_closing : Lexer.Closing closing

namespace Layout

/-- The text of a layout. -/
def text (l : Layout) : String :=
  String.ofList (l.lead ++ (l.items.flatMap Printed.text ++ l.closing))

/-- The tokens of a layout, each at the line and column where its text starts. -/
def tokens (l : Layout) : List (Placed Token) := Printed.placed l.lead l.items

/-- **Reading undoes writing.** Whatever the layout, reading it succeeds and gives its tokens, each
    at the line and column where its text starts. -/
theorem tokenize_text (l : Layout) : Lexer.tokenize l.text = .ok l.tokens := by
  have h := Printed.tokensFrom_printed l.printable_token l.separator_gap l.gap_ne_nil
    l.isClosing_closing [] l.separator_lead
  rw [Lexer.tokenize, text, String.toList_ofList]
  exact h

/-- A layout with both kinds of comments, both line breaks and a literal that looks like both. -/
def sample : Layout where
  lead := "# head\r\n\t".toList
  items := [⟨.word "base", [' ']⟩, ⟨.equals, "//\n".toList⟩, ⟨.literal "a \"#\\\n//", ['\n', ' ']⟩,
    ⟨.integer 40, []⟩]
  closing := "// end".toList
  separator_lead := by
    show Lexer.Separator (['#'] ++ " head".toList ++ ['\r', '\n'] ++ ['\t'])
    exact .comment (.inl rfl) (by decide) (.inr rfl) (.blank (by decide) .nil)
  printable_token := by
    have hbase : IsWord "base" := Lexer.isWord_iff.mpr ⟨'b', _, rfl, rfl, rfl⟩
    have hinteger : 40 ≤ Token.maxInteger := by decide
    simp [Token.Printable, hbase, hinteger]
  separator_gap := by
    have hcomment : Lexer.Separator (['/', '/'] ++ [] ++ ['\n'] ++ []) :=
      .comment (.inr rfl) (by decide) (.inl rfl) .nil
    simp only [List.forall_mem_cons, List.not_mem_nil, false_implies, implies_true, and_true]
    have hspace {gap : List Char} (h : Lexer.Separator gap) : Lexer.Separator (' ' :: gap) :=
      .blank (by decide) h
    exact ⟨hspace .nil, hcomment, .blank (by decide) (hspace .nil), .nil⟩
  gap_ne_nil := by decide
  isClosing_closing := by
    show Lexer.Closing (['/', '/'] ++ " end".toList)
    exact .comment (.inr rfl) (by decide)

theorem tokenize_sample :
    Lexer.tokenize "# head\r\n\tbase =//\n\"a \\\"#\\\\\n//\"\n 40// end"
      = .ok [⟨⟨2, 2⟩, .word "base"⟩, ⟨⟨2, 7⟩, .equals⟩, ⟨⟨3, 1⟩, .literal "a \"#\\\n//"⟩,
        ⟨⟨5, 2⟩, .integer 40⟩] :=
  tokenize_text sample

end Layout

end ImageSpec

import ImageSpec.Proofs.Prerequisites

namespace ImageSpec

/-!
# The names of steps are words

A step gets its name from the text of a specification, and nothing but a word can stand there.

* `IsWord` — a letter or `_`, and then letters, digits, `_`, `-` and `.`.
* `isWord_of_tokensFrom` — the words among the tokens of a text.
* `suffix_of_readPlain`, `suffix_of_readHeader` — readers take tokens from the front.
* `isWord_of_ofChars` — the names of the steps of a specification.
-/

/-- A text that can stand as a name in a specification: a letter or `_`, and then letters, digits,
    `_`, `-` and `.`. -/
def IsWord (name : String) : Prop :=
  ∃ c cs, name.toList = c :: cs ∧ (c.isAlpha = true ∨ c = '_') ∧
    ∀ d ∈ cs, d.isAlpha = true ∨ d.isDigit = true ∨ d = '_' ∨ d = '-' ∨ d = '.'

namespace Lexer

/-- The characters that a word may start with. -/
theorem isWordStart_iff {c : Char} : isWordStart c = true ↔ c.isAlpha = true ∨ c = '_' := by
  simp [isWordStart]

/-- The characters that a word may go on with. -/
theorem isWordPart_iff {c : Char} :
    isWordPart c = true ↔
      c.isAlpha = true ∨ c.isDigit = true ∨ c = '_' ∨ c = '-' ∨ c = '.' := by
  simp [isWordPart, Char.isAlphanum, or_assoc]

/-- A text is a word if and only if it is read as one. -/
theorem isWord_iff {name : String} :
    IsWord name ↔
      ∃ c cs, name.toList = c :: cs ∧ isWordStart c = true ∧ cs.all isWordPart = true := by
  simp only [IsWord, isWordStart_iff, List.all_eq_true, isWordPart_iff]

/-- What is read as a word is one. -/
theorem isWord_of_lexeme {c : Char} {rest : List Char} {l : Lexeme} {name : String}
    (h : lexeme c rest = some l) (hname : l.token = .word name) : IsWord name := by
  -- of a literal, a symbol, an integer and a word, only the last has a name
  unfold lexeme at h
  split at h
  · split at h <;> cases h
    cases hname
  · split at h
    · next symbol hsymbol =>
      cases h
      unfold Token.ofSymbol? at hsymbol
      grind
    · split at h
      · dsimp only at h
        split at h <;> cases h
        cases hname
      · split at h
        · next hstart =>
          cases h
          refine isWord_iff.mpr ⟨c, rest.takeWhile isWordPart, ?_, hstart, List.all_takeWhile⟩
          unfold Token.ofWord at hname
          grind [String.toList_ofList]
        · cases h

/-- **Words among tokens.** -/
theorem isWord_of_tokensFrom {p : Position} {cs : List Char} {tokens : List (Placed Token)}
    (h : tokensFrom p cs = .ok tokens) :
    ∀ t ∈ tokens, ∀ name, t.value = .word name → IsWord name := by
  fun_induction tokensFrom p cs generalizing tokens with
  | case1 =>
    cases h
    simp
  | case2 => cases h
  | case3 => cases h
  | case4 p cs gap c rest hrest here l hlex tokens' htokens =>
    rename_i ih
    cases h
    refine List.forall_mem_cons.mpr ⟨fun name hname => ?_, ih htokens⟩
    exact isWord_of_lexeme hlex hname

end Lexer

namespace Declaration

/-! ### Readers take tokens from the front -/

/-- A token is read off the front. -/
theorem suffix_of_readExactly {eof p : Position} {t : Token} {ts rest : Tokens}
    (h : readExactly eof t ts = .ok (p, rest)) : rest <:+ ts := by
  cases ts with
  | nil => cases h
  | cons next tail =>
    rw [readExactly] at h
    split at h
    · cases h
      exact List.suffix_cons _ _
    · cases h

theorem suffix_of_readLiteral {eof : Position} {s : Placed String} {ts rest : Tokens}
    (h : readLiteral eof ts = .ok (s, rest)) : rest <:+ ts := by
  unfold readLiteral at h
  split at h <;> cases h
  exact List.suffix_cons _ _

theorem suffix_of_readAssigned {eof : Position} {s : Placed String} {ts rest : Tokens}
    (h : readAssigned eof ts = .ok (s, rest)) : rest <:+ ts := by
  unfold readAssigned at h
  split at h
  · cases h
  · next hequals => exact (suffix_of_readLiteral h).trans (suffix_of_readExactly hequals)

theorem suffix_of_readItems {eof opener : Position} {items : List String} {ts rest : Tokens}
    (h : readItems eof opener ts = .ok (items, rest)) : rest <:+ ts := by
  fun_induction readItems eof opener ts generalizing items rest with
  | case2 _ tail =>
    cases h
    exact List.suffix_cons _ _
  | case3 _ item _ tail items' rest' hitems ih =>
    cases h
    exact (ih hitems).trans ((List.suffix_cons _ _).trans (List.suffix_cons _ _))
  | case5 =>
    cases h
    exact (List.suffix_cons _ _).trans (List.suffix_cons _ _)
  | _ => cases h

theorem suffix_of_readValue {eof : Position} {value : Value} {ts rest : Tokens}
    (h : readValue eof ts = .ok (value, rest)) : rest <:+ ts := by
  unfold readValue at h
  split at h
  · cases h
    exact List.suffix_cons _ _
  · cases h
    exact List.suffix_cons _ _
  · split at h <;> cases h
    next hitems => exact (suffix_of_readItems hitems).trans (List.suffix_cons _ _)
  · cases h

/-- A separator is skipped at the front. -/
theorem skipSeparator_suffix (ts : Tokens) : skipSeparator ts <:+ ts := by
  unfold skipSeparator
  split
  · exact List.suffix_cons _ _
  · exact List.suffix_cons _ _
  · exact List.suffix_refl _

theorem suffix_of_readEntries {eof opener : Position} {entries : List Entry} {ts rest : Tokens}
    (h : readEntries eof opener ts = .ok (entries, rest)) : rest <:+ ts := by
  fun_induction readEntries eof opener ts generalizing entries rest with
  | case2 =>
    cases h
    exact List.suffix_cons _ _
  | case6 next tail hb key hkey value rest₁ hvalue entries₁ rest₂ hentries ih =>
    cases h
    have hrest := (ih hentries).trans (skipSeparator_suffix rest₁)
    exact (hrest.trans (suffix_of_readAssigned hvalue)).trans (List.suffix_cons _ _)
  | _ => cases h

theorem suffix_of_readReference {eof : Position} {r : Reference} {ts rest : Tokens}
    (h : readReference eof ts = .ok (r, rest)) : rest <:+ ts := by
  unfold readReference at h
  split at h
  · cases h
  · next hwritten =>
    split at h <;> cases h
    exact suffix_of_readAssigned hwritten

/-- What follows the keyword of a declaration is taken from the front, and the declaration is no
    step. -/
theorem suffix_of_readPlain {eof p : Position} {word : String} {d : Declaration}
    {ts rest : Tokens} (h : readPlain eof p word ts = .ok (d, rest)) :
    rest <:+ ts ∧ d.stepName? = none := by
  unfold readPlain at h
  -- the keyword is tried as that of a base image, a dependency, a block and an instruction
  split at h
  · split at h <;> cases h
    next hreference => exact ⟨suffix_of_readReference hreference, rfl⟩
  · split at h
    · split at h <;> cases h
      next hreference => exact ⟨suffix_of_readReference hreference, rfl⟩
    · split at h
      · split at h
        · cases h
        · next hopener =>
          split at h <;> cases h
          next hentries =>
            exact ⟨(suffix_of_readEntries hentries).trans (suffix_of_readExactly hopener), rfl⟩
      · split at h
        · split at h
          · cases h
          · next hequals =>
            split at h <;> cases h
            next hvalue =>
              exact ⟨(suffix_of_readValue hvalue).trans (suffix_of_readExactly hequals), rfl⟩
        · cases h

theorem suffix_of_readNames {eof : Position} {names : List Prerequisite} {ts rest : Tokens}
    (h : readNames eof ts = .ok (names, rest)) : rest <:+ ts := by
  fun_induction readNames eof ts generalizing names rest with
  | case1 _ _ _ tail names' rest' hnames ih =>
    cases h
    exact (ih hnames).trans ((List.suffix_cons _ _).trans (List.suffix_cons _ _))
  | case3 =>
    cases h
    exact List.suffix_cons _ _
  | _ => cases h

theorem suffix_of_readAfter {eof : Position} {names : List Prerequisite} {ts rest : Tokens}
    (h : readAfter eof ts = .ok (names, rest)) : rest <:+ ts := by
  unfold readAfter at h
  split at h
  · exact (suffix_of_readNames h).trans (List.suffix_cons _ _)
  · cases h
    exact List.suffix_refl _

/-- The header of a step is taken from the front and has the step's name as a word. -/
theorem suffix_of_readHeader {eof p : Position} {before : List Declaration} {s : OpenStep}
    {ts rest : Tokens} (h : readHeader eof p before ts = .ok (s, rest)) :
    rest <:+ ts ∧ s.before = before ∧ ∃ t ∈ ts, t.value = .word s.name := by
  unfold readHeader at h
  split at h
  · cases h
  · next hword =>
    unfold readWord at hword
    split at hword <;> cases hword
    split at h
    · cases h
    · next hafter =>
      split at h <;> cases h
      next hopener =>
        have hrest := (suffix_of_readExactly hopener).trans (suffix_of_readAfter hafter)
        exact ⟨hrest.trans (List.suffix_cons _ _), rfl, _, List.mem_cons_self, rfl⟩

/-! ### Names -/

/-- All words among tokens are words. -/
def WordTokens (ts : Tokens) : Prop := ∀ t ∈ ts, ∀ name, t.value = .word name → IsWord name

/-- All names of steps among declarations are words. -/
def WordNames (ds : List Declaration) : Prop :=
  ∀ d ∈ ds, ∀ name, d.stepName? = some name → IsWord name

/-- If all words among tokens are words, so are those among the rest. -/
theorem WordTokens.of_suffix {ts rest : Tokens} (h : WordTokens ts) (hrest : rest <:+ ts) :
    WordTokens rest := fun t ht => h t (hrest.subset ht)

/-- Declarations that are read get words for names, if those that are still open have words. -/
theorem wordNames_of_readFrom {eof : Position} {groups : List OpenStep}
    {latestFirst ds : List Declaration} {ts : Tokens} (hts : WordTokens ts)
    (hgroups : ∀ g ∈ groups, IsWord g.name ∧ WordNames g.before) (hlatest : WordNames latestFirst)
    (h : readFrom eof groups latestFirst ts = .ok ds) : WordNames ds := by
  -- Along the recursion the steps that are open have words for names, and so have the declarations
  -- before each of them: a closing brace puts both together.
  fun_induction readFrom eof groups latestFirst ts with
  | case1 latestFirst =>
    cases h
    exact fun d hd => hlatest d (List.mem_reverse.mp hd)
  | case3 groups latestFirst p rest ih =>
    exact ih (hts.of_suffix (List.suffix_cons _ _)) hgroups hlatest h
  | case5 latestFirst p rest group outer ih =>
    obtain ⟨⟨hname, hbefore⟩, houter⟩ := List.forall_mem_cons.mp hgroups
    refine ih (hts.of_suffix (List.suffix_cons _ _)) houter ?_ h
    refine List.forall_mem_cons.mpr ⟨fun name heq => ?_, hbefore⟩
    cases heq
    exact hname
  | case7 groups latestFirst p rest group rest' hheader ih =>
    have hrest := hts.of_suffix (List.suffix_cons _ _)
    obtain ⟨hsuffix, hbefore, t, ht, hname⟩ := suffix_of_readHeader hheader
    refine ih (hrest.of_suffix hsuffix) ?_ (by simp [WordNames]) h
    exact List.forall_mem_cons.mpr ⟨⟨hrest t ht _ hname, hbefore ▸ hlatest⟩, hgroups⟩
  | case9 groups latestFirst p rest word d rest' hplain ih =>
    have hrest := hts.of_suffix (List.suffix_cons _ _)
    obtain ⟨hsuffix, hnone⟩ := suffix_of_readPlain hplain
    refine ih (hrest.of_suffix hsuffix) hgroups (List.forall_mem_cons.mpr ⟨?_, hlatest⟩) h
    simp [hnone]
  | _ => cases h

end Declaration

/-- **Names are words.** Every step of a specification that was read from a text has a word for its
    name. -/
theorem isWord_of_ofChars {source : List Char} {spec : Specification}
    (h : Specification.ofChars source = .ok spec) : ∀ name ∈ spec.stepNames, IsWord name := by
  unfold Specification.ofChars at h
  split at h
  · cases h
  · next tokens htokens =>
    intro name hname
    obtain ⟨d, hd, heq⟩ := Specification.mem_stepNames.mp hname
    exact Declaration.wordNames_of_readFrom (Lexer.isWord_of_tokensFrom htokens) (by simp)
      (by simp [Declaration.WordNames]) h d hd name heq

end ImageSpec

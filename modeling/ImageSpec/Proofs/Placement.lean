import ImageSpec.Proofs.Grammar
import ImageSpec.Proofs.Legal
import ImageSpec.Proofs.Words

namespace ImageSpec

/-!
# The tokens that declarations come from

A derivation relates tokens to declarations without their positions.  Here the positions are added:
the tokens of a declaration stand in a row in its source, and each position that the declaration
holds is that of one of these tokens.

* `Declaration.IsKeyword`, `Declaration.IsKey`, `Declaration.IsName` — the parts that tokens have in
  the declaration they are read as.
* `Declaration.Leads` — tokens of a declaration, with the positions that the declaration holds.
* `Declaration.leads_of_readPlain`, `Declaration.heads_of_readHeader` — what the readers take.
* `Declaration.Reading` — what has been read so far, seen from the steps that are still open.
* `Declaration.located_of_read` — every declaration of a source has tokens of its own, at any depth.
* `Lexer.exists_lexeme_of_mem` — every token starts where its position says.
-/

/-! ### Declarations at any depth -/

namespace Specification

theorem not_occurs_nil {c : Declaration} : ¬ Occurs [] c := by
  intro h
  induction h with
  | top h => cases h
  | inner _ _ ih => exact ih

theorem Occurs.of_subset {xs ys : Specification} {c : Declaration} (h : Occurs xs c)
    (hsub : xs ⊆ ys) : Occurs ys c := by
  induction h with
  | top hd => exact .top (hsub hd)
  | inner _ hc ih => exact .inner ih hc

/-- What occurs is a declaration itself or occurs in its body or further on. -/
theorem cases_of_occurs_cons {d : Declaration} {ds : Specification} {c : Declaration}
    (h : Occurs (d :: ds) c) : c = d ∨ Occurs d.body c ∨ Occurs ds c := by
  induction h with
  | top hc =>
    rcases List.mem_cons.mp hc with rfl | hc
    · exact .inl rfl
    · exact .inr (.inr (.top hc))
  | inner _ hc ih =>
    rcases ih with rfl | ih | ih
    · exact .inr (.inl (.top hc))
    · exact .inr (.inl (.inner ih hc))
    · exact .inr (.inr (.inner ih hc))

end Specification

namespace Declaration

open Grammar

/-! ### Parts of tokens -/

/-- Of the tokens `own` of a declaration, `t` is the keyword that leads it. -/
def IsKeyword (own : Tokens) (d : Declaration) (t : Placed Token) : Prop :=
  own.head? = some t ∧ t.value = .ofWord d.keyword

/-- Of the tokens `own` of a block, `t` is the key of the entry `e`: before it stand the opening of
    the block and the entries before. -/
def IsKey (own : Tokens) (d : Declaration) (e : Entry) (t : Placed Token) : Prop :=
  (t.value = .word e.key ∨ t.value = .literal e.key) ∧
    ∃ before after : List Entry, d.entries = before ++ e :: after ∧
      ∃ (front back : Tokens) (ts : List Token), own = front ++ t :: back ∧ Entries ts before ∧
        values front = [Token.word d.keyword, .openBrace] ++ ts

/-- Of the tokens `own` of a step, `t` is the name `q` that it comes after: before it stand the
    opening of the clause and the names before. -/
def IsName (own : Tokens) (d : Declaration) (q : Prerequisite) (t : Placed Token) : Prop :=
  t.value = .word q.name ∧
    ∃ (name : String) (before after : List Prerequisite), d.stepName? = some name ∧
      d.after = before ++ q :: after ∧
      ∃ front back : Tokens, own = front ++ t :: back ∧ values front
        = [Token.step, .word name, .after] ++ before.flatMap fun q => [Token.word q.name, .comma]

/-- The tokens of a declaration: it is derived from them, and every position that it holds is that
    of a token with the part in question. -/
structure Leads (own : Tokens) (d : Declaration) : Prop where
  derived : Statements (values own) [d]
  keyword : IsKeyword own d ⟨d.position, .ofWord d.keyword⟩
  keys : ∀ e ∈ d.entries, ∃ t, t.position = e.position ∧ IsKey own d e t
  names : ∀ q ∈ d.after, ∃ t, t.position = q.position ∧ IsName own d q t

/-- Among the tokens of a source, those of a declaration stand in a row. -/
def Located (tokens : Tokens) (d : Declaration) : Prop :=
  ∃ before own after : Tokens, tokens = before ++ own ++ after ∧ Leads own d

/-! ### Entries -/

theorem values_append (ts us : Tokens) : values (ts ++ us) = values ts ++ values us :=
  List.map_append

/-- What a reader takes is known by its values and by what it leaves. -/
theorem exists_own {ts rest : Tokens} {front : List Token} (hsuffix : rest <:+ ts)
    (hvalues : values ts = front ++ values rest) :
    ∃ own : Tokens, ts = own ++ rest ∧ values own = front := by
  obtain ⟨own, rfl⟩ := hsuffix
  rw [values_append] at hvalues
  exact ⟨own, rfl, List.append_cancel_right hvalues⟩

/-- **Entries.** The key of an entry stands behind the entries before. -/
theorem exists_key_of_readEntries {eof opener : Position} {entries : List Entry}
    {ts rest : Tokens} (h : readEntries eof opener ts = .ok (entries, rest)) {before : List Entry}
    {e : Entry} {after : List Entry} (he : entries = before ++ e :: after) :
    ∃ (front : Tokens) (key : Placed Token) (back : Tokens),
      ts = front ++ key :: (back ++ rest) ∧ key.position = e.position ∧
      (key.value = .word e.key ∨ key.value = .literal e.key) ∧ Entries (values front) before := by
  fun_induction readEntries eof opener ts generalizing entries rest before with
  | case2 p tail =>
    cases h
    simp at he
  | case6 next tail hclose key hkey value rest₁ hvalue entries₁ rest₂ hentries ih =>
    cases h
    have htail : rest₁ <:+ tail := suffix_of_readAssigned hvalue
    have hskip : skipSeparator rest₁ <:+ rest₁ := skipSeparator_suffix rest₁
    cases before with
    | nil =>
      -- the entry is the one that was just read
      cases he
      obtain ⟨back, hback⟩ := ((suffix_of_readEntries hentries).trans hskip).trans htail
      exact ⟨[], next, back, by rw [hback]; rfl, rfl, eq_of_entryKey? hkey, .nil⟩
    | cons first before =>
      obtain ⟨rfl, hrest⟩ := List.cons.inj he
      obtain ⟨front, key', back, hts, hposition, hkey', hfront⟩ := ih hentries hrest
      obtain ⟨separator, hseparator, hseparated⟩ := exists_separator rest₁
      obtain ⟨gap, hgap, hgapValues⟩ := exists_own hskip hseparated
      have hassigns : values tail = [Token.equals, .literal value.value] ++ values rest₁ :=
        values_of_readAssigned hvalue
      obtain ⟨assigned, hassigned, hassignedValues⟩ := exists_own htail hassigns
      refine ⟨next :: assigned ++ gap ++ front, key', back, ?_, hposition, hkey', ?_⟩
      · rw [hassigned, hgap, hts]
        simp
      · have hvalues : values (next :: assigned ++ gap ++ front)
            = [next.value, .equals, .literal value.value] ++ separator ++ values front := by
          simp [values_append, hassignedValues, hgapValues]
        rw [hvalues]
        exact Entries.cons (e := ⟨next.position, key, value.value⟩) (eq_of_entryKey? hkey)
          hseparator hfront
  | _ => cases h

/-- A block is read as its keyword, an opening brace and its entries. -/
theorem readEntries_of_readPlain {eof p : Position} {word : String} {d : Declaration}
    {ts rest : Tokens} (h : readPlain eof p word ts = .ok (d, rest)) (hd : d.entries ≠ []) :
    ∃ opener inner, readExactly eof .openBrace ts = .ok (opener, inner) ∧
      readEntries eof opener inner = .ok (d.entries, rest) := by
  unfold readPlain at h
  split at h
  · split at h <;> cases h
    exact absurd rfl hd
  · split at h
    · split at h <;> cases h
      exact absurd rfl hd
    · split at h
      · split at h
        · cases h
        · -- only a block has entries
          next opener inner hopener =>
          split at h <;> cases h
          next entries hentries => exact ⟨opener, inner, hopener, hentries⟩
      · split at h
        · split at h
          · cases h
          · split at h <;> cases h
            exact absurd rfl hd
        · cases h

/-! ### Plain declarations -/

/-- A declaration is at the position of its keyword. -/
theorem position_of_readPlain {eof p : Position} {word : String} {d : Declaration}
    {ts rest : Tokens} (h : readPlain eof p word ts = .ok (d, rest)) : d.position = p := by
  unfold readPlain at h
  repeat' split at h
  all_goals cases h
  all_goals rfl

/-- The tokens of a declaration start with its keyword. -/
theorem keyword_of_plain {word : String} {ts : List Token} {d : Declaration}
    (h : Plain (.word word :: ts) d) : d.keyword = word ∧ Token.ofWord word = .word word := by
  cases h with
  | base p hr => exact ⟨rfl, rfl⟩
  | dep p hr => exact ⟨rfl, rfl⟩
  | instruction p k hvalue => cases k <;> exact ⟨rfl, rfl⟩
  | block p k hes => cases k <;> exact ⟨rfl, rfl⟩

/-- **Plain declarations.** What is read as a plain declaration is led by its keyword, and its keys
    stand where its entries say. -/
theorem leads_of_readPlain {eof p : Position} {word : String} {d : Declaration}
    {ts rest : Tokens} (h : readPlain eof p word ts = .ok (d, rest)) :
    ∃ own : Tokens, ⟨p, .word word⟩ :: ts = own ++ rest ∧ Leads own d := by
  obtain ⟨hsuffix, hname⟩ := suffix_of_readPlain h
  obtain ⟨front, hplain, hvalues⟩ := plain_of_readPlain h
  obtain ⟨own, rfl, hown⟩ := exists_own hsuffix hvalues
  obtain ⟨hkeyword, hword⟩ := keyword_of_plain hplain
  have hposition := position_of_readPlain h
  refine ⟨⟨p, .word word⟩ :: own, rfl, ?_, ?_, ?_, ?_⟩
  · rw [values_cons, hown, ← List.append_nil (_ :: front)]
    exact .plain hplain .nil
  · rw [hposition, hkeyword, hword]
    exact ⟨rfl, by rw [hkeyword, hword]⟩
  · intro e he
    obtain ⟨opener, inner, hopener, hentries⟩ :=
      readEntries_of_readPlain h (List.ne_nil_of_mem he)
    obtain ⟨before, after, hsplit⟩ := List.append_of_mem he
    obtain ⟨front', key, back, hinner, hkeyPosition, hkey, hfront⟩ :=
      exists_key_of_readEntries hentries hsplit
    -- the opening brace stands between the keyword and the entries
    have hopening : values (own ++ rest) = [Token.openBrace] ++ values inner :=
      values_of_readExactly hopener
    obtain ⟨brace, hbrace, hbraceValues⟩ := exists_own (suffix_of_readExactly hopener) hopening
    refine ⟨key, hkeyPosition, hkey, before, after, hsplit,
      ⟨p, .word word⟩ :: brace ++ front', back, values front', ?_, hfront, ?_⟩
    · rw [hinner] at hbrace
      have hwhole : own ++ rest = (brace ++ front' ++ key :: back) ++ rest := by
        rw [hbrace]
        simp
      rw [List.append_cancel_right hwhole]
      simp
    · simp [values_append, hbraceValues, hkeyword]
  · intro q hq
    obtain ⟨name, hname'⟩ := exists_stepName?_of_mem_after hq
    rw [hname] at hname'
    cases hname'

/-! ### Steps -/

/-- **Names.** A name in a list stands behind the names before. -/
theorem exists_name_of_readNames {eof : Position} {names : List Prerequisite} {ts rest : Tokens}
    (h : readNames eof ts = .ok (names, rest)) {before : List Prerequisite} {q : Prerequisite}
    {after : List Prerequisite} (hq : names = before ++ q :: after) :
    ∃ front back : Tokens, ts = front ++ ⟨q.position, .word q.name⟩ :: (back ++ rest) ∧
      values front = before.flatMap fun q => [Token.word q.name, .comma] := by
  fun_induction readNames eof ts generalizing names rest before with
  | case1 p name c tail names' rest' hnames ih =>
    cases h
    cases before with
    | nil =>
      cases hq
      obtain ⟨back, hback⟩ := suffix_of_readNames hnames
      exact ⟨[], ⟨c, .comma⟩ :: back, by rw [← hback]; rfl, rfl⟩
    | cons first before =>
      obtain ⟨rfl, hrest⟩ := List.cons.inj hq
      obtain ⟨front, back, rfl, hfront⟩ := ih hnames hrest
      refine ⟨⟨p, .word name⟩ :: ⟨c, .comma⟩ :: front, back, rfl, ?_⟩
      rw [values_cons, values_cons, hfront]
      rfl
  | case3 p name tail hcomma =>
    cases h
    cases before with
    | nil =>
      cases hq
      exact ⟨[], [], rfl, rfl⟩
    | cons first before => simp at hq
  | _ => cases h

/-- Every prerequisite is a word at its own position, behind those before it. -/
theorem exists_name_of_readAfter {eof : Position} {names : List Prerequisite} {ts rest : Tokens}
    (h : readAfter eof ts = .ok (names, rest)) {before : List Prerequisite} {q : Prerequisite}
    {after : List Prerequisite} (hq : names = before ++ q :: after) :
    ∃ front back : Tokens, ts = front ++ ⟨q.position, .word q.name⟩ :: (back ++ rest) ∧
      values front = [Token.after] ++ before.flatMap fun q => [Token.word q.name, .comma] := by
  unfold readAfter at h
  split at h
  · next a tail =>
    obtain ⟨front, back, rfl, hfront⟩ := exists_name_of_readNames h hq
    exact ⟨⟨a, .after⟩ :: front, back, rfl, by rw [values_cons, hfront]; rfl⟩
  · cases h
    simp at hq

/-- The tokens of a step up to its opening brace. -/
structure Heads (head : Tokens) (s : OpenStep) : Prop where
  written : values head = header s.name (s.after.map Prerequisite.name)
  keyword : head.head? = some ⟨s.position, .step⟩
  names : ∀ (before : List Prerequisite) (q : Prerequisite) (after : List Prerequisite),
    s.after = before ++ q :: after → ∃ front back : Tokens,
      head = front ++ ⟨q.position, .word q.name⟩ :: back ∧ values front
        = [Token.step, .word s.name, .after] ++ before.flatMap fun q => [Token.word q.name, .comma]

/-- **Headers.** What is read as the header of a step is led by its keyword, and the names that the
    step comes after stand where they say. -/
theorem heads_of_readHeader {eof p : Position} {before : List Declaration} {s : OpenStep}
    {ts rest : Tokens} (h : readHeader eof p before ts = .ok (s, rest)) :
    ∃ head : Tokens, ⟨p, .step⟩ :: ts = head ++ rest ∧ Heads head s := by
  have hvalues := (values_of_readHeader h).2
  obtain ⟨own, rfl⟩ := (suffix_of_readHeader h).1
  have hwritten : values (⟨p, .step⟩ :: own) = header s.name (s.after.map Prerequisite.name) := by
    rw [values_append, ← List.cons_append] at hvalues
    exact List.append_cancel_right hvalues
  unfold readHeader at h
  split at h
  · cases h
  · next name tail hword =>
    split at h
    · cases h
    · next after tail' hafter =>
      split at h <;> cases h
      next opener hopener =>
      refine ⟨⟨p, .step⟩ :: own, rfl, hwritten, rfl, ?_⟩
      intro before' q after' hq
      obtain ⟨front, back, rfl, hfront⟩ := exists_name_of_readAfter hafter hq
      obtain ⟨brace, rfl⟩ := suffix_of_readExactly hopener
      -- the name of the step stands between its keyword and the clause
      have hname : own ++ rest = ⟨name.position, .word name.value⟩ ::
          (front ++ ⟨q.position, .word q.name⟩ :: (back ++ (brace ++ rest))) := by
        unfold readWord at hword
        split at hword <;> cases hword
        assumption
      have hwhole : own ++ rest = (⟨name.position, .word name.value⟩ ::
          (front ++ ⟨q.position, .word q.name⟩ :: (back ++ brace))) ++ rest := by
        rw [hname]
        simp
      refine ⟨⟨p, .step⟩ :: ⟨name.position, .word name.value⟩ :: front, back ++ brace, ?_, ?_⟩
      · rw [List.append_cancel_right hwhole]
        rfl
      · rw [values_cons, values_cons, hfront]
        rfl

/-- **Steps.** A header, the tokens of the body and a closing brace are the tokens of a step. -/
theorem leads_of_heads {head inner : Tokens} {s : OpenStep} {latestFirst : List Declaration}
    (hhead : Heads head s) (hinner : Statements (values inner) latestFirst.reverse)
    (p : Position) :
    Leads (head ++ inner ++ [⟨p, .closeBrace⟩])
      (.step s.position s.name s.after latestFirst.reverse) := by
  have hkeyword : List.head? (head ++ inner ++ [⟨p, .closeBrace⟩])
      = some ⟨s.position, .step⟩ := by
    rw [List.append_assoc, List.head?_append, hhead.keyword]
    rfl
  refine ⟨?_, ⟨hkeyword, rfl⟩, by simp [entries], ?_⟩
  · have hvalues : values (head ++ inner ++ [⟨p, .closeBrace⟩])
        = header s.name (s.after.map Prerequisite.name) ++ values inner ++ [Token.closeBrace]
          ++ [] := by
      simp [values_append, hhead.written]
    rw [hvalues]
    exact .step s.position s.name s.after hinner .nil
  · -- the body and the brace come behind all names of the header
    intro q hq
    obtain ⟨before, after, hsplit⟩ := List.append_of_mem hq
    obtain ⟨front, back, hname, hfront⟩ := hhead.names before q after hsplit
    refine ⟨⟨q.position, .word q.name⟩, rfl, rfl, s.name, before, after, rfl, hsplit, front,
      back ++ inner ++ [⟨p, .closeBrace⟩], ?_, hfront⟩
    rw [hname]
    simp

/-! ### The whole source -/

/-- Statements behind statements are statements. -/
theorem statements_append {ts us : List Token} {ds es : List Declaration} (hds : Statements ts ds)
    (hes : Statements us es) : Statements (ts ++ us) (ds ++ es) := by
  induction hds with
  | nil => exact hes
  | separator _ ih => exact .separator ih
  | plain hd _ ih =>
    rw [List.append_assoc]
    exact .plain hd ih
  | step p name after hbody _ _ ih =>
    rw [List.append_assoc]
    exact .step p name after hbody ih

/-- Tokens from which declarations are derived, the latest first, all of which have tokens of their
    own among those of the source. -/
structure Region (tokens inner : Tokens) (latestFirst : List Declaration) : Prop where
  derived : Statements (values inner) latestFirst.reverse
  located : ∀ c, Specification.Occurs latestFirst c → Located tokens c

/-- **What has been read.** The tokens `consumed` lead to the steps that are still open and to the
    declarations before and in them: behind the header of each open step come the declarations read
    in it so far. -/
def Reading (tokens : Tokens) : List OpenStep → List Declaration → Tokens → Prop
  | [], latestFirst, consumed => Region tokens consumed latestFirst
  | group :: outer, latestFirst, consumed => ∃ before head inner : Tokens,
      consumed = before ++ head ++ inner ∧ Heads head group ∧ Region tokens inner latestFirst ∧
      Reading tokens outer group.before before

/-- Tokens that lead on in any region lead on within the innermost open step. -/
theorem Reading.append {tokens own : Tokens} {groups : List OpenStep}
    {latestFirst latestFirst' : List Declaration} {consumed : Tokens}
    (h : Reading tokens groups latestFirst consumed)
    (hown : ∀ inner, Region tokens inner latestFirst → Region tokens (inner ++ own) latestFirst') :
    Reading tokens groups latestFirst' (consumed ++ own) := by
  cases groups with
  | nil => exact hown consumed h
  | cons group outer =>
    obtain ⟨before, head, inner, rfl, hhead, hregion, houter⟩ := h
    exact ⟨before, head, inner ++ own, by simp, hhead, hown inner hregion, houter⟩

theorem Region.nil (tokens : Tokens) : Region tokens [] [] :=
  ⟨.nil, fun _ hc => absurd hc Specification.not_occurs_nil⟩

/-- A separator adds no declaration. -/
theorem Region.separator {tokens inner : Tokens} {latestFirst : List Declaration}
    (h : Region tokens inner latestFirst) (p : Position) :
    Region tokens (inner ++ [⟨p, .semicolon⟩]) latestFirst := by
  refine ⟨?_, h.located⟩
  have happend := statements_append h.derived (.separator .nil)
  rw [values_append, values_cons, values_nil]
  simpa using happend

/-- What has been read is located in the tokens. -/
theorem Region.located_reverse {tokens inner : Tokens} {latestFirst : List Declaration}
    (h : Region tokens inner latestFirst) {c : Declaration}
    (hc : Specification.Occurs latestFirst.reverse c) : Located tokens c :=
  h.located c (hc.of_subset (List.reverse_subset.mpr (List.Subset.refl _)))

/-- One declaration more, with all that is in it. -/
theorem Region.cons {tokens inner own : Tokens} {latestFirst : List Declaration} {d : Declaration}
    (h : Region tokens inner latestFirst) (hown : Leads own d) (hd : Located tokens d)
    (hbody : ∀ c, Specification.Occurs d.body c → Located tokens c) :
    Region tokens (inner ++ own) (d :: latestFirst) := by
  constructor
  · rw [values_append, List.reverse_cons]
    exact statements_append h.derived hown.derived
  · intro c hc
    rcases Specification.cases_of_occurs_cons hc with rfl | hc | hc
    · exact hd
    · exact hbody c hc
    · exact h.located c hc

/-- **Run lemma.** Reading keeps account of the tokens of all declarations. -/
theorem located_of_readFrom {eof : Position} {groups : List OpenStep}
    {latestFirst ds : List Declaration} {tokens consumed ts : Tokens}
    (h : readFrom eof groups latestFirst ts = .ok ds) (htokens : tokens = consumed ++ ts)
    (hreading : Reading tokens groups latestFirst consumed) :
    ∀ c, Specification.Occurs ds c → Located tokens c := by
  fun_induction readFrom eof groups latestFirst ts generalizing consumed with
  | case1 latestFirst =>
    cases h
    exact fun c hc => Region.located_reverse hreading hc
  | case3 groups latestFirst p rest ih =>
    have hsplit : tokens = consumed ++ [⟨p, .semicolon⟩] ++ rest := by simp [htokens]
    exact ih h hsplit (hreading.append fun inner hinner => hinner.separator p)
  | case5 latestFirst p rest group outer ih =>
    -- the step that is closed here gets the tokens from its header on
    obtain ⟨before, head, inner, rfl, hhead, hregion, houter⟩ := hreading
    have hstep := leads_of_heads hhead hregion.derived p
    have hsplit : tokens = before ++ (head ++ inner ++ [⟨p, .closeBrace⟩]) ++ rest := by
      simp [htokens]
    refine ih h hsplit (houter.append fun outside houtside => ?_)
    exact houtside.cons hstep ⟨before, _, rest, hsplit, hstep⟩ fun c hc =>
      hregion.located_reverse hc
  | case7 groups latestFirst p rest group rest' hheader ih =>
    obtain ⟨head, hhead, hheads⟩ := heads_of_readHeader hheader
    have hbefore := (values_of_readHeader hheader).1
    refine ih h (by rw [htokens, hhead, ← List.append_assoc]) ?_
    refine ⟨consumed, head, [], by simp, hheads, Region.nil tokens, ?_⟩
    rw [hbefore]
    exact hreading
  | case9 groups latestFirst p rest word d rest' hplain ih =>
    obtain ⟨own, hown, hleads⟩ := leads_of_readPlain hplain
    have hsplit : tokens = consumed ++ own ++ rest' := by
      rw [htokens, hown, ← List.append_assoc]
    refine ih h hsplit (hreading.append fun inner hinner => ?_)
    refine hinner.cons hleads ⟨consumed, own, rest', hsplit, hleads⟩ fun c hc => ?_
    rw [body_eq_nil (suffix_of_readPlain hplain).2] at hc
    exact absurd hc Specification.not_occurs_nil
  | _ => cases h

/-- **Placement.** Every declaration that is read, at whatever depth, has tokens of its own in a
    row, and they are where it says. -/
theorem located_of_read {eof : Position} {tokens : Tokens} {ds : List Declaration}
    (h : read eof tokens = .ok ds) : ∀ c, Specification.Occurs ds c → Located tokens c :=
  located_of_readFrom h rfl (Region.nil tokens)

end Declaration

/-! ### Tokens in the text -/

namespace Lexer

/-- **Tokens.** Every token of a text starts where its position says: it is read there, and the
    position is the one behind all that stands before. -/
theorem exists_lexeme_of_mem {p : Position} {cs : List Char} {tokens : List (Placed Token)}
    (h : tokensFrom p cs = .ok tokens) {t : Placed Token} (ht : t ∈ tokens) :
    ∃ before c rest l, cs = before ++ c :: rest ∧ lexeme c rest = some l ∧ l.token = t.value ∧
      t.position = p.advanceOver before := by
  fun_induction tokensFrom p cs generalizing tokens with
  | case1 =>
    cases h
    cases ht
  | case2 => cases h
  | case3 => cases h
  | case4 p cs gap c rest hrest here l hlex tokens' htokens =>
    rename_i ih
    cases h
    have happend : gap ++ c :: rest = cs := by
      rw [← hrest]
      exact triviaOf_append cs
    -- the token is this one, or it is read further on
    rcases List.mem_cons.mp ht with rfl | ht
    · exact ⟨gap, c, rest, l, happend.symm, hlex, rfl, rfl⟩
    · obtain ⟨before, c', rest', l', hcs, hlex', htoken, hposition⟩ := ih htokens ht
      refine ⟨gap ++ l.written ++ before, c', rest', l', ?_, hlex', htoken, ?_⟩
      · rw [← happend, ← (lexeme_append hlex).2, hcs]
        simp
      · rw [hposition]
        simp [Position.advanceOver, here]

end Lexer

end ImageSpec

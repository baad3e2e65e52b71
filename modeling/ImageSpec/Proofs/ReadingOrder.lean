import ImageSpec.Proofs.Encounters
import ImageSpec.Proofs.LexicalErrors
import ImageSpec.Proofs.Placement

namespace ImageSpec

/-!
# Reading order

An index of a text finds the line of a byte by halving and counts the characters of this line alone.
What it finds is the position that counting all line feeds and characters before the byte would
give, and a later byte has a later position.  So tokens and declarations stand in reading order.

* `LineIndex.countUpTo_eq_countP` — halving counts the lines that start up to a byte.
* `LineIndex.position_byteSize` — the index agrees with counting, whatever stands before the byte.
* `Lexer.pairwise_before_of_tokensFrom` — the tokens of a text are in reading order.
* `Declaration.readPositions` — the positions of all that has been read, also in open steps.
* `Declaration.positions_sublist_of_readFrom` — declarations, depth first, come in the order of
  their tokens.
* `Specification.positions_exact_and_increasing` — all of this for a source.
-/

/-! ### Bytes of a text -/

namespace Position

theorem byteSize_append (before rest : List Char) :
    byteSize (before ++ rest) = byteSize before + byteSize rest := by
  induction before with
  | nil => exact (Nat.zero_add _).symm
  | cons c before ih => rw [List.cons_append, byteSize, byteSize, ih, Nat.add_assoc]

/-- The size of a text is that of its encoding. -/
theorem byteSize_toList (s : String) : byteSize s.toList = s.utf8ByteSize := by
  have hlist : ∀ cs : List Char, byteSize cs = (String.ofList cs).utf8ByteSize := by
    intro cs
    induction cs with
    | nil => rfl
    | cons c cs ih =>
      rw [byteSize, ih, String.ofList_cons, String.utf8ByteSize_append,
        String.utf8ByteSize_singleton]
  rw [hlist, String.ofList_toList]

/-- What stands before the byte behind `before` is `before`. -/
theorem charsBefore_byteSize (before rest : List Char) :
    charsBefore (before ++ rest) (byteSize before) = before := by
  induction before with
  | nil =>
    cases rest with
    | nil => rfl
    | cons c rest =>
      have hpos := c.utf8Size_pos
      show charsBefore (c :: rest) 0 = []
      rw [charsBefore, if_neg (by omega)]
  | cons c before ih =>
    have hsub : c.utf8Size + byteSize before - c.utf8Size = byteSize before := by omega
    rw [List.cons_append, byteSize, charsBefore, if_pos (by omega), hsub, ih]

/-- An offset divides the characters. -/
theorem charsBefore_append_charsFrom (cs : List Char) (offset : Nat) :
    charsBefore cs offset ++ charsFrom cs offset = cs := by
  induction cs generalizing offset with
  | nil => rfl
  | cons c cs ih =>
    rw [charsBefore, charsFrom]
    split
    · rw [List.cons_append, ih]
    · rfl

/-- What stands from the byte behind `before` on is the rest. -/
theorem charsFrom_byteSize (before rest : List Char) :
    charsFrom (before ++ rest) (byteSize before) = rest := by
  have hparts := charsBefore_append_charsFrom (before ++ rest) (byteSize before)
  rw [charsBefore_byteSize] at hparts
  exact List.append_cancel_left hparts

/-- Of two beginnings of a text, the one with more bytes goes on behind the other. -/
theorem exists_append_of_byteSize_lt {before rest before' rest' : List Char}
    (htext : before ++ rest = before' ++ rest') (hlt : byteSize before < byteSize before') :
    ∃ more, more ≠ [] ∧ before' = before ++ more := by
  rcases List.append_eq_append_iff.mp htext with ⟨more, rfl, -⟩ | ⟨more, rfl, -⟩
  · refine ⟨more, ?_, rfl⟩
    rintro rfl
    rw [List.append_nil] at hlt
    omega
  · rw [byteSize_append] at hlt
    omega

end Position

/-! ### Starts of lines -/

/-- The lines of a text in two parts start in the one or in the other. -/
theorem lineStartsFrom_append (offset : Nat) (before rest : List Char) :
    lineStartsFrom offset (before ++ rest) = lineStartsFrom offset before
      ++ lineStartsFrom (offset + Position.byteSize before) rest := by
  induction before generalizing offset with
  | nil => rfl
  | cons c before ih =>
    rw [List.cons_append, lineStartsFrom, lineStartsFrom, ih, Position.byteSize, Nat.add_assoc]
    split
    · rfl
    · rfl

/-- A line starts behind each line feed. -/
theorem length_lineStartsFrom (offset : Nat) (cs : List Char) :
    (lineStartsFrom offset cs).length = cs.count '\n' := by
  induction cs generalizing offset with
  | nil => rfl
  | cons c cs ih =>
    rw [lineStartsFrom]
    by_cases hc : c = '\n'
    · rw [if_pos hc, List.length_cons, ih, hc, List.count_cons_self]
    · rw [if_neg hc, ih, List.count_cons_of_ne hc]

/-- A line starts at the end of the text at the latest. -/
theorem le_of_mem_lineStartsFrom {offset start : Nat} {cs : List Char}
    (h : start ∈ lineStartsFrom offset cs) : start ≤ offset + Position.byteSize cs := by
  induction cs generalizing offset with
  | nil => cases h
  | cons c cs ih =>
    rw [lineStartsFrom] at h
    rw [Position.byteSize, ← Nat.add_assoc]
    split at h
    · rcases List.mem_cons.mp h with rfl | h
      · omega
      · exact ih h
    · exact ih h

/-- The last line that starts in a text is the one behind its last line feed. -/
theorem getLast?_lineStarts (before : List Char) :
    (0 :: lineStartsFrom 0 before).getLast?
      = some (Position.byteSize (before.reverse.dropWhile (· ≠ '\n')).reverse) := by
  -- the last line feed is the first one from the other end
  obtain ⟨latestFirst, rfl⟩ : ∃ latestFirst : List Char, before = latestFirst.reverse :=
    ⟨before.reverse, before.reverse_reverse.symm⟩
  induction latestFirst with
  | nil => rfl
  | cons c latestFirst ih =>
    rw [List.reverse_reverse] at ih ⊢
    rw [List.reverse_cons, lineStartsFrom_append, ← List.cons_append, Nat.zero_add]
    by_cases hc : c = '\n'
    · rw [List.dropWhile_cons_of_neg (by simpa using hc), List.reverse_cons,
        Position.byteSize_append, hc]
      exact List.getLast?_concat
    · rw [List.dropWhile_cons_of_pos (by simpa using hc), ← ih, lineStartsFrom, if_neg hc,
        lineStartsFrom, List.append_nil]

/-! ### Positions by the index -/

namespace LineIndex

/-- Ascending numbers up to a bound stand in front of the others. -/
theorem getElem_le_iff_lt_countP {l : List Nat} (hl : l.Pairwise (· < ·)) (bound : Nat) {i : Nat}
    (hi : i < l.length) : l[i] ≤ bound ↔ i < l.countP (· ≤ bound) := by
  induction l generalizing i with
  | nil => cases hi
  | cons n l ih =>
    obtain ⟨hn, hl⟩ := List.pairwise_cons.mp hl
    by_cases hbound : n ≤ bound
    · rw [List.countP_cons_of_pos (by simpa using hbound)]
      cases i with
      | zero => simp [hbound]
      | succ i =>
        rw [List.getElem_cons_succ, ih hl (Nat.lt_of_succ_lt_succ hi)]
        omega
    · -- none of the numbers behind is up to the bound either
      have hnone : (n :: l).countP (· ≤ bound) = 0 := by
        rw [List.countP_eq_zero]
        intro m hm
        rcases List.mem_cons.mp hm with rfl | hm
        · simpa using hbound
        · have := hn m hm
          simp
          omega
      have hmem : (n :: l)[i] ∈ n :: l := List.getElem_mem hi
      have hlarge : ¬ (n :: l)[i] ≤ bound := by
        have := List.countP_eq_zero.mp hnone _ hmem
        simpa using this
      rw [hnone]
      exact ⟨fun h => absurd h hlarge, fun h => absurd h (Nat.not_lt_zero i)⟩

/-- **Halving.** The search between two bounds of the count ends at the count. -/
theorem countUpTo_eq_countP {xs : Array Nat} (hxs : xs.toList.Pairwise (· < ·))
    {bound low high : Nat} (hlow : low ≤ xs.toList.countP (· ≤ bound))
    (hhigh : xs.toList.countP (· ≤ bound) ≤ high) (hsize : high ≤ xs.size) :
    countUpTo xs bound low high = xs.toList.countP (· ≤ bound) := by
  have hdecides : ∀ i < xs.size, (xs.getD i 0 ≤ bound ↔ i < xs.toList.countP (· ≤ bound)) := by
    intro i hi
    rw [← getElem_le_iff_lt_countP hxs bound (by simpa using hi)]
    simp [hi]
  fun_induction countUpTo xs bound low high with
  | case1 low high hlt middle hle ih =>
    have hcount := (hdecides middle (by omega)).mp hle
    exact ih hcount hhigh hsize
  | case2 low high hlt middle hgt ih =>
    have hcount := mt (hdecides middle (by omega)).mpr hgt
    exact ih hlow (by omega) (by omega)
  | case3 low high hge => omega

/-- The starts of lines in front of a place come before those behind it. -/
theorem starts_ofText (before rest : List Char) :
    (ofText (before ++ rest)).starts
      = ((0 :: lineStartsFrom 0 before)
          ++ lineStartsFrom (Position.byteSize before) rest).toArray := by
  show (0 :: lineStartsFrom 0 (before ++ rest)).toArray = _
  rw [lineStartsFrom_append, Nat.zero_add, List.cons_append]

/-- The lines that start in `before` start up to the byte behind it, and the others later. -/
theorem countUpTo_byteSize (before rest : List Char) :
    countUpTo (ofText (before ++ rest)).starts (Position.byteSize before) 0
        (ofText (before ++ rest)).starts.size
      = before.count '\n' + 1 := by
  have hfront : (0 :: lineStartsFrom 0 before).countP (· ≤ Position.byteSize before)
      = before.count '\n' + 1 := by
    rw [← length_lineStartsFrom 0, ← List.length_cons, List.countP_eq_length]
    intro start hstart
    rcases List.mem_cons.mp hstart with rfl | hstart
    · exact decide_eq_true (Nat.zero_le _)
    · have hle := le_of_mem_lineStartsFrom hstart
      rw [Nat.zero_add] at hle
      exact decide_eq_true hle
  have hback : (lineStartsFrom (Position.byteSize before) rest).countP
      (· ≤ Position.byteSize before) = 0 := by
    rw [List.countP_eq_zero]
    intro start hstart
    have hlt := lt_of_mem_lineStartsFrom hstart
    simpa using hlt
  have hcount : (ofText (before ++ rest)).starts.toList.countP (· ≤ Position.byteSize before)
      = before.count '\n' + 1 := by
    rw [starts_ofText, List.countP_append, hfront, hback]
  -- the starts are sorted, so a binary search counts them
  rw [← hcount]
  refine countUpTo_eq_countP (ofText (before ++ rest)).sorted (Nat.zero_le _) ?_ (Nat.le_refl _)
  exact List.countP_le_length

/-- The line of a place starts behind the last line feed in front of it. -/
theorem getD_starts (before rest : List Char) :
    (ofText (before ++ rest)).starts.getD (before.count '\n') 0
      = Position.byteSize (before.reverse.dropWhile (· ≠ '\n')).reverse := by
  have hlength : (0 :: lineStartsFrom 0 before).length = before.count '\n' + 1 := by
    rw [List.length_cons, length_lineStartsFrom]
  have hlast := getLast?_lineStarts before
  rw [List.getLast?_eq_getElem?, hlength, Nat.add_sub_cancel] at hlast
  have hget : (ofText (before ++ rest)).starts[before.count '\n']?
      = some (Position.byteSize (before.reverse.dropWhile (· ≠ '\n')).reverse) := by
    rw [starts_ofText, List.getElem?_toArray, List.getElem?_append_left (by omega), hlast]
  rw [Array.getD_eq_getD_getElem?, hget, Option.getD_some]

/-- **Positions.** The position of the byte behind `before` is found by counting in `before`. -/
theorem position_byteSize (before rest : List Char) :
    (ofText (before ++ rest)).position (Position.byteSize before) = .counted before := by
  let earlier := (before.reverse.dropWhile (· ≠ '\n')).reverse
  let line := (before.reverse.takeWhile (· ≠ '\n')).reverse
  have hbefore : before = earlier ++ line := by
    rw [← List.reverse_append, List.takeWhile_append_dropWhile, List.reverse_reverse]
  have hbytes : Position.byteSize before - Position.byteSize earlier = Position.byteSize line := by
    rw [hbefore, Position.byteSize_append]
    omega
  -- the line of the byte is cut out of the text between its start and the byte
  have hsource : before ++ rest = earlier ++ (line ++ rest) := by
    rw [← List.append_assoc, ← hbefore]
  have hcut : Position.charsBefore (Position.charsFrom (before ++ rest) (Position.byteSize earlier))
      (Position.byteSize before - Position.byteSize earlier) = line := by
    rw [hbytes, hsource, Position.charsFrom_byteSize, Position.charsBefore_byteSize]
  rw [position, countUpTo_byteSize, Nat.add_sub_cancel, getD_starts]
  show Position.mk (before.count '\n' + 1) (List.length (Position.charsBefore
    (Position.charsFrom (before ++ rest) (Position.byteSize earlier)) _) + 1) = _
  rw [hcut, List.length_reverse]
  rfl

/-- A byte that is further on in a text has a later position. -/
theorem position_before {before rest before' rest' : List Char}
    (htext : before ++ rest = before' ++ rest')
    (hlt : Position.byteSize before < Position.byteSize before') :
    ((ofText (before ++ rest)).position (Position.byteSize before)).Before
      ((ofText (before ++ rest)).position (Position.byteSize before')) := by
  obtain ⟨more, hmore, rfl⟩ := Position.exists_append_of_byteSize_lt htext hlt
  rw [position_byteSize, htext, position_byteSize, ← Position.after_eq_counted,
    ← Position.after_eq_counted, Position.after_append]
  exact Position.before_advanceOver _ hmore

end LineIndex

/-! ### Tokens -/

namespace Lexer

/-- No token of a text stands before the text. -/
theorem eq_or_before_of_mem {p : Position} {cs : List Char} {tokens : List (Placed Token)}
    (h : tokensFrom p cs = .ok tokens) {t : Placed Token} (ht : t ∈ tokens) :
    t.position = p ∨ p.Before t.position := by
  obtain ⟨before, c, rest, l, -, -, -, hposition⟩ := exists_lexeme_of_mem h ht
  by_cases hbefore : before = []
  · rw [hposition, hbefore]
    exact .inl rfl
  · rw [hposition]
    exact .inr (p.before_advanceOver hbefore)

/-- **Tokens.** Every token of a text stands before all that follow it. -/
theorem pairwise_before_of_tokensFrom {p : Position} {cs : List Char}
    {tokens : List (Placed Token)} (h : tokensFrom p cs = .ok tokens) :
    tokens.Pairwise fun t u => t.position.Before u.position := by
  fun_induction tokensFrom p cs generalizing tokens with
  | case1 =>
    cases h
    exact .nil
  | case2 => cases h
  | case3 => cases h
  | case4 p cs gap c rest hrest here l hlex tokens' htokens =>
    rename_i ih
    cases h
    refine .cons ?_ (ih htokens)
    intro u hu
    -- the text of the token itself leads on to where the next one may start
    have hwritten : here.Before (here.advanceOver l.written) :=
      here.before_advanceOver (lexeme_append hlex).1
    rcases eq_or_before_of_mem htokens hu with hu | hu
    · show here.Before u.position
      rwa [hu]
    · exact hwritten.trans hu

end Lexer

/-! ### Declarations -/

namespace Declaration

/-- The positions of declarations at any depth, that of a step before those of what is in it. -/
def positions (ds : List Declaration) : List Position :=
  (encountersAll none ds).map fun x => x.declaration.position

/-- The positions of what a realization comes to are those of the declarations, in order. -/
theorem map_position_encountersAll (group : Option String) (ds : List Declaration) :
    (encountersAll group ds).map (fun x => x.declaration.position) = positions ds := by
  have hgroup : ∀ (group : Option String) (d : Declaration),
      (d.encounters group).map (fun x => x.declaration.position)
        = (d.encounters none).map fun x => x.declaration.position := by
    intro group d
    cases d <;> rfl
  induction ds with
  | nil => rfl
  | cons d ds ih =>
    rw [positions, encountersAll, encountersAll, List.map_append, List.map_append, ih, hgroup]
    rfl

theorem positions_append (ds es : List Declaration) :
    positions (ds ++ es) = positions ds ++ positions es := by
  induction ds with
  | nil => rfl
  | cons d ds ih =>
    show positions (d :: (ds ++ es)) = _
    rw [positions, positions, encountersAll, encountersAll, List.map_append, List.map_append,
      List.append_assoc]
    exact congrArg _ ih

/-- A step comes before what is in it. -/
theorem positions_singleton (d : Declaration) : positions [d] = d.position :: positions d.body := by
  rw [positions, encountersAll, encountersAll, List.append_nil]
  cases d with
  | step p name after body =>
    exact congrArg (p :: ·) (map_position_encountersAll (some name) body)
  | _ => rfl

/-- The positions of what has been read: those of the steps that are still open, the outermost
    first, each with the declarations before it, and those of what is in the innermost step. -/
def readPositions : List OpenStep → List Declaration → List Position
  | [], latestFirst => positions latestFirst.reverse
  | group :: outer, latestFirst =>
    readPositions outer group.before ++ group.position :: positions latestFirst.reverse

/-- One declaration more comes behind all others. -/
theorem readPositions_cons (groups : List OpenStep) (d : Declaration)
    (latestFirst : List Declaration) :
    readPositions groups (d :: latestFirst)
      = readPositions groups latestFirst ++ d.position :: positions d.body := by
  cases groups with
  | nil =>
    rw [readPositions, readPositions, List.reverse_cons, positions_append, positions_singleton]
  | cons group outer =>
    rw [readPositions, readPositions, List.reverse_cons, positions_append, positions_singleton,
      List.append_assoc, List.cons_append]

/-- A step that is closed keeps its place. -/
theorem readPositions_close (group : OpenStep) (outer : List OpenStep)
    (latestFirst : List Declaration) :
    readPositions outer (group.close latestFirst) = readPositions (group :: outer) latestFirst := by
  rw [OpenStep.close, readPositions_cons, readPositions]
  rfl

/-- A step is at the position of its keyword. -/
theorem position_of_readHeader {eof p : Position} {before : List Declaration} {s : OpenStep}
    {ts rest : Tokens} (h : readHeader eof p before ts = .ok (s, rest)) : s.position = p := by
  unfold readHeader at h
  repeat' split at h
  all_goals cases h
  all_goals rfl

/-- What is read at a token stands where the token does, and what is left comes later. -/
theorem append_sublist_of_suffix (front : List Position) (t : Placed Token) {ts rest : Tokens}
    (h : rest <:+ ts) :
    (front ++ [t.position] ++ rest.map (·.position)).Sublist
      (front ++ (t :: ts).map (·.position)) := by
  rw [List.append_assoc]
  refine (List.Sublist.refl front).append ?_
  rw [List.map_cons]
  exact ((h.map (·.position)).sublist).cons_cons t.position

/-- **Run lemma.** Declarations, depth first, come in the order of the tokens they are read from. -/
theorem positions_sublist_of_readFrom {eof : Position} {groups : List OpenStep}
    {latestFirst ds : List Declaration} {ts : Tokens}
    (h : readFrom eof groups latestFirst ts = .ok ds) :
    (positions ds).Sublist (readPositions groups latestFirst ++ ts.map (·.position)) := by
  fun_induction readFrom eof groups latestFirst ts with
  | case1 latestFirst =>
    cases h
    rw [List.map_nil, List.append_nil]
    exact List.Sublist.refl _
  | case3 groups latestFirst p rest ih =>
    refine (ih h).trans ((List.Sublist.refl _).append ?_)
    exact List.sublist_cons_self p _
  | case5 latestFirst p rest group outer ih =>
    rw [readPositions_close] at ih
    refine (ih h).trans ((List.Sublist.refl _).append ?_)
    exact List.sublist_cons_self p _
  | case7 groups latestFirst p rest group rest' hheader ih =>
    obtain ⟨hsuffix, hbefore, -⟩ := suffix_of_readHeader hheader
    have hread := ih h
    rw [readPositions, hbefore, position_of_readHeader hheader] at hread
    exact hread.trans (append_sublist_of_suffix _ ⟨p, .step⟩ hsuffix)
  | case9 groups latestFirst p rest word d rest' hplain ih =>
    obtain ⟨hsuffix, hname⟩ := suffix_of_readPlain hplain
    have hread := ih h
    rw [readPositions_cons, position_of_readPlain hplain, body_eq_nil hname] at hread
    exact hread.trans (append_sublist_of_suffix _ ⟨p, .word word⟩ hsuffix)
  | _ => cases h

end Declaration

/-! ### Sources -/

namespace Specification

/-- A byte at which a character starts, or the text ends, has a text before it. -/
theorem exists_before_of_isValid {source : String} {offset : Nat}
    (h : String.Pos.Raw.IsValid source ⟨offset⟩) :
    ∃ before rest : String, source = before ++ rest ∧ before.utf8ByteSize = offset := by
  obtain ⟨before, rest, hsource, hoffset⟩ := String.Pos.Raw.isValid_iff_exists_append.mp h
  exact ⟨before, rest, hsource, (congrArg String.Pos.Raw.byteIdx hoffset).symm⟩

/-- **Reading order.** In every source, the index gives each byte at which a character starts or the
    source ends the position that is counted in the text before it: one line more than there are
    line feeds, and one column more than there are characters behind the last of them.  Of two such
    bytes the later one has the later position.  If the tokens can be read, each has the position of
    the byte at which it is read, and they stand in reading order; if the source can be read, so do
    its declarations, depth first and each step before what is in it. -/
theorem positions_exact_and_increasing (source : String) :
    (∀ offset, String.Pos.Raw.IsValid source ⟨offset⟩ →
      ∃ before rest : String, source = before ++ rest ∧ before.utf8ByteSize = offset ∧
        (LineIndex.ofText source.toList).position offset = .counted before.toList) ∧
    (∀ offset offset', String.Pos.Raw.IsValid source ⟨offset⟩ →
      String.Pos.Raw.IsValid source ⟨offset'⟩ → offset < offset' →
        ((LineIndex.ofText source.toList).position offset).Before
          ((LineIndex.ofText source.toList).position offset')) ∧
    (∀ tokens, Lexer.tokenize source = .ok tokens →
      (∀ t ∈ tokens, ∃ before c rest l, source.toList = before ++ c :: rest ∧
        Lexer.lexeme c rest = some l ∧ l.token = t.value ∧
        t.position = (LineIndex.ofText source.toList).position (Position.byteSize before)) ∧
      tokens.Pairwise fun t u => t.position.Before u.position) ∧
    (∀ spec : Specification, ofChars source.toList = .ok spec →
      (spec.encounters.map fun x => x.declaration.position).Pairwise Position.Before) := by
  refine ⟨?_, ?_, ?_, ?_⟩
  · intro offset hoffset
    obtain ⟨before, rest, rfl, rfl⟩ := exists_before_of_isValid hoffset
    refine ⟨before, rest, rfl, rfl, ?_⟩
    rw [String.toList_append, ← Position.byteSize_toList]
    exact LineIndex.position_byteSize before.toList rest.toList
  · intro offset offset' hoffset hoffset' hlt
    obtain ⟨before, rest, hsource, rfl⟩ := exists_before_of_isValid hoffset
    obtain ⟨before', rest', hsource', rfl⟩ := exists_before_of_isValid hoffset'
    have htext : before.toList ++ rest.toList = before'.toList ++ rest'.toList := by
      rw [← String.toList_append, ← String.toList_append, ← hsource, ← hsource']
    rw [← Position.byteSize_toList, ← Position.byteSize_toList] at hlt ⊢
    rw [hsource, String.toList_append]
    exact LineIndex.position_before htext hlt
  · intro tokens htokens
    refine ⟨?_, Lexer.pairwise_before_of_tokensFrom htokens⟩
    intro t ht
    obtain ⟨before, c, rest, l, hsource, hlex, htoken, hposition⟩ :=
      Lexer.exists_lexeme_of_mem htokens ht
    refine ⟨before, c, rest, l, hsource, hlex, htoken, ?_⟩
    rw [hposition, hsource, LineIndex.position_byteSize]
    exact Position.after_eq_counted before
  · intro spec hspec
    unfold ofChars at hspec
    split at hspec
    · cases hspec
    · next tokens htokens =>
      have hsublist := Declaration.positions_sublist_of_readFrom hspec
      have hordered : (tokens.map (·.position)).Pairwise Position.Before :=
        List.pairwise_map.mpr (Lexer.pairwise_before_of_tokensFrom htokens)
      exact hordered.sublist hsublist

/-- Two lines with a character of two bytes in each, and a step that holds a declaration. -/
def accentedSource : String := "step s \x7brun=\"é\"\x7d\nuser=\"ü\""

/-- A letter of two bytes counts as one column. -/
theorem positions_of_accentedSource :
    ((LineIndex.ofText accentedSource.toList).position 15).Before
        ((LineIndex.ofText accentedSource.toList).position 18) ∧
      (∃ tokens, Lexer.tokenize accentedSource = .ok tokens ∧ tokens.length = 10 ∧
        tokens.Pairwise fun t u => t.position.Before u.position) ∧
      ∃ spec : Specification, ofChars accentedSource.toList = .ok spec ∧
        (spec.encounters.map fun x => x.declaration.position) = [⟨1, 1⟩, ⟨1, 9⟩, ⟨2, 1⟩] ∧
        (spec.encounters.map fun x => x.declaration.position).Pairwise Position.Before := by
  obtain ⟨-, hincreasing, htokens, hspec⟩ := positions_exact_and_increasing accentedSource
  have hread : Lexer.tokenize accentedSource = .ok
      [⟨⟨1, 1⟩, .step⟩, ⟨⟨1, 6⟩, .word "s"⟩, ⟨⟨1, 8⟩, .openBrace⟩, ⟨⟨1, 9⟩, .word "run"⟩,
        ⟨⟨1, 12⟩, .equals⟩, ⟨⟨1, 13⟩, .literal "é"⟩, ⟨⟨1, 16⟩, .closeBrace⟩,
        ⟨⟨2, 1⟩, .word "user"⟩, ⟨⟨2, 5⟩, .equals⟩, ⟨⟨2, 6⟩, .literal "ü"⟩] := by
    with_unfolding_all rfl
  have hdeclared : ofChars accentedSource.toList = .ok
      [.step ⟨1, 1⟩ "s" [] [.instruction ⟨1, 9⟩ .run (.text "é")],
        .instruction ⟨2, 1⟩ .user (.text "ü")] := by
    with_unfolding_all rfl
  refine ⟨hincreasing 15 18 (by decide) (by decide) (by decide), ?_, ?_⟩
  · exact ⟨_, hread, rfl, (htokens _ hread).2⟩
  · exact ⟨_, hdeclared, rfl, hspec _ hdeclared⟩

end Specification

end ImageSpec

import ImageSpec.Proofs.Openings
import Mathlib.Data.List.DropRight

namespace ImageSpec

/-!
# Commands over several lines

A command of several lines is written as one instruction: each of its lines loses the blanks and the
backslash that end it, and each but the last gets a continuation mark.  Only one backslash is
dropped from a line.  The last line, which gets no mark, may therefore still end in a backslash, and
the next instruction of the script then belongs to the command; or nothing is left of it.

* `Script.SelfContained` — a text that is one instruction, whatever follows it.
* `Text.getLast?_trimEnd_eq_some_iff` — the last character of a text that is no blank.
* `Script.splitAt_shellContinued` — the physical lines of a command.
* `Script.allBlank_bareLine_iff`, `Script.getLast?_bareLine_eq_backslash_iff` — what the last line
  comes to.
* `Script.selfContained_shellContinued_iff` — when a command is self-contained.
* `Script.shellContinued_doubled_backslash` — a command that is not.
-/

/-! ### Blanks at the end -/

namespace Text

/-- Two texts are blank together if both of them are. -/
theorem allBlank_append (cs gap : List Char) :
    allBlank (cs ++ gap) = (allBlank cs && allBlank gap) :=
  List.all_append

theorem trimEnd_eq_rdropWhile (cs : List Char) : trimEnd cs = cs.rdropWhile isBlank := rfl

/-- A text is what is left of it without the blanks at its end, and these blanks. -/
theorem exists_trimEnd_append (cs : List Char) :
    ∃ gap, allBlank gap = true ∧ trimEnd cs ++ gap = cs :=
  ⟨cs.rtakeWhile isBlank, List.all_eq_true.mpr fun _ => List.mem_rtakeWhile_imp,
    List.rdropWhile_append_rtakeWhile ..⟩

/-- A text that does not end in a blank is not trimmed. -/
theorem trimEnd_concat_of_not_blank (cs : List Char) {c : Char} (hc : isBlank c = false) :
    trimEnd (cs ++ [c]) = cs ++ [c] := by
  rw [trimEnd_eq_rdropWhile]
  exact List.rdropWhile_concat_neg _ _ _ (by simp [hc])

/-- Blanks at the end are trimmed. -/
theorem trimEnd_append_of_allBlank (cs : List Char) {gap : List Char} (hgap : allBlank gap = true) :
    trimEnd (cs ++ gap) = trimEnd cs := by
  induction gap using List.reverseRecOn with
  | nil => rw [List.append_nil]
  | append_singleton gap c ih =>
    rw [allBlank_append, Bool.and_eq_true] at hgap
    have hc : isBlank c = true := by simpa [allBlank] using hgap.2
    rw [← ih hgap.1, ← List.append_assoc, trimEnd_eq_rdropWhile,
      List.rdropWhile_concat_pos _ _ _ hc]
    rfl

/-- **The last character that is no blank.** It ends the text without the blanks at its end. -/
theorem getLast?_trimEnd_eq_some_iff {cs : List Char} {c : Char} :
    (trimEnd cs).getLast? = some c ↔
      isBlank c = false ∧ ∃ before gap, allBlank gap = true ∧ cs = before ++ c :: gap := by
  constructor
  · intro h
    have hne : trimEnd cs ≠ [] := by
      intro hnil
      simp [hnil] at h
    obtain rfl : (trimEnd cs).getLast hne = c := by
      rw [List.getLast?_eq_some_getLast hne] at h
      exact Option.some.inj h
    have hlast := List.rdropWhile_last_not isBlank cs hne
    obtain ⟨gap, hgap, hcs⟩ := exists_trimEnd_append cs
    refine ⟨Bool.eq_false_iff.mpr hlast, (trimEnd cs).dropLast, gap, hgap, ?_⟩
    rw [List.append_cons, List.dropLast_concat_getLast, hcs]
  · rintro ⟨hc, before, gap, hgap, rfl⟩
    rw [List.append_cons, trimEnd_append_of_allBlank _ hgap, trimEnd_concat_of_not_blank _ hc]
    simp

/-- A text is blank if and only if it is blank when it is trimmed. -/
theorem allBlank_trimEnd (cs : List Char) : allBlank (trimEnd cs) = allBlank cs := by
  obtain ⟨gap, hgap, hcs⟩ := exists_trimEnd_append cs
  have hall := allBlank_append (trimEnd cs) gap
  rw [hcs, hgap, Bool.and_true] at hall
  exact hall.symm

/-- A text that is not blank ends in a character that is no blank, once it is trimmed. -/
theorem exists_getLast?_trim {cs : List Char} (h : allBlank cs = false) :
    ∃ c, (trim cs).getLast? = some c ∧ isBlank c = false := by
  have hstart : allBlank (trimStart cs) = false := by
    have hsplit : cs.takeWhile isBlank ++ trimStart cs = cs := List.takeWhile_append_dropWhile
    have hgap : allBlank (cs.takeWhile isBlank) = true :=
      List.all_eq_true.mpr fun _ => List.mem_takeWhile_imp
    rw [← hsplit, allBlank_append, hgap, Bool.true_and] at h
    exact h
  cases hlast : (trim cs).getLast? with
  | some c => exact ⟨c, rfl, (getLast?_trimEnd_eq_some_iff.mp hlast).1⟩
  | none =>
    have hnil : trimEnd (trimStart cs) = [] := List.getLast?_eq_none_iff.mp hlast
    have hblank := allBlank_trimEnd (trimStart cs)
    rw [hnil, hstart] at hblank
    cases hblank

/-! ### Cutting at a character -/

/-- What stands before the first separator is the first segment. -/
theorem splitAt_append {sep : Char} {piece : List Char} (h : sep ∉ piece) (cs : List Char) :
    splitAt sep (piece ++ sep :: cs) = piece :: splitAt sep cs := by
  rw [splitAt_append_cons, splitAt_of_not_mem h]
  rfl

/-- Unless the text ends where it is cut, its last segment ends as the text does. -/
theorem getLast?_of_splitAt {sep : Char} {cs : List Char} {front : List (List Char)}
    {last : List Char} (h : splitAt sep cs = front ++ [last]) (hcs : cs.getLast? ≠ some sep) :
    last.getLast? = cs.getLast? := by
  induction cs generalizing front last with
  | nil =>
    have hlast : last ∈ [[]] := by
      rw [splitAt] at h
      simp [h]
    rw [List.mem_singleton.mp hlast]
  | cons c cs ih =>
    -- a separator at the end of the rest would end the whole text
    have hrest : cs.getLast? ≠ some sep := by
      intro hsep
      simp [List.getLast?_cons, hsep] at hcs
    have hne := (Script.splitAt_ne_nil_and_not_mem sep cs).1
    obtain ⟨others, segment, hsegments⟩ :=
      (List.eq_nil_or_concat' (splitAt sep cs)).resolve_left hne
    have hsegment := ih hsegments hrest
    rw [splitAt] at h
    by_cases hc : c = sep
    · rw [if_pos hc, hsegments, ← List.cons_append] at h
      obtain rfl : segment = last := by simpa using (List.append_inj_right' h rfl)
      cases cs with
      | nil => simp [hc] at hcs
      | cons d cs => rw [hsegment, List.getLast?_cons_cons]
    · rw [if_neg hc, hsegments] at h
      cases others with
      | nil =>
        change [] ++ [c :: segment] = front ++ [last] at h
        obtain rfl : c :: segment = last := by simpa using (List.append_inj_right' h rfl)
        rw [List.getLast?_cons, List.getLast?_cons, hsegment]
      | cons other others =>
        change ((c :: other) :: others) ++ [segment] = front ++ [last] at h
        obtain rfl : segment = last := by simpa using (List.append_inj_right' h rfl)
        cases cs with
        | nil => simp [splitAt] at hsegments
        | cons d cs => rw [hsegment, List.getLast?_cons_cons]

end Text

/-! ### Instructions of several lines -/

namespace Script

/-- A text that is one instruction for a reader of scripts: each physical line but the last
    continues in the next, and the last one is not blank and does not continue into what follows the
    text. -/
structure SelfContained (text : List Char) : Prop where
  continued : ∀ line ∈ (Text.splitAt '\n' text).dropLast, [' ', '\\'] <:+ line
  visible : ∀ last ∈ (Text.splitAt '\n' text).getLast?, Text.allBlank last = false
  ended : ∀ last ∈ (Text.splitAt '\n' text).getLast?, last.getLast? ≠ some '\\'

/-- The lines of a continued command are its pieces with their marks. -/
theorem splitAt_joinWith_continued {pieces : List (List Char)} {last : List Char}
    (hpieces : ∀ piece ∈ pieces, '\n' ∉ piece) (hlast : '\n' ∉ last) :
    Text.splitAt '\n' (Text.joinWith [' ', '\\', '\n'] (pieces ++ [last]))
      = pieces.map (· ++ [' ', '\\']) ++ [last] := by
  unfold Text.joinWith
  induction pieces with
  | nil => simpa using Text.splitAt_of_not_mem hlast
  | cons piece pieces ih =>
    obtain ⟨hpiece, hrest⟩ := List.forall_mem_cons.mp hpieces
    obtain ⟨next, rest, hnext⟩ := List.exists_cons_of_ne_nil
      (List.append_ne_nil_of_right_ne_nil pieces (List.cons_ne_nil last []))
    have hmarked : '\n' ∉ piece ++ [' ', '\\'] := by simp [hpiece]
    have htext : [' ', '\\', '\n'].intercalate (piece :: (pieces ++ [last]))
        = (piece ++ [' ', '\\']) ++ '\n' :: [' ', '\\', '\n'].intercalate (pieces ++ [last]) := by
      rw [hnext, List.intercalate_cons_cons]
      simp
    rw [List.cons_append, htext, Text.splitAt_append hmarked, ih hrest]
    rfl

/-- **Physical lines of a command.** They are its lines, bare and each but the last with a
    continuation mark. -/
theorem splitAt_shellContinued {command : List Char} {front : List (List Char)} {last : List Char}
    (h : Text.splitAt '\n' (Text.trim command) = front ++ [last]) :
    Text.splitAt '\n' (shellContinued command)
      = front.map (fun line => bareLine line ++ [' ', '\\']) ++ [bareLine last] := by
  have hfeeds := (splitAt_ne_nil_and_not_mem '\n' (Text.trim command)).2
  rw [h] at hfeeds
  have hbare : ∀ line ∈ front ++ [last], '\n' ∉ bareLine line :=
    fun line hline hmem => hfeeds line hline (bareLine_subset line hmem)
  have hfront : ∀ piece ∈ front.map bareLine, '\n' ∉ piece := by
    intro piece hpiece
    obtain ⟨line, hline, rfl⟩ := List.mem_map.mp hpiece
    exact hbare line (List.mem_append_left _ hline)
  rw [shellContinued, h, List.map_append, List.map_singleton,
    splitAt_joinWith_continued hfront (hbare last (by simp)), List.map_map]
  rfl

/-! ### The last line -/

/-- A line without blanks at its end loses a final backslash, and then the blanks before it. -/
theorem bareLine_concat (cs : List Char) {c : Char} (hc : Text.isBlank c = false) :
    bareLine (cs ++ [c]) = if c = '\\' then Text.trimEnd cs else cs ++ [c] := by
  simp [bareLine, Text.trimEnd_concat_of_not_blank cs hc]

/-- Nothing is left of a line if and only if a backslash is all that it holds. -/
theorem allBlank_bareLine_iff (cs : List Char) {c : Char} (hc : Text.isBlank c = false) :
    Text.allBlank (bareLine (cs ++ [c])) = true ↔
      ∃ gap, Text.allBlank gap = true ∧ cs ++ [c] = gap ++ ['\\'] := by
  rw [bareLine_concat cs hc]
  by_cases hslash : c = '\\'
  · subst hslash
    rw [if_pos rfl, Text.allBlank_trimEnd]
    simp
  · rw [if_neg hslash]
    have hvisible : Text.allBlank (cs ++ [c]) = false := by simp [Text.allBlank, hc]
    simp only [hvisible, Bool.false_eq_true, false_iff]
    rintro ⟨gap, -, heq⟩
    exact hslash (List.singleton_inj.mp (List.append_inj' heq rfl).2)

/-- A line still ends in a backslash if and only if it ended in two, with nothing but blanks between
    them. -/
theorem getLast?_bareLine_eq_backslash_iff (cs : List Char) {c : Char}
    (hc : Text.isBlank c = false) :
    (bareLine (cs ++ [c])).getLast? = some '\\' ↔
      ∃ before gap, Text.allBlank gap = true ∧ cs ++ [c] = before ++ '\\' :: gap ++ ['\\'] := by
  rw [bareLine_concat cs hc]
  by_cases hslash : c = '\\'
  · subst hslash
    rw [if_pos rfl, Text.getLast?_trimEnd_eq_some_iff]
    simp only [hc, true_and, List.append_left_inj]
  · rw [if_neg hslash]
    simp only [List.getLast?_concat, Option.some.injEq, hslash, false_iff]
    rintro ⟨before, gap, -, heq⟩
    exact hslash (List.singleton_inj.mp (List.append_inj' heq rfl).2)

/-! ### Self-contained commands -/

/-- Behind lines that all continue, it is the last line that decides. -/
theorem selfContained_iff_of_splitAt {text : List Char} {pieces : List (List Char)}
    {last : List Char} (h : Text.splitAt '\n' text = pieces.map (· ++ [' ', '\\']) ++ [last]) :
    SelfContained text ↔ Text.allBlank last ≠ true ∧ last.getLast? ≠ some '\\' := by
  constructor
  · intro hself
    have hmem : last ∈ (Text.splitAt '\n' text).getLast? := by simp [h]
    exact ⟨Bool.eq_false_iff.mp (hself.visible last hmem), hself.ended last hmem⟩
  · rintro ⟨hvisible, hended⟩
    constructor
    · simp only [h, List.dropLast_concat, List.mem_map]
      rintro _ ⟨piece, -, rfl⟩
      exact List.suffix_append _ _
    · simpa [h] using hvisible
    · simpa [h] using hended

/-- **Self-contained commands.** Let a command have a character that is no blank, and let `last` be
    the last line of the command without the blanks around it.  Every physical line of the continued
    command but the last ends in a continuation mark, and the last one is what is left of `last`.
    This is blank if and only if `last` holds a single backslash and blanks before it; and it ends
    in a backslash if and only if `last` ends in two, with nothing but blanks between them.  In all
    other cases, and only then, the continued command is self-contained. -/
theorem selfContained_shellContinued_iff {command : List Char}
    (h : Text.allBlank command = false) :
    ∃ front last, Text.splitAt '\n' (Text.trim command) = front ++ [last] ∧
      Text.splitAt '\n' (shellContinued command)
        = front.map (fun line => bareLine line ++ [' ', '\\']) ++ [bareLine last] ∧
      (Text.allBlank (bareLine last) = true ↔
        ∃ gap, Text.allBlank gap = true ∧ last = gap ++ ['\\']) ∧
      ((bareLine last).getLast? = some '\\' ↔
        ∃ before gap, Text.allBlank gap = true ∧ last = before ++ '\\' :: gap ++ ['\\']) ∧
      (SelfContained (shellContinued command) ↔
        ¬ (∃ gap, Text.allBlank gap = true ∧ last = gap ++ ['\\']) ∧
          ¬ ∃ before gap, Text.allBlank gap = true ∧ last = before ++ '\\' :: gap ++ ['\\']) := by
  have hne := (splitAt_ne_nil_and_not_mem '\n' (Text.trim command)).1
  obtain ⟨front, last, hlines⟩ := (List.eq_nil_or_concat' _).resolve_left hne
  -- the last line ends as the trimmed command does
  obtain ⟨c, hend, hc⟩ := Text.exists_getLast?_trim h
  have hfeed : (Text.trim command).getLast? ≠ some '\n' := by
    intro hfeed
    rw [hend] at hfeed
    cases hfeed
    exact absurd hc (by decide)
  have hlast := Text.getLast?_of_splitAt hlines hfeed
  rw [hend] at hlast
  obtain ⟨cs, rfl⟩ := List.getLast?_eq_some_iff.mp hlast
  have hsplit := splitAt_shellContinued hlines
  have hblank := allBlank_bareLine_iff cs hc
  have hslash := getLast?_bareLine_eq_backslash_iff cs hc
  refine ⟨front, cs ++ [c], hlines, hsplit, hblank, hslash, ?_⟩
  have hpieces : front.map (fun line => bareLine line ++ [' ', '\\'])
      = (front.map bareLine).map (· ++ [' ', '\\']) := by
    rw [List.map_map]
    rfl
  rw [hpieces] at hsplit
  rw [← hblank, ← hslash]
  exact selfContained_iff_of_splitAt hsplit

/-- Of a line with a lone backslash nothing is left. -/
theorem shellContinued_lone_backslash :
    Text.allBlank "make\n \\".toList = false ∧
      ¬ SelfContained (shellContinued "make\n \\".toList) := by
  have hcommand : Text.allBlank "make\n \\".toList = false := by decide
  obtain ⟨front, last, hlines, -, -, -, hself⟩ := selfContained_shellContinued_iff hcommand
  have hlast : last = [' '] ++ ['\\'] := by
    have hcut : Text.splitAt '\n' (Text.trim "make\n \\".toList)
        = ["make".toList] ++ [" \\".toList] := by
      decide
    rw [hcut] at hlines
    exact (List.singleton_inj.mp (List.append_inj' hlines rfl).2).symm
  refine ⟨hcommand, fun hcontained => ?_⟩
  exact (hself.mp hcontained).1 ⟨[' '], by decide, hlast⟩

/-- **A continued command that runs on.** Of two backslashes that end a command one stays, and the
    next instruction of a script would be read as part of the command. -/
theorem shellContinued_doubled_backslash :
    Text.allBlank "make \\\\".toList = false ∧
      shellContinued "make \\\\".toList = "make \\".toList ∧
      ¬ SelfContained (shellContinued "make \\\\".toList) := by
  have hscript : shellContinued "make \\\\".toList = "make \\".toList := by decide
  refine ⟨by decide, hscript, fun hcontained => ?_⟩
  rw [hscript] at hcontained
  exact hcontained.ended "make \\".toList (by decide) (by decide)

end Script

end ImageSpec

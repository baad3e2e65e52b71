import ImageSpec.Proofs.Defects
import ImageSpec.Proofs.Layout

namespace ImageSpec

open Realization

/-!
# The lines of variables and labels are read back

A value stands between double quotes, with a backslash before each quote and each backslash in it.
Such a text is read in two places: by whoever runs a script, and by the lexer of specifications,
which also knows line feeds and tabs by a letter behind a backslash.  Both get the value back.

* `Script.unquoted?` — a reader that drops backslashes and stops at the first quote without one.
* `Script.unquoted?_doubleQuoted` — it reads what was quoted and leaves what follows.
* `Script.assignment?` — the variable or label that a line sets.
* `BlockKeyword.assignments_of_check`, `Script.assignments_of_exportLines` — what is read from the
  lines of a block and of a dependency.
* `Script.quoted_values_read_back` — all of this together.
-/

namespace Script

/-! ### Values -/

/-- Reads a value from behind its opening quote: a backslash is dropped and the character behind it
    is kept, and the first other quote ends the value.  A value that nothing ends is none. -/
def unquotedFrom? : List Char → Option (List Char × List Char)
  | [] => none
  | '"' :: rest => some ([], rest)
  | ['\\'] => none
  | '\\' :: c :: rest => (unquotedFrom? rest).map fun (value, after) => (c :: value, after)
  | c :: rest => (unquotedFrom? rest).map fun (value, after) => (c :: value, after)

/-- Reads a value from its opening quote on: the value and what follows its closing quote. -/
def unquoted? : List Char → Option (List Char × List Char)
  | '"' :: rest => unquotedFrom? rest
  | _ => none

/-- An escaped value is read back, up to the quote behind it. -/
theorem unquotedFrom?_escaped (value rest : List Char) :
    unquotedFrom? (Lexer.escaped value ++ '"' :: rest) = some (value, rest) := by
  induction value with
  | nil => rfl
  | cons c value ih =>
    rw [Lexer.escaped_cons]
    -- only quotes and backslashes are escaped
    by_cases hc : c = '"' ∨ c = '\\'
    · rw [if_pos hc, List.append_assoc, List.cons_append, List.cons_append, List.nil_append,
        unquotedFrom?, ih]
      rfl
    · rw [if_neg hc, List.append_assoc, List.singleton_append, unquotedFrom?, ih]
      · rfl
      · exact fun h => hc (Or.inl h)
      · exact fun h _ => hc (Or.inr h)
      · exact fun _ _ h _ => hc (Or.inr h)

/-- A quoted value is a quote, the escaped value and another quote. -/
theorem doubleQuoted_append (value rest : List Char) :
    doubleQuoted value ++ rest = '"' :: (Lexer.escaped value ++ '"' :: rest) := by
  simp [doubleQuoted, Lexer.escaped]

/-- **Values.** A value is read back from between its quotes, whatever it holds and whatever
    follows. -/
theorem unquoted?_doubleQuoted (value rest : List Char) :
    unquoted? (doubleQuoted value ++ rest) = some (value, rest) := by
  rw [doubleQuoted_append, unquoted?, unquotedFrom?_escaped]

/-! ### Assignments -/

/-- What a line sets: a variable or a label. -/
structure Assignment where
  keyword : BlockKeyword
  key : String
  value : String
deriving DecidableEq, Repr

/-- The value that a whole text is. -/
def wholeValue? (cs : List Char) : Option String :=
  match unquoted? cs with
  | some (value, []) => some (String.ofList value)
  | _ => none

/-- Reads a line: the name of a variable ends at the first `=`, and that of a label stands between
    quotes. -/
def assignment? : Line → Option Assignment
  | 'E' :: 'N' :: 'V' :: ' ' :: arguments =>
    match Text.cutAt '=' arguments with
    | some (key, rest) => (wholeValue? rest).map fun value => ⟨.env, String.ofList key, value⟩
    | none => none
  | 'L' :: 'A' :: 'B' :: 'E' :: 'L' :: ' ' :: arguments =>
    match unquoted? arguments with
    | some (key, '=' :: rest) =>
      (wholeValue? rest).map fun value => ⟨.label, String.ofList key, value⟩
    | _ => none
  | _ => none

/-- A text that is one quoted value is read as that value. -/
theorem wholeValue?_doubleQuoted (value : String) :
    wholeValue? (doubleQuoted value.toList) = some value := by
  have hread := unquoted?_doubleQuoted value.toList []
  rw [List.append_nil] at hread
  simp [wholeValue?, hread]

/-- The line of a variable tells its name and its value, if there is no `=` in the name. -/
theorem assignment?_envLine {key : String} (hkey : '=' ∉ key.toList) (value : String) :
    assignment? (envLine key value) = some ⟨.env, key, value⟩ := by
  have hcut : Text.cutAt '=' (key.toList ++ '=' :: doubleQuoted value.toList)
      = some (key.toList, doubleQuoted value.toList) := Text.cutAt_eq_some_iff.mpr ⟨rfl, hkey⟩
  have hline : envLine key value
      = 'E' :: 'N' :: 'V' :: ' ' :: (key.toList ++ '=' :: doubleQuoted value.toList) := by
    simp [envLine, line]
  rw [hline, assignment?, hcut]
  simp [wholeValue?_doubleQuoted]

/-- The line of a label tells its name and its value, whatever they are. -/
theorem assignment?_labelLine (key value : String) :
    assignment? (labelLine key value) = some ⟨.label, key, value⟩ := by
  have hline : labelLine key value = 'L' :: 'A' :: 'B' :: 'E' :: 'L' :: ' '
      :: (doubleQuoted key.toList ++ '=' :: doubleQuoted value.toList) := by
    simp [labelLine, line]
  rw [hline, assignment?, unquoted?_doubleQuoted]
  simp [wholeValue?_doubleQuoted]

end Script

/-! ### Blocks -/

namespace BlockKeyword

/-- The line of an entry. -/
def line (k : BlockKeyword) (pair : String × String) : Script.Line :=
  match k with
  | env => Script.envLine pair.1 pair.2
  | label => Script.labelLine pair.1 pair.2

/-- The lines of a block are one for each entry. -/
theorem actionLines_action (naming : Script.Naming) (k : BlockKeyword)
    {pairs : List (String × String)} (hne : pairs ≠ []) :
    Script.actionLines naming (k.action pairs) = .ok (pairs.map k.line) := by
  have hfilled : pairs.isEmpty = false := by simpa using hne
  cases k <;> rw [action, Script.actionLines, hfilled] <;> rfl

/-- What passes the check of an entry is the entry, and its line is read back. -/
theorem assignment?_of_checkEntry {k : BlockKeyword} {e : Entry} {pair : String × String}
    (h : k.checkEntry e = .ok pair) :
    pair = (e.key, e.value) ∧ Script.assignment? (k.line pair) = some ⟨k, e.key, e.value⟩ := by
  unfold checkEntry at h
  split at h
  · cases h
  · next hkey =>
    split at h
    · cases h
    · cases h
      refine ⟨rfl, ?_⟩
      cases k with
      | env =>
        have hname : isVariableName e.key = true := by
          rw [checkKey] at hkey
          split at hkey
          · assumption
          · cases hkey
        exact Script.assignment?_envLine (not_mem_of_isVariableName rfl hname) e.value
      | label => exact Script.assignment?_labelLine e.key e.value

/-- The lines of entries that pass their check tell keys and values. -/
theorem assignments_of_checkEntries {k : BlockKeyword} {entries : List Entry}
    {pairs : List (String × String)} (h : k.checkEntries entries = .ok pairs) :
    (pairs.map k.line).map Script.assignment?
      = entries.map fun e => some ⟨k, e.key, e.value⟩ := by
  induction entries generalizing pairs with
  | nil =>
    cases h
    rfl
  | cons e entries ih =>
    rw [checkEntries] at h
    split at h
    · cases h
    · next pair hpair =>
      obtain ⟨rest, hrest, rfl⟩ := map_eq_ok_iff.mp h
      rw [List.map_cons, List.map_cons, (assignment?_of_checkEntry hpair).2, ih hrest,
        List.map_cons]

/-- **Blocks.** A block that passes its check has a line for each entry, from which the entry is read
    back. -/
theorem assignments_of_check (naming : Script.Naming) {k : BlockKeyword} {position : Position}
    {entries : List Entry} {a : Action} (h : k.check position entries = .ok a) :
    ∃ lines, Script.actionLines naming a = .ok lines ∧
      lines.map Script.assignment? = entries.map fun e => some ⟨k, e.key, e.value⟩ := by
  unfold check at h
  split at h
  · cases h
  · next hentries =>
    obtain ⟨pairs, hpairs, rfl⟩ := map_eq_ok_iff.mp h
    have hne : pairs ≠ [] := ne_nil_of_checkEntries hpairs (by simpa using hentries)
    exact ⟨_, actionLines_action naming k hne, assignments_of_checkEntries hpairs⟩

end BlockKeyword

namespace Script

/-! ### Dependencies -/

/-- The lines of the variables that a dependency sets tell keys and values. -/
theorem assignments_of_exportLines {name : String} {pairs : List (String × String)}
    {lines : List Line} (h : exportLines name pairs = .ok lines) :
    lines.map assignment? = pairs.map fun pair => some ⟨.env, pair.1, pair.2⟩ := by
  induction pairs generalizing lines with
  | nil =>
    cases h
    rfl
  | cons pair pairs ih =>
    obtain ⟨key, value⟩ := pair
    rw [exportLines] at h
    split at h
    · cases h
    · next hkey =>
      split at h
      · cases h
      · obtain ⟨others, hothers, rfl⟩ := map_eq_ok_iff.mp h
        have hname : isVariableName key = true := by simpa using hkey
        rw [List.map_cons, assignment?_envLine (not_mem_of_isVariableName rfl hname), ih hothers,
          List.map_cons]

/-- **Dependencies.** Behind the line that brings a dependency in there is a line for each variable
    that it sets, from which the variable is read back. -/
theorem assignments_of_dependencyLines {naming : Naming} {d : Definition} {lines : List Line}
    (h : dependencyLines naming d = .ok lines) :
    ∃ first others, lines = first :: others ∧ installLine naming d = .ok first ∧
      others.map assignment? = d.exports.map fun pair => some ⟨.env, pair.1, pair.2⟩ := by
  unfold dependencyLines at h
  split at h
  · cases h
  · next first hfirst =>
    obtain ⟨others, hothers, rfl⟩ := map_eq_ok_iff.mp h
    exact ⟨first, others, rfl, hfirst, assignments_of_exportLines hothers⟩

/-- **Quoted values are read back.** Reading from the opening quote of a value on, both a reader that
    drops backslashes and the lexer of specifications give the value and leave what follows its
    closing quote.  So the lines that are written for the entries of a block that passed its check,
    and for the variables that a dependency sets, tell the keys and the values. -/
theorem quoted_values_read_back :
    (∀ value rest, unquoted? (doubleQuoted value ++ rest) = some (value, rest)) ∧
    (∀ value rest, ∃ body, doubleQuoted value ++ rest = '"' :: body ∧
      Lexer.lexeme '"' body = some ⟨.literal (String.ofList value), doubleQuoted value, rest⟩) ∧
    (∀ (naming : Naming) (k : BlockKeyword) (position : Position) (entries : List Entry)
      (a : Action), k.check position entries = .ok a →
      ∃ lines, actionLines naming a = .ok lines ∧
        lines.map assignment? = entries.map fun e => some ⟨k, e.key, e.value⟩) ∧
    (∀ (naming : Naming) (d : Definition) (lines : List Line),
      actionLines naming (.dep d) = .ok lines →
      ∃ first others, lines = first :: others ∧ installLine naming d = .ok first ∧
        others.map assignment? = d.exports.map fun pair => some ⟨.env, pair.1, pair.2⟩) := by
  refine ⟨unquoted?_doubleQuoted, fun value rest => ?_,
    fun naming k position entries a => BlockKeyword.assignments_of_check naming,
    fun naming d lines => assignments_of_dependencyLines⟩
  refine ⟨Lexer.escaped value ++ '"' :: rest, doubleQuoted_append value rest, ?_⟩
  -- the lexer escapes as scripts do
  have hlexeme := (Lexer.starts_literal value rest).lexeme_eq
  rw [List.append_assoc, List.singleton_append] at hlexeme
  exact hlexeme

/-- Labels with quotes, backslashes and signs of equality on both sides. -/
def knottedLabels : List Entry :=
  [⟨⟨2, 3⟩, "a=\"b\"", "\\"⟩, ⟨⟨3, 3⟩, "a", "=\"\\\"b\""⟩]

/-- A tool that sets a variable to a path with a quote and a backslash at its end. -/
def knottedTool : Definition :=
  ⟨"msvc", "14", Realization.sampleDigest, KeyMap.empty.insert "env.DIR" "C:\\\"x\"\\"⟩

/-- Keys and values that try to look like their surroundings are read back. -/
theorem knotted_values_read_back :
    (BlockKeyword.label.check ⟨1, 1⟩ knottedLabels
        = .ok (.label [("a=\"b\"", "\\"), ("a", "=\"\\\"b\"")]) ∧
      ∃ lines, actionLines Definition.canonical
          (.label [("a=\"b\"", "\\"), ("a", "=\"\\\"b\"")]) = .ok lines ∧
        lines.map assignment?
          = [some ⟨.label, "a=\"b\"", "\\"⟩, some ⟨.label, "a", "=\"\\\"b\""⟩]) ∧
    ∃ first other, actionLines Definition.canonical (.dep knottedTool) = .ok [first, other] ∧
      assignment? other = some ⟨.env, "DIR", "C:\\\"x\"\\"⟩ := by
  have hcheck : BlockKeyword.label.check ⟨1, 1⟩ knottedLabels
      = .ok (.label [("a=\"b\"", "\\"), ("a", "=\"\\\"b\"")]) := by decide
  have hlines : actionLines Definition.canonical (.dep knottedTool)
      = .ok ["COPY --from=msvc:14@sha512:ab12 / /".toList,
        "ENV DIR=\"C:\\\\\\\"x\\\"\\\\\"".toList] := by
    with_unfolding_all rfl
  obtain ⟨-, -, hblocks, hdependencies⟩ := quoted_values_read_back
  refine ⟨⟨hcheck, hblocks _ _ _ _ _ hcheck⟩, _, _, hlines, ?_⟩
  obtain ⟨first, others, hfirst, -, hothers⟩ := hdependencies _ _ _ hlines
  cases hfirst
  have hexports : knottedTool.exports = [("DIR", "C:\\\"x\"\\")] := by with_unfolding_all rfl
  rw [hexports] at hothers
  exact List.singleton_inj.mp hothers

end Script

end ImageSpec

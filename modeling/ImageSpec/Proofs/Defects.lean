import ImageSpec.Proofs.Composition
import ImageSpec.Proofs.OneLine

namespace ImageSpec

open Realization

/-!
# Steps that cannot be written

A realization checks the values of a specification, and a script checks them again when it is
written, by rules of its own.  The second check never fails on what has passed the first one: only
definitions, which no realization looks into, can keep a script from being written.

* `IsVariable`, `Script.Substituted`, `Script.Installs` — names of variables, and the commands that
  templates stand for, each with the function that decides or computes it.
* `Script.Defect` — what can be wrong with the definition behind a base image or a dependency.
* `Keyword.writable_of_check`, `BlockKeyword.writable_of_check` — what passes its check can be
  written.
* `Script.defect_of_actionLines`, `Script.Defect.not_writable` — a base image or a dependency cannot
  be written exactly when its definition has a defect.
* `Script.linesAfter_eq_error_iff` — the fault of a script is that of the first step which cannot be
  written.
* `Realization.render_fails_iff_defect` — the scripts of realizations.
-/

/-- A text that can stand as the name of a variable: a letter or `_`, and then letters, digits and
    `_`. -/
def IsVariable (name : String) : Prop :=
  ∃ c cs, name.toList = c :: cs ∧ (c.isAlpha = true ∨ c = '_') ∧
    ∀ d ∈ cs, d.isAlpha = true ∨ d.isDigit = true ∨ d = '_'

/-- The names that are accepted are those of variables. -/
theorem isVariableName_iff {name : String} : isVariableName name = true ↔ IsVariable name := by
  unfold isVariableName IsVariable
  split
  · next hnil => simp [hnil]
  · next c cs hcons => simp [hcons, Char.isAlphanum, or_assoc]

namespace Script

/-- The values that are refused have a line feed or a carriage return. -/
theorem hasAnyBreak_iff {value : String} :
    hasAnyBreak value = true ↔ '\n' ∈ value.toList ∨ '\r' ∈ value.toList := by
  simp [hasAnyBreak, and_or_left, exists_or]

/-- A text with a replacement for every occurrence of a pattern, from the left: what comes from the
    replacement is not looked at again, and occurrences do not overlap. -/
inductive Substituted (pattern replacement : List Char) : List Char → List Char → Prop where
  | nil : Substituted pattern replacement [] []
  | occurrence {rest result : List Char} (h : Substituted pattern replacement rest result) :
    Substituted pattern replacement (pattern ++ rest) (replacement ++ result)
  | char {c : Char} {rest result : List Char} (hc : ¬ pattern <+: c :: rest)
    (h : Substituted pattern replacement rest result) :
    Substituted pattern replacement (c :: rest) (c :: result)

/-- Every text has what is substituted in it. -/
theorem substituted_replaceAll (first : Char) (others replacement cs : List Char) :
    Substituted (first :: others) replacement cs (replaceAll first others replacement cs) := by
  fun_induction replaceAll first others replacement cs with
  | case1 => exact .nil
  | case2 c rest hstart ih =>
    obtain ⟨after, hafter⟩ := List.isPrefixOf_iff_prefix.mp hstart
    rw [List.cons_append] at hafter
    obtain ⟨rfl, rfl⟩ := List.cons.inj hafter
    rw [List.drop_left] at ih ⊢
    exact .occurrence ih
  | case3 c rest hstart ih => exact .char (mt List.isPrefixOf_iff_prefix.mpr hstart) ih

/-- **Substitution.** Replacing computes what is substituted, and nothing else is. -/
theorem substituted_iff {first : Char} {others replacement cs result : List Char} :
    Substituted (first :: others) replacement cs result ↔
      result = replaceAll first others replacement cs := by
  constructor
  · intro h
    induction h with
    | nil => rw [replaceAll]
    | @occurrence rest result h ih =>
      have hstart : (first :: others).isPrefixOf (first :: (others ++ rest)) = true :=
        List.isPrefixOf_iff_prefix.mpr (List.prefix_append (first :: others) rest)
      rw [List.cons_append, replaceAll, if_pos hstart, List.drop_left, ih]
    | char hc h ih => rw [replaceAll, if_neg (mt List.isPrefixOf_iff_prefix.mp hc), ih]
  · rintro rfl
    exact substituted_replaceAll first others replacement cs

/-- The command that a template stands for: first the name of the definition is substituted for its
    placeholder, then the version in what comes of that, and at last the digest. -/
def Installs (template : String) (d : Definition) (command : List Char) : Prop :=
  ∃ named versioned, Substituted "\x7bname\x7d".toList d.name.toList template.toList named ∧
    Substituted "\x7bversion\x7d".toList d.version.toList named versioned ∧
    Substituted "\x7bdigest\x7d".toList d.digest.text.toList versioned command

/-- A template stands for the command that is written. -/
theorem installs_iff {template : String} {d : Definition} {command : List Char} :
    Installs template d command ↔ command = installCommand template d := by
  constructor
  · rintro ⟨named, versioned, hname, hversion, hdigest⟩
    rw [substituted_iff.mp hdigest, substituted_iff.mp hversion, substituted_iff.mp hname]
    rfl
  · rintro rfl
    exact ⟨_, _, substituted_replaceAll .., substituted_replaceAll .., substituted_replaceAll ..⟩

/-- What is wrong with the definition behind an action, and the fault that it causes. -/
inductive Defect (naming : Naming) : Action → EmissionFault → Prop where
  /-- The base image has no name in scripts. -/
  | base {d : Definition} {cause : LookupError} (h : naming d = .error cause) :
    Defect naming (.base d) (.uncanonical d.name cause)
  /-- A dependency that is copied from its image has no name in scripts. -/
  | dep {d : Definition} {cause : LookupError} (hplain : d.installTemplate = none)
    (h : naming d = .error cause) : Defect naming (.dep d) (.uncanonical d.name cause)
  /-- The command that installs a dependency is white space. -/
  | install {d : Definition} {template : String} {command : List Char}
    (h : d.installTemplate = some template) (hcommand : Installs template d command)
    (hblank : ∀ c ∈ command, Text.isBlank c = true) : Defect naming (.dep d) (.emptyInstall d.name)
  /-- A dependency sets a variable whose name is none. -/
  | name {d : Definition} {key value : String} (h : (key, value) ∈ d.exports)
    (hkey : ¬ IsVariable key) : Defect naming (.dep d) (.badVariable d.name key)
  /-- A dependency sets a variable to a value with a line break. -/
  | value {d : Definition} {key value : String} (h : (key, value) ∈ d.exports)
    (hvalue : '\n' ∈ value.toList ∨ '\r' ∈ value.toList) :
    Defect naming (.dep d) (.longVariable d.name key)

/-- An action has lines in a script. -/
def Writable (naming : Naming) (a : Action) : Prop := ∃ lines, actionLines naming a = .ok lines

variable {naming : Naming}

theorem exists_map_eq_ok {ε α β : Type} {x : Except ε α} (f : α → β) (h : ∃ a, x = .ok a) :
    ∃ b, x.map f = .ok b := by
  obtain ⟨a, rfl⟩ := h
  exact ⟨f a, rfl⟩

/-! ### Lines of checked values -/

/-- A text that is not empty and has no line break can be written. -/
theorem exists_textLine (instruction : String) {value : String} (hne : value ≠ "")
    (hbreak : hasLineBreak value = false) : ∃ l, textLine instruction value = .ok l := by
  have hempty : value.isEmpty = false := by simpa using hne
  exact ⟨_, by rw [textLine, hempty, hbreak, Bool.or_self, if_neg Bool.false_ne_true]⟩

/-- The empty text is blank, so that a text which is not blank is not empty. -/
theorem ne_empty_of_not_blank {s : String} (h : ¬ isBlankText s = true) : s ≠ "" := by
  rintro rfl
  exact h rfl

/-- A text that passes the check of a command is not blank, and it is the command. -/
theorem shell_of_checkCommand {k : Keyword} {manyLines : Bool} {line : String} {command : Command}
    (h : k.checkCommand manyLines (.text line) = .ok command) :
    isBlankText line = false ∧ command = .shell line := by
  rw [Keyword.checkCommand] at h
  by_cases hblank : isBlankText line = true
  · rw [if_pos hblank] at h
    cases h
  · rw [if_neg hblank] at h
    split at h <;> cases h
    exact ⟨Bool.eq_false_iff.mpr hblank, rfl⟩

/-- A list that passes the check of a command is not empty, and it is the command. -/
theorem exec_of_checkCommand {k : Keyword} {manyLines : Bool} {arguments : List String}
    {command : Command} (h : k.checkCommand manyLines (.list arguments) = .ok command) :
    arguments.isEmpty = false ∧ command = .exec arguments := by
  cases arguments with
  | nil => cases h
  | cons program arguments =>
    rw [Keyword.checkCommand] at h
    split at h <;> cases h
    exact ⟨rfl, rfl⟩

/-- A text that is not blank is written as a command. -/
theorem commandLine_shell (instruction : String) {command : String}
    (h : isBlankText command = false) :
    commandLine instruction (.shell command)
      = .ok (line instruction (shellContinued command.toList)) := by
  rw [commandLine, h, if_neg Bool.false_ne_true]

/-- A list that is not empty is written as a command. -/
theorem commandLine_exec (instruction : String) {arguments : List String}
    (h : arguments.isEmpty = false) :
    commandLine instruction (.exec arguments) = .ok (line instruction (execForm arguments)) := by
  rw [commandLine, h, if_neg Bool.false_ne_true]

/-- A command that passes its check can be written. -/
theorem exists_commandLine_of_checkCommand (instruction : String) {k : Keyword} {manyLines : Bool}
    {value : Value} {command : Command} (h : k.checkCommand manyLines value = .ok command) :
    ∃ l, commandLine instruction command = .ok l := by
  cases value with
  | integer n => cases h
  | text line =>
    obtain ⟨hblank, rfl⟩ := shell_of_checkCommand h
    exact ⟨_, commandLine_shell instruction hblank⟩
  | list arguments =>
    obtain ⟨hempty, rfl⟩ := exec_of_checkCommand h
    exact ⟨_, commandLine_exec instruction hempty⟩

/-- A text that passes its check can be written. -/
theorem exists_textLine_of_checkLine (instruction : String) {k : Keyword} {value : Value}
    {s : String} (h : k.checkLine value = .ok s) : ∃ l, textLine instruction s = .ok l := by
  cases value with
  | integer n => cases h
  | list items => cases h
  | text s =>
    rw [Keyword.checkLine] at h
    split at h
    · cases h
    · next hblank =>
      split at h
      · cases h
      · next hbreak =>
        cases h
        exact exists_textLine instruction (ne_empty_of_not_blank hblank) (by simpa using hbreak)

/-- The number of a user is written in digits. -/
theorem exists_textLine_of_checkUser (instruction : String) {value : Value} {s : String}
    (h : Keyword.checkUser value = .ok s) : ∃ l, textLine instruction s = .ok l := by
  unfold Keyword.checkUser at h
  split at h
  · next n =>
    split at h
    · next hn =>
      cases h
      obtain ⟨m, rfl⟩ := Int.eq_ofNat_of_zero_le hn
      have hdigits : (Int.repr m).toList = Nat.toDigits 10 m := Nat.toList_repr
      have hbreak : '\n' ∉ (Int.repr m).toList := lineFeed_not_mem_repr m
      refine exists_textLine instruction ?_ (hasLineBreak_eq_false_iff.mpr hbreak)
      intro hempty
      rw [hempty] at hdigits
      exact Nat.toDigits_ne_nil hdigits.symm
    · cases h
  · exact exists_textLine_of_checkLine instruction h

/-- A copy with a source can be written. -/
theorem exists_copyLine {sources : List String} (destination : String) (h : sources ≠ []) :
    ∃ l, copyLine sources destination = .ok l := by
  unfold copyLine
  dsimp only
  rw [if_neg (by simpa using h)]
  split
  · exact ⟨_, rfl⟩
  · exact ⟨_, rfl⟩

end Script

/-- **Instructions.** A value that passes the check of its keyword can be written. -/
theorem Keyword.writable_of_check (naming : Script.Naming) {k : Keyword} {value : Value}
    {a : Action} (h : k.check value = .ok a) : Script.Writable naming a := by
  cases k with
  | run | cmd | entrypoint =>
    obtain ⟨command, hcommand, rfl⟩ := map_eq_ok_iff.mp h
    exact Script.exists_map_eq_ok _ (Script.exists_commandLine_of_checkCommand _ hcommand)
  | workdir =>
    obtain ⟨s, hs, rfl⟩ := map_eq_ok_iff.mp h
    exact Script.exists_map_eq_ok _ (Script.exists_textLine_of_checkLine _ hs)
  | user =>
    obtain ⟨s, hs, rfl⟩ := map_eq_ok_iff.mp h
    exact Script.exists_map_eq_ok _ (Script.exists_textLine_of_checkUser _ hs)
  | expose =>
    obtain ⟨port, -, rfl⟩ := map_eq_ok_iff.mp h
    exact ⟨_, rfl⟩
  | copy =>
    obtain ⟨sources, destination, hne, -, rfl⟩ := exists_of_checkCopy h
    exact Script.exists_map_eq_ok _ (Script.exists_copyLine destination hne)

/-- Entries that pass their check make as many pairs, so at least one. -/
theorem BlockKeyword.ne_nil_of_checkEntries {k : BlockKeyword} {entries : List Entry}
    {pairs : List (String × String)} (h : k.checkEntries entries = .ok pairs)
    (hne : entries ≠ []) : pairs ≠ [] := by
  cases entries with
  | nil => exact absurd rfl hne
  | cons e rest =>
    rw [checkEntries] at h
    split at h
    · cases h
    · obtain ⟨others, -, rfl⟩ := map_eq_ok_iff.mp h
      exact List.cons_ne_nil _ _

/-- **Blocks.** Entries that pass the check of their keyword can be written. -/
theorem BlockKeyword.writable_of_check (naming : Script.Naming) {k : BlockKeyword}
    {position : Position} {entries : List Entry} {a : Action}
    (h : k.check position entries = .ok a) : Script.Writable naming a := by
  unfold check at h
  split at h
  · cases h
  · next hentries =>
    obtain ⟨pairs, hpairs, rfl⟩ := map_eq_ok_iff.mp h
    have hne : pairs ≠ [] := ne_nil_of_checkEntries hpairs (by simpa using hentries)
    have hempty : ¬ pairs.isEmpty = true := by simpa using hne
    cases k with
    | env => exact ⟨_, by rw [action, Script.actionLines, if_neg hempty]⟩
    | label => exact ⟨_, by rw [action, Script.actionLines, if_neg hempty]⟩

/-! ### Lines of definitions -/

namespace Script

variable {naming : Naming}

/-- A definition has no name in a script exactly where the naming fails. -/
theorem nameOf_eq_error_iff {d : Definition} {fault : EmissionFault} :
    nameOf naming d = .error fault ↔
      ∃ cause, naming d = .error cause ∧ fault = .uncanonical d.name cause := by
  unfold nameOf
  cases naming d with
  | ok name => simp
  | error cause => simp [eq_comm]

/-- The variables of a definition cannot be written for the name or the value of one of them. -/
theorem exists_mem_of_exportLines {name : String} {pairs : List (String × String)}
    {fault : EmissionFault} (h : exportLines name pairs = .error fault) :
    ∃ key value, (key, value) ∈ pairs ∧
      (¬ IsVariable key ∧ fault = .badVariable name key ∨
        ('\n' ∈ value.toList ∨ '\r' ∈ value.toList) ∧ fault = .longVariable name key) := by
  induction pairs with
  | nil => cases h
  | cons pair rest ih =>
    obtain ⟨key, value⟩ := pair
    rw [exportLines] at h
    split at h
    · next hkey =>
      cases h
      rw [Bool.not_eq_true', ← Bool.not_eq_true, isVariableName_iff] at hkey
      exact ⟨key, value, List.mem_cons_self, Or.inl ⟨hkey, rfl⟩⟩
    · split at h
      · next hvalue =>
        cases h
        exact ⟨key, value, List.mem_cons_self, Or.inr ⟨hasAnyBreak_iff.mp hvalue, rfl⟩⟩
      · obtain ⟨key', value', hmem, hfault⟩ := ih (map_eq_error_iff.mp h)
        exact ⟨key', value', List.mem_cons_of_mem _ hmem, hfault⟩

/-- One bad name or value is enough. -/
theorem exists_exportLines_eq_error (name : String) {key value : String}
    {pairs : List (String × String)} (hmem : (key, value) ∈ pairs)
    (hbad : ¬ IsVariable key ∨ '\n' ∈ value.toList ∨ '\r' ∈ value.toList) :
    ∃ fault, exportLines name pairs = .error fault := by
  cases hlines : exportLines name pairs with
  | error fault => exact ⟨fault, rfl⟩
  | ok lines =>
    exfalso
    induction pairs generalizing lines with
    | nil => cases hmem
    | cons pair rest ih =>
      obtain ⟨key', value'⟩ := pair
      rw [exportLines] at hlines
      split at hlines
      · cases hlines
      · next hkey =>
        split at hlines
        · cases hlines
        · next hvalue =>
          obtain ⟨others, hothers, -⟩ := map_eq_ok_iff.mp hlines
          rcases List.mem_cons.mp hmem with heq | hmem
          · cases heq
            rcases hbad with hbad | hbad
            · rw [← isVariableName_iff, Bool.not_eq_true] at hbad
              exact hkey (by simp [hbad])
            · exact hvalue (hasAnyBreak_iff.mpr hbad)
          · exact ih hmem others hothers

/-- Where a dependency cannot be brought in, its definition has a defect. -/
theorem defect_of_installLine {d : Definition} {fault : EmissionFault}
    (h : installLine naming d = .error fault) : Defect naming (.dep d) fault := by
  unfold installLine at h
  split at h
  · next template htemplate =>
    dsimp only at h
    split at h
    · next hblank =>
      cases h
      exact .install htemplate (installs_iff.mpr rfl) (List.all_eq_true.mp hblank)
    · cases h
  · next hplain =>
    obtain ⟨cause, hcause, rfl⟩ := nameOf_eq_error_iff.mp (map_eq_error_iff.mp h)
    exact .dep hplain hcause

/-- **Definitions.** Where a base image or a dependency cannot be written, the fault is one of its
    definition. -/
theorem defect_of_actionLines {a : Action} {fault : EmissionFault} (ha : a.definition? ≠ none)
    (h : actionLines naming a = .error fault) : Defect naming a fault := by
  cases a with
  | base d =>
    obtain ⟨cause, hcause, rfl⟩ := nameOf_eq_error_iff.mp (map_eq_error_iff.mp h)
    exact .base hcause
  | dep d =>
    rw [actionLines, dependencyLines] at h
    split at h
    · next hinstall =>
      cases h
      exact defect_of_installLine hinstall
    · obtain ⟨key, value, hmem, hfault⟩ := exists_mem_of_exportLines (map_eq_error_iff.mp h)
      rcases hfault with ⟨hkey, rfl⟩ | ⟨hvalue, rfl⟩
      · exact .name hmem hkey
      · exact .value hmem hvalue
  | _ => exact absurd rfl ha

/-- A dependency with a bad variable cannot be written, whatever installs it. -/
theorem not_writable_of_export {d : Definition} {key value : String}
    (hmem : (key, value) ∈ d.exports)
    (hbad : ¬ IsVariable key ∨ '\n' ∈ value.toList ∨ '\r' ∈ value.toList) :
    ¬ Writable naming (.dep d) := by
  rintro ⟨lines, hlines⟩
  obtain ⟨fault, hfault⟩ := exists_exportLines_eq_error d.name hmem hbad
  rw [actionLines, dependencyLines] at hlines
  split at hlines
  · cases hlines
  · rw [hfault] at hlines
    cases hlines

/-- A definition with a defect keeps its action from being written. -/
theorem Defect.not_writable {a : Action} {fault : EmissionFault} (h : Defect naming a fault) :
    ¬ Writable naming a := by
  cases h with
  | base h =>
    rintro ⟨lines, hlines⟩
    rw [actionLines, nameOf, h] at hlines
    cases hlines
  | dep hplain h =>
    rintro ⟨lines, hlines⟩
    rw [actionLines, dependencyLines, installLine, hplain] at hlines
    dsimp only at hlines
    rw [nameOf, h] at hlines
    cases hlines
  | @install d template command h hcommand hblank =>
    rintro ⟨lines, hlines⟩
    obtain rfl := installs_iff.mp hcommand
    have hall : Text.allBlank (installCommand template d) = true := List.all_eq_true.mpr hblank
    rw [actionLines, dependencyLines, installLine, h] at hlines
    dsimp only at hlines
    rw [if_pos hall] at hlines
    cases hlines
  | name h hkey => exact not_writable_of_export h (Or.inl hkey)
  | value h hvalue => exact not_writable_of_export h (Or.inr hvalue)

/-! ### Scripts -/

/-- **The first fault.** The fault of a script is that of the first step that cannot be written, at
    the position of that step. -/
theorem linesAfter_eq_error_iff {previous : Option String} {steps : List Step}
    {e : EmissionError} :
    linesAfter naming previous steps = .error e ↔ ∃ before step after,
      steps = before ++ step :: after ∧ (∀ x ∈ before, Writable naming x.action) ∧
        e.position = step.position ∧ actionLines naming step.action = .error e.fault := by
  induction steps generalizing previous with
  | nil => simp [linesAfter]
  | cons first rest ih =>
    rw [linesAfter]
    cases hfirst : actionLines naming first.action with
    | error fault =>
      constructor
      · intro h
        cases h
        exact ⟨[], first, rest, rfl, by simp, rfl, hfirst⟩
      · rintro ⟨before, step, after, hsteps, hbefore, hposition, hfault⟩
        cases before with
        | nil =>
          cases hsteps
          rw [hfirst] at hfault
          cases hfault
          rw [← hposition]
        | cons x before =>
          -- the first step would be among those that can be written
          cases hsteps
          obtain ⟨lines, hlines⟩ := hbefore first List.mem_cons_self
          rw [hfirst] at hlines
          cases hlines
    | ok lines =>
      rw [map_eq_error_iff, ih]
      constructor
      · rintro ⟨before, step, after, rfl, hbefore, hrest⟩
        refine ⟨first :: before, step, after, rfl, ?_, hrest⟩
        exact List.forall_mem_cons.mpr ⟨⟨lines, hfirst⟩, hbefore⟩
      · rintro ⟨before, step, after, hsteps, hbefore, hposition, hfault⟩
        cases before with
        | nil =>
          cases hsteps
          rw [hfirst] at hfault
          cases hfault
        | cons x before =>
          cases hsteps
          exact ⟨before, step, after, rfl, (List.forall_mem_cons.mp hbefore).2, hposition, hfault⟩

/-- The fault of a script is that of the first step which cannot be written. -/
theorem render_eq_error_iff {steps : List Step} {e : EmissionError} :
    render naming steps = .error e ↔ ∃ before step after,
      steps = before ++ step :: after ∧ (∀ x ∈ before, Writable naming x.action) ∧
        e.position = step.position ∧ actionLines naming step.action = .error e.fault := by
  rw [render, map_eq_error_iff, ofSteps, linesAfter_eq_error_iff]

/-- Every step of a script that is written can be written. -/
theorem writable_of_linesAfter {previous : Option String} {steps : List Step} {lines : List Line}
    (h : linesAfter naming previous steps = .ok lines) {step : Step} (hmem : step ∈ steps) :
    Writable naming step.action := by
  induction steps generalizing previous lines with
  | nil => cases hmem
  | cons first rest ih =>
    obtain ⟨part, others, hpart, hothers, -⟩ := linesAfter_cons_eq_ok_iff.mp h
    rcases List.mem_cons.mp hmem with rfl | hmem
    · exact ⟨part, hpart⟩
    · exact ih hothers hmem

/-- A script with a step that cannot be written has a fault. -/
theorem exists_render_eq_error {steps : List Step} {step : Step} (hmem : step ∈ steps)
    (h : ¬ Writable naming step.action) : ∃ e, render naming steps = .error e := by
  cases hrender : render naming steps with
  | error e => exact ⟨e, rfl⟩
  | ok script =>
    obtain ⟨lines, hlines, -⟩ := map_eq_ok_iff.mp hrender
    exact absurd (writable_of_linesAfter hlines hmem) h

end Script

/-! ### Realizations -/

namespace Realization

variable {answer : Answers} {spec : Specification}

/-- What comes out of a list comes from an element of it. -/
theorem exists_of_mem_mapM {α β : Type} {f : α → Option β} {xs : List α} {ys : List β}
    (h : xs.mapM f = some ys) {y : β} (hy : y ∈ ys) : ∃ x ∈ xs, f x = some y := by
  rw [mapM_eq_some_iff] at h
  induction h with
  | nil => cases hy
  | @cons x y' xs ys hx _ ih =>
    rcases List.mem_cons.mp hy with rfl | hy
    · exact ⟨x, List.mem_cons_self, hx⟩
    · obtain ⟨x', hx', heq⟩ := ih hy
      exact ⟨x', List.mem_cons_of_mem _ hx', heq⟩

/-- Every step of a realization does what a declaration does by itself. -/
theorem exists_ownAction_of_mem_steps {r : Realization} (h : Fresh.realize answer spec = .ok r)
    {step : Step} (hstep : step ∈ r.steps) : ∃ d, ownAction answer d = some step.action := by
  obtain ⟨order, -, steps, hsteps, heq⟩ := exists_steps_of_realize h
  rw [heq] at hstep
  obtain ⟨i, -, hi⟩ := List.mem_flatMap.mp hstep
  obtain ⟨d, -, hd⟩ := exists_of_mem_mapM (hsteps i) hi
  exact ⟨d, (ownStep_eq_some_iff.mp hd).1⟩

/-- An action that comes from a value and not from a definition can be written. -/
theorem writable_of_ownAction (naming : Script.Naming) {d : Declaration} {a : Action}
    (h : ownAction answer d = some a) (ha : a.definition? = none) : Script.Writable naming a := by
  cases d with
  | base position reference | dep position reference =>
    obtain ⟨_, -, rfl⟩ := Option.map_eq_some_iff.mp h
    cases ha
  | instruction position keyword value =>
    exact keyword.writable_of_check naming (toOption_eq_some_iff.mp h)
  | block position keyword entries =>
    exact keyword.writable_of_check naming (toOption_eq_some_iff.mp h)
  | step position name after body => cases h

/-- **Only definitions keep a script from being written.** Over every library, if the script of a
    realization cannot be written then the first step with a defective definition is to blame: the
    step is a base image or a dependency, and the error stands at its position and names a defect of
    its definition.  All other steps can be written; and every defect keeps the script from being
    written. -/
theorem render_fails_iff_defect {σ : Type} {l : Library σ} {s : σ} {r : Realization}
    (hr : (spec.realize l s).1 = .ok r) :
    (∀ e, Script.render l.canonical r.steps = .error e → ∃ before step after,
        r.steps = before ++ step :: after ∧
        (∀ x ∈ before, ∀ fault, ¬ Script.Defect l.canonical x.action fault) ∧
        step.action.definition? ≠ none ∧ e.position = step.position ∧
        Script.Defect l.canonical step.action e.fault) ∧
      (∀ step ∈ r.steps, step.action.definition? = none →
        Script.Writable l.canonical step.action) ∧
      ∀ step ∈ r.steps, ∀ fault, Script.Defect l.canonical step.action fault →
        ∃ e, Script.render l.canonical r.steps = .error e := by
  obtain ⟨answer, hanswer⟩ := exists_fresh_eq_realize l spec s
  rw [hanswer] at hr
  have hwritable : ∀ step ∈ r.steps, step.action.definition? = none →
      Script.Writable l.canonical step.action := by
    intro step hstep hnone
    obtain ⟨d, hd⟩ := exists_ownAction_of_mem_steps hr hstep
    exact writable_of_ownAction l.canonical hd hnone
  refine ⟨fun e he => ?_, hwritable, fun step hstep fault hdefect => ?_⟩
  · obtain ⟨before, step, after, hsteps, hbefore, hposition, hfault⟩ :=
      Script.render_eq_error_iff.mp he
    -- an action without a definition can be written, so it is not to blame
    have hdefinition : step.action.definition? ≠ none := by
      intro hnone
      obtain ⟨lines, hlines⟩ := hwritable step (by simp [hsteps]) hnone
      rw [hfault] at hlines
      cases hlines
    refine ⟨before, step, after, hsteps, fun x hx fault hdefect => ?_, hdefinition, hposition,
      Script.defect_of_actionLines hdefinition hfault⟩
    exact hdefect.not_writable (hbefore x hx)
  · exact Script.exists_render_eq_error hstep hdefect.not_writable

/-- A tool whose installation is blank. -/
def blankTool : Definition := ⟨"node", "20.1.0", sampleDigest, KeyMap.empty.insert "install" " \n"⟩

/-- A catalog with a system and that tool. -/
def blankCatalog : Catalog :=
  .ofDefinitions [⟨"debian", "12", sampleDigest, .empty⟩, blankTool]

/-- The specification of the sample over that catalog. -/
def blankRealization : Realization :=
  ⟨[⟨⟨1, 1⟩, none, .base ⟨"debian", "12", sampleDigest, .empty⟩⟩,
    ⟨⟨6, 3⟩, some "tools", .dep blankTool⟩,
    ⟨⟨7, 3⟩, some "tools", .env [("CC", "gcc")]⟩,
    ⟨⟨3, 3⟩, some "serve", .expose 80⟩]⟩

/-- The steps of the sample over that catalog. -/
theorem realize_blankCatalog :
    (sampleSpecification.realize Catalog.library blankCatalog).1 = .ok blankRealization := by
  rw [Specification.realize, realizing, orderOf_sampleSpecification]
  with_unfolding_all rfl

/-- The script of the sample over that catalog cannot be written. -/
theorem render_fails_of_blankTool :
    Script.Defect Catalog.library.canonical (.dep blankTool) (.emptyInstall "node") ∧
      ∃ e, Script.render Catalog.library.canonical blankRealization.steps = .error e := by
  have htemplate : blankTool.installTemplate = some " \n" := by with_unfolding_all rfl
  have hblank : Text.allBlank (Script.installCommand " \n" blankTool) = true := by
    with_unfolding_all rfl
  have hdefect : Script.Defect Catalog.library.canonical (.dep blankTool)
      (.emptyInstall blankTool.name) :=
    .install htemplate (Script.installs_iff.mpr rfl) (List.all_eq_true.mp hblank)
  refine ⟨hdefect, ?_⟩
  exact (render_fails_iff_defect realize_blankCatalog).2.2 ⟨⟨6, 3⟩, some "tools", .dep blankTool⟩
    (by simp [blankRealization]) _ hdefect

end Realization

end ImageSpec

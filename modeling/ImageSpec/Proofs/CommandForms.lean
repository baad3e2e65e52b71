import ImageSpec.Proofs.Continuation
import ImageSpec.Proofs.Defects
import ImageSpec.Proofs.JsonText

namespace ImageSpec

open Realization

/-!
# Commands for the shell and lists of arguments

A command is given as a line for the shell or as a list of arguments, and a script tells the two
apart by what follows the instruction: a list is written as a JSON array, a line as it is.  A line
that is itself such an array comes out as the list would.

* `Script.Spells` — a line that is the JSON array of some arguments.
* `Script.shellContinued_eq_iff` — which commands come out as a given text of one line.
* `Script.shellContinued_eq_execForm_iff` — those that come out as a list of arguments.
* `Script.exists_linesAfter_around` — steps around one of which the action is left open.
* `Script.render_shell_eq_render_exec_iff` — scripts with a line in one and a list in the other.
* `Script.shell_array_renders_as_exec` — a line and a list with the same script.

Among themselves lists of arguments are told apart by their lines, since a JSON array is read back
whatever the arguments hold (`Script.exec_commands_read_back`).
-/

/-! ### Texts that are not cut -/

namespace Text

/-- A text of one segment has no separator, and the segment is the text. -/
theorem not_mem_of_splitAt_eq_singleton {sep : Char} {cs segment : List Char}
    (h : splitAt sep cs = [segment]) : sep ∉ cs ∧ segment = cs := by
  have hsep : sep ∉ cs := by
    intro hmem
    obtain ⟨front, rest, rfl, hfront⟩ := List.eq_append_cons_of_mem hmem
    rw [splitAt_append hfront, List.cons.injEq] at h
    exact (Script.splitAt_ne_nil_and_not_mem sep rest).1 h.2
  rw [splitAt_of_not_mem hsep, List.singleton_inj] at h
  exact ⟨hsep, h.symm⟩

/-- What is left without the blanks at the end is a given text that ends in no blank if and only if
    there were only blanks behind this text. -/
theorem trimEnd_eq_concat_iff {cs start : List Char} {c : Char} (hc : isBlank c = false) :
    trimEnd cs = start ++ [c] ↔ ∃ gap, allBlank gap = true ∧ cs = start ++ [c] ++ gap := by
  constructor
  · intro h
    obtain ⟨gap, hgap, hcs⟩ := exists_trimEnd_append cs
    exact ⟨gap, hgap, by rw [← h, hcs]⟩
  · rintro ⟨gap, hgap, rfl⟩
    rw [trimEnd_append_of_allBlank _ hgap, trimEnd_concat_of_not_blank _ hc]

end Text

namespace Script

/-! ### Lines that are lists -/

/-- A command spells out a list of arguments: without the blanks around it, it is the JSON array of
    the arguments, or this array and a backslash that ends the line, with blanks in between. -/
def Spells (command : List Char) (arguments : List String) : Prop :=
  Text.trim command = execForm arguments ∨
    ∃ gap, Text.allBlank gap = true ∧ '\n' ∉ gap ∧
      Text.trim command = execForm arguments ++ gap ++ ['\\']

/-- **Commands on one line.** A command comes out as a text without line feeds if and only if it has
    one line, which comes out as this text. -/
theorem shellContinued_eq_iff {command text : List Char} (htext : '\n' ∉ text) :
    shellContinued command = text ↔
      '\n' ∉ Text.trim command ∧ bareLine (Text.trim command) = text := by
  constructor
  · rintro rfl
    have hne := (splitAt_ne_nil_and_not_mem '\n' (Text.trim command)).1
    obtain ⟨front, last, hlines⟩ := (List.eq_nil_or_concat' _).resolve_left hne
    -- each line of the command is a physical line of the text, which has only one
    have hphysical := splitAt_shellContinued hlines
    rw [Text.splitAt_of_not_mem htext] at hphysical
    have hfront : front = [] := by
      have hlength := congrArg List.length hphysical
      simpa using hlength
    subst hfront
    obtain ⟨hfeed, hlast⟩ := Text.not_mem_of_splitAt_eq_singleton hlines
    have hbare := List.singleton_inj.mp hphysical
    rw [hlast] at hbare
    exact ⟨hfeed, hbare.symm⟩
  · rintro ⟨hfeed, rfl⟩
    simp [shellContinued, Text.splitAt_of_not_mem hfeed, Text.joinWith]

/-- **Lines.** A line that ends in no blank comes out as a text that ends in no blank and no
    backslash if and only if it is this text, or has only blanks and a backslash behind it. -/
theorem bareLine_eq_concat_iff {line start : List Char} {c d : Char}
    (hline : line.getLast? = some d) (hd : Text.isBlank d = false) (hc : Text.isBlank c = false)
    (hslash : c ≠ '\\') :
    bareLine line = start ++ [c] ↔
      line = start ++ [c] ∨
        ∃ gap, Text.allBlank gap = true ∧ line = start ++ [c] ++ gap ++ ['\\'] := by
  obtain ⟨cs, rfl⟩ := List.getLast?_eq_some_iff.mp hline
  rw [bareLine_concat cs hd]
  by_cases hend : d = '\\'
  · subst hend
    have hother : cs ++ ['\\'] ≠ start ++ [c] := by
      intro heq
      exact hslash (List.singleton_inj.mp (List.append_inj' heq rfl).2).symm
    simp only [if_true, Text.trimEnd_eq_concat_iff hc, List.append_left_inj, hother, false_or]
  · have hother : ∀ gap, cs ++ [d] ≠ start ++ [c] ++ gap ++ ['\\'] := by
      intro gap heq
      exact hend (List.singleton_inj.mp (List.append_inj' heq rfl).2)
    simp only [if_neg hend, hother, and_false, exists_false, or_false]

/-- A list of arguments ends in a bracket. -/
theorem execForm_eq_concat (arguments : List String) :
    ∃ start, execForm arguments = start ++ [']'] :=
  ⟨_, rfl⟩

/-- **Commands that come out as lists.** They are those that spell out the list. -/
theorem shellContinued_eq_execForm_iff {command : List Char} (h : Text.allBlank command = false)
    (arguments : List String) :
    shellContinued command = execForm arguments ↔ Spells command arguments := by
  obtain ⟨d, hlast, hd⟩ := Text.exists_getLast?_trim h
  have hfeed := lineFeed_not_mem_execForm arguments
  rw [shellContinued_eq_iff hfeed, Spells]
  obtain ⟨start, hstart⟩ := execForm_eq_concat arguments
  rw [hstart] at hfeed ⊢
  rw [bareLine_eq_concat_iff hlast hd (by decide) (by decide)]
  constructor
  · rintro ⟨hone, harray | ⟨gap, hgap, harray⟩⟩
    · exact .inl harray
    · rw [harray] at hone
      exact .inr ⟨gap, hgap, fun hmem => hone (by simp [hmem]), harray⟩
  · rintro (harray | ⟨gap, hgap, hone, harray⟩)
    · exact ⟨harray ▸ hfeed, .inl harray⟩
    · refine ⟨?_, .inr ⟨gap, hgap, harray⟩⟩
      rw [harray, List.mem_append, List.mem_append, not_or, not_or]
      exact ⟨⟨hfeed, hone⟩, by decide⟩

/-! ### Checked commands -/

/-- **Instructions.** A keyword that takes both a text and a list takes commands, and the line for
    the shell and the list of arguments are written behind the same instruction. -/
theorem exists_instruction_of_check {k : Keyword} {command : String} {arguments : List String}
    {a b : Action} (ha : k.check (.text command) = .ok a) (hb : k.check (.list arguments) = .ok b) :
    isBlankText command = false ∧ ∃ instruction, ∀ naming,
      actionLines naming a = .ok [line instruction (shellContinued command.toList)] ∧
        actionLines naming b = .ok [line instruction (execForm arguments)] := by
  cases k with
  | run | cmd | entrypoint =>
    obtain ⟨_, hshell, rfl⟩ := map_eq_ok_iff.mp ha
    obtain ⟨_, hexec, rfl⟩ := map_eq_ok_iff.mp hb
    obtain ⟨hblank, rfl⟩ := shell_of_checkCommand hshell
    obtain ⟨hempty, rfl⟩ := exec_of_checkCommand hexec
    exact ⟨hblank, _, fun naming => ⟨congrArg (Except.map ([·])) (commandLine_shell _ hblank),
      congrArg (Except.map ([·])) (commandLine_exec _ hempty)⟩⟩
  | workdir | user | expose => cases hb
  | copy => cases ha

/-! ### Scripts -/

variable {naming : Naming}

/-- Steps that can be written one by one can be written together. -/
theorem exists_linesAfter (previous : Option String) {steps : List Step}
    (h : ∀ step ∈ steps, Writable naming step.action) :
    ∃ lines, linesAfter naming previous steps = .ok lines := by
  cases hlines : linesAfter naming previous steps with
  | ok lines => exact ⟨lines, rfl⟩
  | error e =>
    obtain ⟨before, step, after, rfl, -, -, hfault⟩ := linesAfter_eq_error_iff.mp hlines
    obtain ⟨part, hpart⟩ := h step (by simp)
    rw [hfault] at hpart
    cases hpart

/-- **One step among others.** Whatever the step does, the lines before and behind its own are the
    same. -/
theorem exists_linesAfter_around {before after : List Step} (position : Position)
    (group previous : Option String) (hbefore : ∀ step ∈ before, Writable naming step.action)
    (hafter : ∀ step ∈ after, Writable naming step.action) :
    ∃ front back, ∀ a part, actionLines naming a = .ok part →
      linesAfter naming previous (before ++ ⟨position, group, a⟩ :: after)
        = .ok (front ++ part ++ back) := by
  induction before generalizing previous with
  | nil =>
    obtain ⟨back, hback⟩ := exists_linesAfter group hafter
    refine ⟨groupComment previous group, back, ?_⟩
    intro a part hpart
    exact linesAfter_cons_eq_ok_iff.mpr ⟨part, back, hpart, hback, rfl⟩
  | cons step before ih =>
    obtain ⟨⟨own, hown⟩, hrest⟩ := List.forall_mem_cons.mp hbefore
    obtain ⟨front, back, haround⟩ := ih step.group hrest
    refine ⟨groupComment previous step.group ++ own ++ front, back, ?_⟩
    intro a part hpart
    exact linesAfter_cons_eq_ok_iff.mpr ⟨own, _, hown, haround a part hpart, by simp⟩

/-- A line between others is determined by the text of all. -/
theorem text_around_inj {front back : List Line} {l m : Line} :
    text (front ++ [l] ++ back) = text (front ++ [m] ++ back) ↔ l = m := by
  constructor
  · intro h
    simpa [text, String.ofList_inj] using h
  · rintro rfl
    rfl

/-- **Lines and lists.** Let a keyword accept both a line for the shell and a list of arguments, and
    let the steps around the command be such as can be written.  The script with the line and the
    script with the list can both be written, and they are the same if and only if the line spells
    out the list. -/
theorem render_shell_eq_render_exec_iff {k : Keyword} {command : String}
    {arguments : List String} {a b : Action} (ha : k.check (.text command) = .ok a)
    (hb : k.check (.list arguments) = .ok b) {before after : List Step}
    (hbefore : ∀ step ∈ before, Writable naming step.action)
    (hafter : ∀ step ∈ after, Writable naming step.action) (position : Position)
    (group : Option String) :
    ∃ shell exec, render naming (before ++ ⟨position, group, a⟩ :: after) = .ok shell ∧
      render naming (before ++ ⟨position, group, b⟩ :: after) = .ok exec ∧
      (shell = exec ↔ Spells command.toList arguments) := by
  obtain ⟨hblank, instruction, hlines⟩ := exists_instruction_of_check ha hb
  obtain ⟨hshell, hexec⟩ := hlines naming
  obtain ⟨front, back, haround⟩ := exists_linesAfter_around position group none hbefore hafter
  refine ⟨_, _, map_eq_ok_iff.mpr ⟨_, haround a _ hshell, rfl⟩,
    map_eq_ok_iff.mpr ⟨_, haround b _ hexec, rfl⟩, ?_⟩
  rw [text_around_inj, line, line, List.append_right_inj]
  exact shellContinued_eq_execForm_iff hblank arguments

/-- An array with blanks between the brackets spells out no list, and its script is another one. -/
theorem render_spaced_array_ne :
    ∃ shell exec,
      render Definition.canonical
          [⟨⟨1, 1⟩, none, .workdir "/src"⟩, ⟨⟨2, 1⟩, none, .cmd (.shell "[ \"make\" ]")⟩]
        = .ok shell ∧
      render Definition.canonical
          [⟨⟨1, 1⟩, none, .workdir "/src"⟩, ⟨⟨2, 1⟩, none, .cmd (.exec ["make"])⟩]
        = .ok exec ∧ shell ≠ exec := by
  have hshell : Keyword.cmd.check (.text "[ \"make\" ]") = .ok (.cmd (.shell "[ \"make\" ]")) := rfl
  have hexec : Keyword.cmd.check (.list ["make"]) = .ok (.cmd (.exec ["make"])) := rfl
  have hbefore : ∀ step ∈ [(⟨⟨1, 1⟩, none, .workdir "/src"⟩ : Step)],
      Writable Definition.canonical step.action :=
    List.forall_mem_singleton.mpr ⟨_, rfl⟩
  obtain ⟨shell, exec, hfirst, hsecond, hiff⟩ := render_shell_eq_render_exec_iff hshell hexec
    hbefore (List.forall_mem_nil _) ⟨2, 1⟩ none
  refine ⟨shell, exec, hfirst, hsecond, fun heq => ?_⟩
  rcases hiff.mp heq with harray | ⟨gap, -, -, harray⟩
  · exact absurd harray (by decide)
  · have hlast := congrArg List.getLast? harray
    rw [List.getLast?_concat] at hlast
    exact absurd hlast (by decide)

/-- **A line that is read as a list.** The line for the shell and the list of arguments are both
    accepted, and nothing in their scripts tells them apart. -/
theorem shell_array_renders_as_exec :
    Keyword.run.check (.text "[\"make\"]") = .ok (.run (.shell "[\"make\"]")) ∧
      Keyword.run.check (.list ["make"]) = .ok (.run (.exec ["make"])) ∧
      render Definition.canonical [⟨⟨1, 1⟩, none, .run (.shell "[\"make\"]")⟩]
        = .ok "RUN [\"make\"]\n" ∧
      render Definition.canonical [⟨⟨1, 1⟩, none, .run (.exec ["make"])⟩]
        = .ok "RUN [\"make\"]\n" := by
  refine ⟨rfl, rfl, ?_, ?_⟩
  · with_unfolding_all rfl
  · with_unfolding_all rfl

/-! ### Lists among themselves -/

/-- An instruction ends at the first space of its line. -/
theorem line_inj {instruction instruction' : String} {arguments arguments' : List Char}
    (hspace : ' ' ∉ instruction.toList) (hspace' : ' ' ∉ instruction'.toList)
    (h : line instruction arguments = line instruction' arguments') :
    instruction = instruction' ∧ arguments = arguments' := by
  have hcut : Text.cutAt ' ' (line instruction arguments)
      = some (instruction.toList, arguments) :=
    Text.cutAt_eq_some_iff.mpr ⟨by simp [line], hspace⟩
  have hcut' : Text.cutAt ' ' (line instruction' arguments')
      = some (instruction'.toList, arguments') :=
    Text.cutAt_eq_some_iff.mpr ⟨by simp [line], hspace'⟩
  rw [h, hcut', Option.some.injEq, Prod.mk.injEq, String.toList_inj] at hcut
  exact ⟨hcut.1.symm, hcut.2.symm⟩

/-- The instruction of an action that runs a command. -/
def commandWord : Action → String
  | .run _ => "RUN"
  | .cmd _ => "CMD"
  | .entrypoint _ => "ENTRYPOINT"
  | _ => ""

/-- The characters of an instruction are above the space. -/
theorem space_lt_of_mem_commandWord {a : Action} {c : Char} (h : c ∈ (commandWord a).toList) :
    0x20 < c.toNat := by
  have hall : (commandWord a).toList.all (fun c => decide (0x20 < c.toNat)) = true := by
    cases a <;> simp only [commandWord] <;> decide
  exact of_decide_eq_true (List.all_eq_true.mp hall c h)

/-- No instruction has a space. -/
theorem space_not_mem_commandWord (a : Action) : ' ' ∉ (commandWord a).toList :=
  fun h => absurd (space_lt_of_mem_commandWord h) (by decide)

/-- An action that runs a command is written on the line of its instruction. -/
theorem actionLines_of_command? {a : Action} {command : Command} (h : a.command? = some command)
    (naming : Naming) :
    actionLines naming a = (commandLine (commandWord a) command).map ([·]) := by
  cases a with
  | run _ | cmd _ | entrypoint _ =>
    cases h
    rfl
  | _ => cases h

/-- An action that runs a command is determined by its instruction and the command. -/
theorem eq_of_commandWord_eq {a b : Action} {command : Command} (ha : a.command? = some command)
    (hb : b.command? = some command) (hword : commandWord a = commandWord b) : a = b := by
  cases a with
  | run _ | cmd _ | entrypoint _ =>
    cases ha
    cases b with
    | run _ | cmd _ | entrypoint _ =>
      cases hb
      simp_all [commandWord]
    | _ => cases hb
  | _ => cases ha

/-- A list of arguments is written as an array behind its instruction. -/
theorem line_of_exec {naming : Naming} {a : Action} {arguments : List String} {lines : List Line}
    (ha : a.command? = some (.exec arguments)) (h : actionLines naming a = .ok lines) :
    lines = [line (commandWord a) (execForm arguments)] := by
  rw [actionLines_of_command? ha, map_eq_ok_iff] at h
  obtain ⟨l, hl, rfl⟩ := h
  unfold commandLine at hl
  dsimp only at hl
  split at hl
  · cases hl
  · cases hl
    rfl

/-- **Lists of arguments.** A JSON array of arguments has no control characters and is read as the
    list of the arguments.  So a command that is given as a list, and not an empty one, is written on
    one line without control characters, and no other such command is written on the same line. -/
theorem exec_commands_read_back :
    (∀ arguments, (∀ c ∈ execForm arguments, 0x20 ≤ c.toNat) ∧
      Json.ofChars? (execForm arguments)
        = some (.array (arguments.map fun argument => .string (some argument)))) ∧
    ∀ (naming : Naming) (a : Action) (arguments : List String),
      a.command? = some (.exec arguments) → arguments ≠ [] →
      ∃ l, actionLines naming a = .ok [l] ∧ (∀ c ∈ l, 0x20 ≤ c.toNat) ∧
        ∀ (naming' : Naming) (b : Action) (arguments' : List String),
          b.command? = some (.exec arguments') → actionLines naming' b = .ok [l] → b = a := by
  refine ⟨fun arguments => ⟨fun c => space_le_of_mem_execForm, ofChars?_execForm arguments⟩, ?_⟩
  intro naming a arguments ha hne
  have hfilled : arguments.isEmpty = false := by simpa using hne
  refine ⟨line (commandWord a) (execForm arguments), ?_, ?_, ?_⟩
  · rw [actionLines_of_command? ha, commandLine_exec _ hfilled]
    rfl
  · intro c hc
    simp only [line, List.mem_append, List.mem_singleton] at hc
    rcases hc with (hc | rfl) | hc
    · exact Nat.le_of_lt (space_lt_of_mem_commandWord hc)
    · decide
    · exact space_le_of_mem_execForm hc
  · intro naming' b arguments' hb hlines
    -- the first space divides the instruction from the array
    obtain ⟨hword, hform⟩ := line_inj (space_not_mem_commandWord a) (space_not_mem_commandWord b)
      (List.singleton_inj.mp (line_of_exec hb hlines))
    obtain rfl := execForm_injective hform
    exact eq_of_commandWord_eq hb ha hword.symm

/-- Arguments with brackets, commas, quotes and control characters in them. -/
def knottedArguments : List String := ["sh", "a\nb\x00", "\"],[\"", "\\u000a", "é"]

/-- Arguments with quotes, blanks and line breaks are read back. -/
theorem knottedArguments_read_back :
    knottedArguments ≠ [] ∧ ∃ l, actionLines Definition.canonical (.cmd (.exec knottedArguments))
        = .ok [l] ∧ (∀ c ∈ l, 0x20 ≤ c.toNat) ∧
      ∀ naming arguments, actionLines naming (.cmd (.exec arguments)) = .ok [l] →
        arguments = knottedArguments := by
  have hne : knottedArguments ≠ [] := by decide
  obtain ⟨l, hl, hvisible, hunique⟩ :=
    exec_commands_read_back.2 Definition.canonical (.cmd (.exec knottedArguments)) _ rfl hne
  refine ⟨hne, l, hl, hvisible, fun naming arguments hlines => ?_⟩
  cases hunique naming (.cmd (.exec arguments)) arguments rfl hlines
  rfl

end Script

end ImageSpec

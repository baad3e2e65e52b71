import ImageSpec.Proofs.Composition
import ImageSpec.Proofs.OneLine

namespace ImageSpec.Script

open Realization

/-!
# No injected instructions

An image builder reads a script by physical lines: a line feed ends a line, and a line that ends in
` \` goes on in the next.  Texts of a specification and of a library stand in these lines, and a
line feed in one of them could start an instruction of its own.

* `Opening`, `openings` — the beginnings of lines that steps prescribe.
* `Block` — the physical lines of one instruction: the first is as prescribed, and each other one
  continues the one before.
* `forall₂_written_actionLines` — the lines of an action are as it prescribes.
* `exists_blocks_of_render` — a script is made of the blocks that its steps prescribe and of nothing
  else.
-/

/-! ### What steps prescribe -/

/-- The beginning of a line that a step prescribes: the comment with the name of its group, or an
    instruction with the first characters of its arguments. -/
inductive Opening where
  | comment (name : String)
  | instruction (name : String) (arguments : List Char)
deriving DecidableEq

/-- A line is opened as prescribed. -/
def Opening.Opens : Opening → List Char → Prop
  | comment name, opened => opened = "# step ".toList ++ name.toList
  | instruction name arguments, opened => line name arguments <+: opened

/-- The line that brings a dependency in. -/
def openingOfInstall (d : Definition) : Opening :=
  match d.installTemplate with
  | some _ => .instruction "RUN" []
  | none => .instruction "COPY" "--from=".toList

/-- The lines that an action prescribes. -/
def openingsOfAction : Action → List Opening
  | .base _ => [.instruction "FROM" []]
  | .dep d =>
    openingOfInstall d :: d.exports.map fun (key, _) => .instruction "ENV" (key.toList ++ ['='])
  | .run _ => [.instruction "RUN" []]
  | .cmd _ => [.instruction "CMD" []]
  | .entrypoint _ => [.instruction "ENTRYPOINT" []]
  | .env pairs => pairs.map fun (key, _) => .instruction "ENV" (key.toList ++ ['='])
  | .label pairs => pairs.map fun (key, _) =>
    .instruction "LABEL" (doubleQuoted key.toList ++ ['='])
  | .workdir _ => [.instruction "WORKDIR" []]
  | .user _ => [.instruction "USER" []]
  | .expose _ => [.instruction "EXPOSE" []]
  | .copy _ _ => [.instruction "COPY" []]

/-- The comment for the first step of a group; `seen` are the groups of the steps before. -/
def openingsOfGroup (seen : List String) : Option String → List Opening
  | some name => if name ∈ seen then [] else [.comment name]
  | none => []

/-- The groups of the steps so far and of one more. -/
def notedGroups (seen : List String) : Option String → List String
  | some name => seen.insert name
  | none => seen

/-- The lines that steps prescribe, in order; `seen` are the groups of the steps before. -/
def openings (seen : List String) : List Step → List Opening
  | [] => []
  | step :: rest =>
    openingsOfGroup seen step.group ++ openingsOfAction step.action
      ++ openings (notedGroups seen step.group) rest

/-! ### Instructions -/

/-- The instructions that stand in scripts. -/
def instructions : List String :=
  ["FROM", "RUN", "COPY", "ENV", "LABEL", "CMD", "ENTRYPOINT", "WORKDIR", "USER", "EXPOSE"]

/-- What an action prescribes are instructions, and only a base image prescribes a `FROM` line. -/
theorem exists_instruction_of_mem_openingsOfAction (a : Action) :
    ∀ o ∈ openingsOfAction a, ∃ name ∈ instructions, ∃ arguments,
      o = .instruction name arguments ∧ (name = "FROM" → a.base? ≠ none) := by
  have hname : ∀ name ∈ instructions, name ≠ "FROM" → ∀ arguments, ∃ name' ∈ instructions,
      ∃ arguments', Opening.instruction name arguments = .instruction name' arguments' ∧
        (name' = "FROM" → a.base? ≠ none) :=
    fun name hmem hne arguments => ⟨name, hmem, arguments, rfl, fun heq => absurd heq hne⟩
  cases a with
  | base d =>
    exact List.forall_mem_singleton.mpr
      ⟨"FROM", by decide, [], rfl, fun _ => Option.some_ne_none _⟩
  | dep d =>
    refine List.forall_mem_cons.mpr ⟨?_, List.forall_mem_map.mpr fun pair _ => ?_⟩
    · unfold openingOfInstall
      split <;> exact hname _ (by decide) (by decide) _
    · exact hname "ENV" (by decide) (by decide) _
  | env pairs | label pairs =>
    exact List.forall_mem_map.mpr fun pair _ => hname _ (by decide) (by decide) _
  | _ => exact List.forall_mem_singleton.mpr (hname _ (by decide) (by decide) _)

/-- The first character of lines that are opened as prescribed. -/
def Opening.first? : Opening → Option Char
  | comment _ => some '#'
  | instruction name _ => name.toList.head?

/-- A line that is opened as prescribed starts with the first character of that. -/
theorem Opening.Opens.head?_eq {o : Opening} {opened : List Char} {c : Char} (h : o.Opens opened)
    (hc : o.first? = some c) : opened.head? = some c := by
  cases o with
  | comment name =>
    cases hc
    rw [h]
    rfl
  | instruction name arguments =>
    obtain ⟨rest, rfl⟩ := h
    obtain ⟨cs, hcs⟩ := List.head?_eq_some_iff.mp hc
    simp [line, hcs]

/-! ### Physical lines -/

/-- The physical lines of one instruction or comment. -/
structure Block (o : Opening) (lines : List (List Char)) : Prop where
  opened : ∃ first, lines.head? = some first ∧ o.Opens first
  continued : ∀ other ∈ lines.dropLast, [' ', '\\'] <:+ other

/-- A line of a script comes out as one block of physical lines. -/
def Written (o : Opening) (l : Line) : Prop :=
  ∃ block, Block o block ∧ (∀ other ∈ block, '\n' ∉ other) ∧
    l ++ ['\n'] = block.flatMap (· ++ ['\n'])

/-- A line without a line feed is a block of its own. -/
theorem written_of_opens {o : Opening} {l : Line} (ho : o.Opens l) (hl : '\n' ∉ l) :
    Written o l :=
  ⟨[l], ⟨⟨l, rfl, ho⟩, by simp⟩, by simpa using hl, by simp⟩

/-- An instruction with all its arguments on one line. -/
theorem written_line {name : String} {start arguments : List Char} (hname : '\n' ∉ name.toList)
    (hstart : start <+: arguments) (harguments : '\n' ∉ arguments) :
    Written (.instruction name start) (line name arguments) := by
  apply written_of_opens
  · obtain ⟨rest, rfl⟩ := hstart
    exact ⟨rest, by simp [line]⟩
  · simp [line, hname, harguments]

/-! ### Continued lines -/

/-- The physical lines of pieces: each but the last gets a continuation mark. -/
def continuedLines : List (List Char) → List (List Char)
  | [] => []
  | [piece] => [piece]
  | piece :: next :: rest => (piece ++ [' ', '\\']) :: continuedLines (next :: rest)

/-- Pieces that are joined with continuation marks are continued lines. -/
theorem joinWith_eq_flatMap_continuedLines {pieces : List (List Char)} (h : pieces ≠ []) :
    Text.joinWith [' ', '\\', '\n'] pieces ++ ['\n']
      = (continuedLines pieces).flatMap (· ++ ['\n']) := by
  fun_induction continuedLines pieces with
  | case1 => exact absurd rfl h
  | case2 piece => simp [Text.joinWith]
  | case3 piece next rest ih =>
    have htail := ih (List.cons_ne_nil _ _)
    unfold Text.joinWith at htail ⊢
    rw [List.intercalate_cons_cons, List.flatMap_cons, ← htail]
    simp

/-- Every continued line but the last ends in a mark. -/
theorem suffix_of_mem_dropLast_continuedLines {pieces : List (List Char)} :
    ∀ other ∈ (continuedLines pieces).dropLast, [' ', '\\'] <:+ other := by
  fun_induction continuedLines pieces with
  | case1 => simp
  | case2 => simp
  | case3 piece next rest ih =>
    intro other hother
    cases hlines : continuedLines (next :: rest) with
    | nil => simp [hlines] at hother
    | cons first others =>
      rw [hlines, List.dropLast_cons_cons, ← hlines] at hother
      rcases List.mem_cons.mp hother with rfl | hother
      · exact List.suffix_append _ _
      · exact ih other hother

/-- Pieces without line feeds make lines without line feeds. -/
theorem lineFeed_not_mem_continuedLines {pieces : List (List Char)}
    (h : ∀ piece ∈ pieces, '\n' ∉ piece) : ∀ other ∈ continuedLines pieces, '\n' ∉ other := by
  fun_induction continuedLines pieces with
  | case1 => simp
  | case2 => exact h
  | case3 piece next rest ih =>
    obtain ⟨hpiece, hrest⟩ := List.forall_mem_cons.mp h
    exact List.forall_mem_cons.mpr ⟨by simp [hpiece], ih hrest⟩

/-- The first continued line starts with the first piece. -/
theorem head?_continuedLines (piece : List Char) (rest : List (List Char)) :
    ∃ first, (continuedLines (piece :: rest)).head? = some first ∧ piece <+: first := by
  cases rest with
  | nil => exact ⟨piece, rfl, List.prefix_refl _⟩
  | cons next rest => exact ⟨piece ++ [' ', '\\'], rfl, List.prefix_append _ _⟩

/-! ### Commands of several lines -/

/-- No segment has the character at which the text was cut, and there is at least one. -/
theorem splitAt_ne_nil_and_not_mem (sep : Char) (cs : List Char) :
    Text.splitAt sep cs ≠ [] ∧ ∀ segment ∈ Text.splitAt sep cs, sep ∉ segment := by
  fun_induction Text.splitAt sep cs with
  | case1 => simp
  | case2 cs ih => exact ⟨List.cons_ne_nil _ _, List.forall_mem_cons.mpr ⟨by simp, ih.2⟩⟩
  | case3 c cs hc hnil ih => exact absurd hnil ih.1
  | case4 c cs hc segment segments hsegments ih =>
    rw [hsegments] at ih
    obtain ⟨hsegment, hrest⟩ := List.forall_mem_cons.mp ih.2
    refine ⟨List.cons_ne_nil _ _, List.forall_mem_cons.mpr ⟨?_, hrest⟩⟩
    exact List.not_mem_cons_of_ne_of_not_mem (Ne.symm hc) hsegment

theorem trimEnd_subset (cs : List Char) : Text.trimEnd cs ⊆ cs := by
  intro c hc
  rw [← List.mem_reverse]
  exact (List.dropWhile_suffix _).subset (List.mem_reverse.mp hc)

/-- Taking the mark off a line adds no characters. -/
theorem bareLine_subset (cs : List Char) : bareLine cs ⊆ cs := by
  unfold bareLine
  dsimp only
  split
  · exact List.Subset.trans (trimEnd_subset _)
      (List.Subset.trans (List.dropLast_subset _) (trimEnd_subset _))
  · exact trimEnd_subset _

/-- A command comes out as one block, over however many lines it goes. -/
theorem written_shellContinued {name : String} (hname : '\n' ∉ name.toList) (command : List Char) :
    Written (.instruction name []) (line name (shellContinued command)) := by
  obtain ⟨hne, hfeeds⟩ := splitAt_ne_nil_and_not_mem '\n' (Text.trim command)
  unfold shellContinued
  cases hsegments : Text.splitAt '\n' (Text.trim command) with
  | nil => exact absurd hsegments hne
  | cons segment segments =>
    rw [hsegments] at hfeeds
    -- the instruction stands in front of the first piece
    let pieces := (line name (bareLine segment)) :: segments.map bareLine
    have hpieces : ∀ piece ∈ pieces, '\n' ∉ piece := by
      obtain ⟨hsegment, hrest⟩ := List.forall_mem_cons.mp hfeeds
      have hfirst : '\n' ∉ bareLine segment := fun hmem => hsegment (bareLine_subset segment hmem)
      refine List.forall_mem_cons.mpr ⟨by simp [line, hname, hfirst], fun piece hpiece => ?_⟩
      obtain ⟨other, hother, rfl⟩ := List.mem_map.mp hpiece
      exact fun hmem => hrest other hother (bareLine_subset other hmem)
    have htext : line name (Text.joinWith [' ', '\\', '\n'] ((segment :: segments).map bareLine))
        = Text.joinWith [' ', '\\', '\n'] pieces := by
      unfold Text.joinWith
      cases segments <;> simp [pieces, line, List.intercalate_cons_cons]
    refine ⟨continuedLines pieces, ⟨?_, suffix_of_mem_dropLast_continuedLines⟩,
      lineFeed_not_mem_continuedLines hpieces, ?_⟩
    · obtain ⟨first, hfirst, hopens⟩ :=
        head?_continuedLines (line name (bareLine segment)) (segments.map bareLine)
      refine ⟨first, hfirst, List.IsPrefix.trans ?_ hopens⟩
      exact ⟨bareLine segment, by simp [line]⟩
    · rw [htext, joinWith_eq_flatMap_continuedLines (List.cons_ne_nil _ _)]

/-! ### Actions -/

/-- A naming whose names are on one line each. -/
def OneLineNames (naming : Naming) : Prop :=
  ∀ d name, naming d = .ok name → '\n' ∉ name.toList

variable {naming : Naming} {answer : Answers}

/-- The name of a definition is on one line where all names are. -/
theorem lineFeed_not_mem_nameOf (hnaming : OneLineNames naming) {d : Definition}
    {name : List Char} (h : nameOf naming d = .ok name) : '\n' ∉ name := by
  unfold nameOf at h
  split at h <;> cases h
  next hname => exact hnaming d _ hname

/-- A command comes out as one block. -/
theorem written_commandLine {name : String} (hname : '\n' ∉ name.toList) {command : Command}
    {l : Line} (h : commandLine name command = .ok l) : Written (.instruction name []) l := by
  unfold commandLine at h
  split at h
  · split at h <;> cases h
    exact written_shellContinued hname _
  · split at h <;> cases h
    exact written_line hname (List.nil_prefix) (lineFeed_not_mem_execForm _)

theorem written_textLine {name value : String} (hname : '\n' ∉ name.toList) {l : Line}
    (h : textLine name value = .ok l) : Written (.instruction name []) l := by
  unfold textLine at h
  split at h <;> cases h
  next hvalue =>
    rw [Bool.not_eq_true, Bool.or_eq_false_iff] at hvalue
    exact written_line hname List.nil_prefix (hasLineBreak_eq_false_iff.mp hvalue.2)

/-- A variable comes out as one block that opens with its name. -/
theorem written_envLine {key value : String} (hkey : '\n' ∉ key.toList)
    (hvalue : '\n' ∉ value.toList) :
    Written (.instruction "ENV" (key.toList ++ ['='])) (envLine key value) := by
  apply written_line (by decide)
  · exact List.prefix_append _ _
  · simp [hkey, lineFeed_not_mem_doubleQuoted hvalue]

/-- A label comes out as one block that opens with its name. -/
theorem written_labelLine {key value : String} (hkey : '\n' ∉ key.toList)
    (hvalue : '\n' ∉ value.toList) :
    Written (.instruction "LABEL" (doubleQuoted key.toList ++ ['='])) (labelLine key value) := by
  apply written_line (by decide)
  · exact List.prefix_append _ _
  · simp [lineFeed_not_mem_doubleQuoted hkey, lineFeed_not_mem_doubleQuoted hvalue]

theorem written_copyLine {sources : List String} {destination : String} {l : Line}
    (h : copyLine sources destination = .ok l) : Written (.instruction "COPY" []) l := by
  unfold copyLine at h
  dsimp only at h
  split at h
  · cases h
  · split at h <;> cases h
    · exact written_line (by decide) List.nil_prefix (lineFeed_not_mem_execForm _)
    · next hpaths =>
      refine written_line (by decide) List.nil_prefix (Text.not_mem_joinWith (by decide) ?_)
      intro segment hsegment
      obtain ⟨path, hpath, rfl⟩ := List.mem_map.mp hsegment
      rw [Bool.not_eq_true, List.any_eq_false] at hpaths
      exact lineFeed_not_mem_of_needsExecForm (by simpa using hpaths path hpath)

/-- The variables of a dependency come out as one block each. -/
theorem forall₂_written_exportLines {name : String} {pairs : List (String × String)}
    {lines : List Line} (h : exportLines name pairs = .ok lines) :
    List.Forall₂ Written (pairs.map fun (key, _) => .instruction "ENV" (key.toList ++ ['=']))
      lines := by
  induction pairs generalizing lines with
  | nil =>
    cases h
    exact .nil
  | cons pair pairs ih =>
    obtain ⟨key, value⟩ := pair
    rw [exportLines] at h
    split at h
    · cases h
    · next hkey =>
      split at h
      · cases h
      · next hvalue =>
        obtain ⟨others, hothers, rfl⟩ := map_eq_ok_iff.mp h
        refine .cons (written_envLine ?_ ?_) (ih hothers)
        · exact not_mem_of_isVariableName rfl (by simpa using hkey)
        · exact lineFeed_not_mem_of_hasAnyBreak (by simpa using hvalue)

/-- A dependency is brought in by one block. -/
theorem written_installLine (hnaming : OneLineNames naming) {d : Definition} {l : Line}
    (h : installLine naming d = .ok l) : Written (openingOfInstall d) l := by
  unfold openingOfInstall
  unfold installLine at h
  cases htemplate : d.installTemplate with
  | some template =>
    rw [htemplate] at h
    dsimp only at h
    split at h <;> cases h
    exact written_shellContinued (by decide) _
  | none =>
    rw [htemplate] at h
    obtain ⟨name, hname, rfl⟩ := map_eq_ok_iff.mp h
    refine written_line (by decide) ?_ ?_
    · exact (List.prefix_append _ _).trans (List.prefix_append _ _)
    · simp [lineFeed_not_mem_nameOf hnaming hname]

/-- A dependency is brought in by one instruction, and then come its variables. -/
theorem forall₂_written_dependencyLines (hnaming : OneLineNames naming) {d : Definition}
    {lines : List Line} (h : dependencyLines naming d = .ok lines) :
    List.Forall₂ Written (openingsOfAction (.dep d)) lines := by
  unfold dependencyLines at h
  split at h
  · cases h
  · next first hfirst =>
    obtain ⟨others, hothers, rfl⟩ := map_eq_ok_iff.mp h
    exact .cons (written_installLine hnaming hfirst) (forall₂_written_exportLines hothers)

/-- **Actions.** The lines of an action are as it prescribes. -/
theorem forall₂_written_actionLines (hnaming : OneLineNames naming) {a : Action}
    (ha : a.OneLinePairs) {lines : List Line} (h : actionLines naming a = .ok lines) :
    List.Forall₂ Written (openingsOfAction a) lines := by
  cases a with
  | base d =>
    obtain ⟨name, hname, rfl⟩ := map_eq_ok_iff.mp h
    have hfeed := lineFeed_not_mem_nameOf hnaming hname
    exact .cons (written_line (by decide) List.nil_prefix hfeed) .nil
  -- a dependency is the only action with lines of several kinds
  | dep d => exact forall₂_written_dependencyLines hnaming h
  | env pairs =>
    rw [actionLines] at h
    split at h <;> cases h
    rw [openingsOfAction, List.forall₂_map_left_iff, List.forall₂_map_right_iff, List.forall₂_same]
    exact fun pair hpair => written_envLine (ha pair hpair).1 (ha pair hpair).2
  | label pairs =>
    rw [actionLines] at h
    split at h <;> cases h
    rw [openingsOfAction, List.forall₂_map_left_iff, List.forall₂_map_right_iff, List.forall₂_same]
    exact fun pair hpair => written_labelLine (ha pair hpair).1 (ha pair hpair).2
  | expose port =>
    cases h
    exact .cons (written_line (by decide) List.nil_prefix (lineFeed_not_mem_repr port)) .nil
  | run command | cmd command | entrypoint command =>
    obtain ⟨l, hl, rfl⟩ := map_eq_ok_iff.mp h
    exact .cons (written_commandLine (by decide) hl) .nil
  | workdir value | user value =>
    obtain ⟨l, hl, rfl⟩ := map_eq_ok_iff.mp h
    exact .cons (written_textLine (by decide) hl) .nil
  | copy sources destination =>
    obtain ⟨l, hl, rfl⟩ := map_eq_ok_iff.mp h
    exact .cons (written_copyLine hl) .nil

/-! ### Units -/

/-- In a group that has been seen, no comment is prescribed. -/
theorem openings_same_append {seen : List String} {group : Option String} {steps rest : List Step}
    (hseen : ∀ name, group = some name → name ∈ seen)
    (hgroup : ∀ step ∈ steps, step.group = group) :
    openings seen (steps ++ rest)
      = steps.flatMap (fun step => openingsOfAction step.action) ++ openings seen rest := by
  induction steps with
  | nil => rfl
  | cons step steps ih =>
    obtain ⟨hstep, hsteps⟩ := List.forall_mem_cons.mp hgroup
    have hcomment : openingsOfGroup seen group = [] := by
      cases group with
      | none => rfl
      | some name => simp [openingsOfGroup, hseen name rfl]
    have hnoted : notedGroups seen group = seen := by
      cases group with
      | none => rfl
      | some name => simp [notedGroups, hseen name rfl]
    rw [List.cons_append, openings, hstep, hcomment, hnoted, ih hsteps]
    simp

/-- For a group a comment is prescribed once, in front of all its actions. -/
theorem openings_append {seen : List String} {group : Option String} {steps rest : List Step}
    (hne : steps ≠ []) (hgroup : ∀ step ∈ steps, step.group = group) :
    openings seen (steps ++ rest)
      = openingsOfGroup seen group ++ steps.flatMap (fun step => openingsOfAction step.action)
        ++ openings (notedGroups seen group) rest := by
  cases steps with
  | nil => exact absurd rfl hne
  | cons step steps =>
    obtain ⟨hstep, hsteps⟩ := List.forall_mem_cons.mp hgroup
    have hseen : ∀ name, group = some name → name ∈ notedGroups seen group := by
      rintro name rfl
      simp [notedGroups]
    rw [List.cons_append, openings, hstep, openings_same_append hseen hsteps]
    simp

/-- The comment of a group that has not been seen. -/
theorem forall₂_written_heading {seen : List String} {group : Option String}
    (hseen : ∀ name, group = some name → name ∉ seen)
    (hfeeds : ∀ name, group = some name → '\n' ∉ name.toList) :
    List.Forall₂ Written (openingsOfGroup seen group) (heading group) := by
  cases group with
  | none => exact .nil
  | some name =>
    rw [openingsOfGroup, if_neg (hseen name rfl)]
    refine .cons (written_of_opens rfl ?_) .nil
    simp [hfeeds name rfl]

/-- The steps of a declaration have keys and values on one line each. -/
theorem oneLinePairs_of_ownSteps {d : Declaration} {steps : List Step}
    (h : ownSteps answer d = some steps) : ∀ step ∈ steps, step.action.OneLinePairs := by
  rw [ownSteps, mapM_eq_some_iff] at h
  generalize d.members = members at h
  induction h with
  | nil => simp
  | cons hstep _ ih =>
    have haction := (ownStep_eq_some_iff.mp hstep).1
    exact List.forall_mem_cons.mpr ⟨oneLinePairs_of_ownAction haction, ih⟩

/-- The lines of steps come out as their actions prescribe. -/
theorem forall₂_written_steps (hnaming : OneLineNames naming) {steps : List Step}
    {parts : List (List Line)} (hsteps : ∀ step ∈ steps, step.action.OneLinePairs)
    (h : List.Forall₂ (fun step part => actionLines naming step.action = .ok part) steps parts) :
    List.Forall₂ Written (steps.flatMap fun step => openingsOfAction step.action)
      parts.flatten := by
  induction h with
  | nil => exact .nil
  | cons hpart _ ih =>
    obtain ⟨hstep, hrest⟩ := List.forall_mem_cons.mp hsteps
    exact List.rel_append (forall₂_written_actionLines hnaming hstep hpart) (ih hrest)

/-- **Units.** The lines of units are as their steps prescribe. -/
theorem forall₂_written_units (hnaming : OneLineNames naming) {seen : List String}
    {ds : Specification} {units : List (List Step)} {parts : List (List Line)}
    (hunits : List.Forall₂ (fun d steps => ownSteps answer d = some steps) ds units)
    (hparts : List.Forall₂ (fun d part => ownLines naming answer d = some part) ds parts)
    (hmembers : ∀ d ∈ ds, d.members ≠ []) (hnames : ds.stepNames.Nodup)
    (hwords : ∀ name ∈ ds.stepNames, IsWord name) (hseen : ∀ name ∈ ds.stepNames, name ∉ seen) :
    List.Forall₂ Written (openings seen units.flatten) parts.flatten := by
  induction hunits generalizing seen parts with
  | nil =>
    cases hparts
    exact .nil
  | @cons d steps ds units hd hunits ih =>
    cases hparts with
    | cons hpart hparts =>
      obtain ⟨hmember, hmembers⟩ := List.forall_mem_cons.mp hmembers
      rw [stepNames_cons] at hnames hwords hseen
      obtain ⟨-, hnames, hdiffer⟩ := List.nodup_append.mp hnames
      obtain ⟨hword, hwords⟩ := List.forall_mem_append.mp hwords
      obtain ⟨hfresh, hseen⟩ := List.forall_mem_append.mp hseen
      obtain ⟨own, hown, rfl⟩ := (ownLines_eq_some_iff hd).mp hpart
      rw [List.flatten_cons, List.flatten_cons,
        openings_append (ownSteps_ne_nil hd hmember) (group_of_ownSteps hd)]
      refine List.rel_append (List.rel_append ?_ ?_) (ih hparts hmembers hnames hwords ?_)
      · exact forall₂_written_heading (fun name heq => hfresh name (by simp [heq]))
          (fun name heq => (hword name (by simp [heq])).lineFeed_not_mem)
      · exact forall₂_written_steps hnaming (oneLinePairs_of_ownSteps hd) hown
      · -- the names of later units are still new when this one has been noted
        intro name hname
        cases hstep : d.stepName? with
        | none => exact hseen name hname
        | some own =>
          have hne : own ≠ name := hdiffer own (by simp [hstep]) name hname
          simp [notedGroups, hseen name hname, Ne.symm hne]

/-! ### Scripts -/

/-- Lines that come out as prescribed make up blocks. -/
theorem exists_blocks_of_written {os : List Opening} {lines : List Line}
    (h : List.Forall₂ Written os lines) :
    ∃ blocks, List.Forall₂ Block os blocks ∧ (∀ other ∈ blocks.flatten, '\n' ∉ other) ∧
      lines.flatMap (· ++ ['\n']) = blocks.flatten.flatMap (· ++ ['\n']) := by
  induction h with
  | nil => exact ⟨[], .nil, by simp, rfl⟩
  | cons hwritten _ ih =>
    obtain ⟨block, hblock, hfeeds, htext⟩ := hwritten
    obtain ⟨blocks, hblocks, hrest, htexts⟩ := ih
    refine ⟨block :: blocks, .cons hblock hblocks, List.forall_mem_append.mpr ⟨hfeeds, hrest⟩, ?_⟩
    rw [List.flatMap_cons, htext, htexts, List.flatten_cons, List.flatMap_append]

/-- Blocks are opened with the characters that are prescribed. -/
theorem head?_of_blocks {kind : Char → Prop} {os : List Opening}
    {blocks : List (List (List Char))} (h : List.Forall₂ Block os blocks)
    (hos : ∀ o ∈ os, ∃ c, o.first? = some c ∧ kind c) :
    ∀ block ∈ blocks, ∃ opened, block.head? = some opened ∧
      ∃ c, opened.head? = some c ∧ kind c := by
  induction h with
  | nil => simp
  | cons hblock _ ih =>
    obtain ⟨⟨c, hfirst, hc⟩, hrest⟩ := List.forall_mem_cons.mp hos
    obtain ⟨opened, hopened, hopens⟩ := hblock.opened
    exact List.forall_mem_cons.mpr ⟨⟨opened, hopened, c, hopens.head?_eq hfirst, hc⟩, ih hrest⟩

/-- **No injected instructions.** Whatever is written in a specification and in a library, the
    physical lines of a script are the blocks that its steps prescribe, in their order: no other
    line opens an instruction. -/
theorem exists_blocks_of_render {source : List Char} {spec : Specification} {σ : Type}
    {l : Library σ} {s : σ} {r : Realization} {script : String}
    (hsource : Specification.ofChars source = .ok spec)
    (hcanonical : l.canonical = Definition.canonical)
    (hr : (spec.realize l s).1 = .ok r) (hscript : render l.canonical r.steps = .ok script) :
    ∃ blocks : List (List (List Char)),
      script.toList = blocks.flatten.flatMap (· ++ ['\n']) ∧
        (∀ other ∈ blocks.flatten, '\n' ∉ other) ∧
        List.Forall₂ Block (openings [] r.steps) blocks := by
  have hnaming : OneLineNames l.canonical := by
    rw [hcanonical]
    exact fun d name => Definition.lineFeed_not_mem_canonical
  -- nothing is known of the library but the answers that it gave on this run
  obtain ⟨answer, hfresh⟩ := exists_fresh_eq_realize l spec s
  rw [hfresh] at hr
  obtain ⟨-, -, -, hrules, -⟩ := realize_eq_ok_iff.mp hr
  obtain ⟨order, horder, steps, hsteps, heq⟩ := exists_steps_of_realize hr
  obtain ⟨hunits, hmembers, hnames⟩ := ordered_units hrules horder hsteps
  rw [heq, List.flatMap_def] at hscript ⊢
  obtain ⟨lines, hlines, rfl⟩ := map_eq_ok_iff.mp hscript
  rw [ofSteps, linesAfter_units_eq_ok_iff hunits hmembers hnames (by simp)] at hlines
  obtain ⟨parts, hparts, rfl⟩ := hlines
  have hwords : ∀ name ∈ Specification.stepNames (order.map spec.get), IsWord name :=
    fun name hname => isWord_of_ofChars hsource name
      (((map_get_perm horder).filterMap _).mem_iff.mp hname)
  have hwritten : List.Forall₂ Written (openings [] (order.map steps).flatten) parts.flatten :=
    forall₂_written_units hnaming hunits hparts hmembers hnames hwords (by simp)
  obtain ⟨blocks, hblocks, hfeeds, htext⟩ := exists_blocks_of_written hwritten
  exact ⟨blocks, by rw [text, String.toList_ofList, htext], hfeeds, hblocks⟩

/-! ### A hostile library -/

/-- A specification of a base image and a step with one dependency. -/
def hostileSource : String := "base=\"debian\" step tools\x7b dep=\"node\" \x7d"

/-- A definition whose installation command tries to open an instruction on a line of its own. -/
def hostileDefinition : Definition where
  name := "node"
  version := "20"
  digest := sampleDigest
  metadata := ⟨[("env.CC", "gcc"), ("install", "curl\nFROM evil")], by decide⟩

/-- A library that answers every other reference with a system. -/
def hostileLibrary : Library Unit where
  lookup r s :=
    (.ok (if r.name = "node" then hostileDefinition else ⟨"debian", "12", sampleDigest, .empty⟩), s)

/-- The declarations of the specification. -/
def hostileSpecification : Specification :=
  [.base ⟨1, 1⟩ ⟨"debian", none⟩, .step ⟨1, 15⟩ "tools" [] [.dep ⟨1, 27⟩ ⟨"node", none⟩]]

/-- The steps of the specification. -/
def hostileSteps : List Step :=
  [⟨⟨1, 1⟩, none, .base ⟨"debian", "12", sampleDigest, .empty⟩⟩,
    ⟨⟨1, 27⟩, some "tools", .dep hostileDefinition⟩]

/-- The lines of its script; the second line of the command continues the first. -/
def hostileLines : List Line :=
  ["FROM debian:12@sha512:ab12", "# step tools", "RUN curl \\\nFROM evil", "ENV CC=\"gcc\""].map
    String.toList

/-- The second line of the command opens nothing. -/
theorem blocks_of_hostileLines :
    ∃ blocks : List (List (List Char)),
      (text hostileLines).toList = blocks.flatten.flatMap (· ++ ['\n']) ∧
        (∀ other ∈ blocks.flatten, '\n' ∉ other) ∧
        List.Forall₂ Block
          [.instruction "FROM" [], .comment "tools", .instruction "RUN" [],
            .instruction "ENV" "CC=".toList] blocks := by
  have hsource : Specification.ofChars hostileSource.toList = .ok hostileSpecification := by
    with_unfolding_all rfl
  have horder : orderOf hostileSpecification = .ok [⟨0, by decide⟩, ⟨1, by decide⟩] := by
    cbv
  have hr : (hostileSpecification.realize hostileLibrary ()).1 = .ok ⟨hostileSteps⟩ := by
    rw [Specification.realize, realizing, horder]
    with_unfolding_all rfl
  have hlines : ofSteps hostileLibrary.canonical hostileSteps = .ok hostileLines := by
    with_unfolding_all rfl
  have hscript : render hostileLibrary.canonical hostileSteps = .ok (text hostileLines) := by
    rw [render, hlines]
    rfl
  exact exists_blocks_of_render hsource rfl hr hscript

end ImageSpec.Script

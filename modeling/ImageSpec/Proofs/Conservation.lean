import ImageSpec.Proofs.Openings

namespace ImageSpec

open Realization

/-!
# Conservation

Nothing of a specification is lost in a script, and nothing stands there twice: the script consists
of the lines of the declarations, each under the comment of its own group.

* `Script.isInstruction_of_actionLines` — the lines of actions are instructions; none of them is a
  comment.
* `Script.Headed`, `Script.HeadedBlocks` — one comment on top and no other, among the lines of a
  declaration and among the physical lines that they come out as.
* `Realization.realize_eq_flatMap_and_render_eq_join` — the steps and the script of a realization,
  from its units in their order.
-/

namespace Script

/-- The comment of a group stands above the lines, and there is no other comment in them. -/
def Headed (group : Option String) (lines : List Line) : Prop :=
  ∃ rest, lines = heading group ++ rest ∧ ∀ l ∈ rest, l.head? ≠ some '#'

/-- The physical lines of a declaration: they are the blocks that its steps prescribe.  The comment
    of the group is a block of one line in front of the others, and none of the others is opened by
    a comment. -/
def HeadedBlocks (group : Option String) (steps : List Step) (lines : List Line) : Prop :=
  ∃ rest : List (List (List Char)),
    (text lines).toList = (heading group ++ rest.flatten).flatMap (· ++ ['\n']) ∧
    (∀ other ∈ heading group ++ rest.flatten, '\n' ∉ other) ∧
    List.Forall₂ Block (openings [] steps) ((heading group).map ([·]) ++ rest) ∧
    ∀ block ∈ rest, ∃ opened, block.head? = some opened ∧ opened.head? ≠ some '#'

variable {naming : Naming} {answer : Answers}

/-! ### Instructions -/

/-- A line with one of the instructions. -/
def IsInstruction (l : Line) : Prop := ∃ name ∈ instructions, ∃ arguments, l = line name arguments

/-- No instruction is a comment. -/
theorem IsInstruction.head?_ne {l : Line} (h : IsInstruction l) : l.head? ≠ some '#' := by
  obtain ⟨name, hname, arguments, rfl⟩ := h
  simp only [instructions, List.mem_cons, List.not_mem_nil, or_false] at hname
  rcases hname with rfl | rfl | rfl | rfl | rfl | rfl | rfl | rfl | rfl | rfl <;> simp [line]

/-- The line of a command is an instruction. -/
theorem isInstruction_of_commandLine {name : String} (hname : name ∈ instructions)
    {command : Command} {l : Line} (h : commandLine name command = .ok l) : IsInstruction l := by
  unfold commandLine at h
  split at h <;> split at h <;> cases h
  · exact ⟨name, hname, _, rfl⟩
  · exact ⟨name, hname, _, rfl⟩

/-- The line of a text is an instruction. -/
theorem isInstruction_of_textLine {name : String} (hname : name ∈ instructions) {value : String}
    {l : Line} (h : textLine name value = .ok l) : IsInstruction l := by
  unfold textLine at h
  split at h <;> cases h
  exact ⟨name, hname, _, rfl⟩

/-- The line of a copy is an instruction. -/
theorem isInstruction_of_copyLine {sources : List String} {destination : String} {l : Line}
    (h : copyLine sources destination = .ok l) : IsInstruction l := by
  unfold copyLine at h
  dsimp only at h
  split at h
  · cases h
  · split at h <;> cases h
    · exact ⟨"COPY", by decide, _, rfl⟩
    · exact ⟨"COPY", by decide, _, rfl⟩

/-- The line that brings a dependency in is an instruction. -/
theorem isInstruction_of_installLine {d : Definition} {l : Line}
    (h : installLine naming d = .ok l) : IsInstruction l := by
  unfold installLine at h
  split at h
  · dsimp only at h
    split at h <;> cases h
    exact ⟨"RUN", by decide, _, rfl⟩
  · obtain ⟨_, -, rfl⟩ := map_eq_ok_iff.mp h
    exact ⟨"COPY", by decide, _, rfl⟩

/-- The lines of the variables that a dependency sets are instructions. -/
theorem isInstruction_of_exportLines {name : String} {pairs : List (String × String)}
    {lines : List Line} (h : exportLines name pairs = .ok lines) :
    ∀ l ∈ lines, IsInstruction l := by
  induction pairs generalizing lines with
  | nil =>
    cases h
    simp
  | cons pair pairs ih =>
    obtain ⟨key, value⟩ := pair
    rw [exportLines] at h
    split at h
    · cases h
    · split at h
      · cases h
      · obtain ⟨others, hothers, rfl⟩ := map_eq_ok_iff.mp h
        exact List.forall_mem_cons.mpr ⟨⟨"ENV", by decide, _, rfl⟩, ih hothers⟩

/-- The lines of a dependency are instructions. -/
theorem isInstruction_of_dependencyLines {d : Definition} {lines : List Line}
    (h : dependencyLines naming d = .ok lines) : ∀ l ∈ lines, IsInstruction l := by
  unfold dependencyLines at h
  split at h
  · cases h
  · next first hfirst =>
    obtain ⟨others, hothers, rfl⟩ := map_eq_ok_iff.mp h
    exact List.forall_mem_cons.mpr
      ⟨isInstruction_of_installLine hfirst, isInstruction_of_exportLines hothers⟩

/-- **Actions.** Every line of an action is an instruction. -/
theorem isInstruction_of_actionLines {a : Action} {lines : List Line}
    (h : actionLines naming a = .ok lines) : ∀ l ∈ lines, IsInstruction l := by
  cases a with
  | base d =>
    obtain ⟨name, -, rfl⟩ := map_eq_ok_iff.mp h
    exact List.forall_mem_singleton.mpr ⟨"FROM", by decide, _, rfl⟩
  | dep d => exact isInstruction_of_dependencyLines h
  | env pairs =>
    rw [actionLines] at h
    split at h <;> cases h
    exact List.forall_mem_map.mpr fun pair _ => ⟨"ENV", by decide, _, rfl⟩
  | label pairs =>
    rw [actionLines] at h
    split at h <;> cases h
    exact List.forall_mem_map.mpr fun pair _ => ⟨"LABEL", by decide, _, rfl⟩
  | expose port =>
    cases h
    exact List.forall_mem_singleton.mpr ⟨"EXPOSE", by decide, _, rfl⟩
  | run command | cmd command | entrypoint command =>
    obtain ⟨l, hl, rfl⟩ := map_eq_ok_iff.mp h
    exact List.forall_mem_singleton.mpr (isInstruction_of_commandLine (by decide) hl)
  | workdir value | user value =>
    obtain ⟨l, hl, rfl⟩ := map_eq_ok_iff.mp h
    exact List.forall_mem_singleton.mpr (isInstruction_of_textLine (by decide) hl)
  | copy sources destination =>
    obtain ⟨l, hl, rfl⟩ := map_eq_ok_iff.mp h
    exact List.forall_mem_singleton.mpr (isInstruction_of_copyLine hl)

/-- The lines of a declaration have its comment on top and no other. -/
theorem headed_of_ownLines {d : Declaration} {lines : List Line}
    (h : ownLines naming answer d = some lines) : Headed d.stepName? lines := by
  cases hsteps : ownSteps answer d with
  | none => simp [ownLines, hsteps] at h
  | some steps =>
    obtain ⟨parts, hparts, rfl⟩ := (ownLines_eq_some_iff hsteps).mp h
    refine ⟨parts.flatten, rfl, ?_⟩
    clear hsteps h
    induction hparts with
    | nil => simp
    | cons hpart _ ih =>
      rw [List.flatten_cons]
      refine List.forall_mem_append.mpr ⟨fun l hl => ?_, ih⟩
      exact (isInstruction_of_actionLines hpart l hl).head?_ne

/-! ### Physical lines -/

/-- Blocks that actions prescribe are not opened by comments. -/
theorem not_comment_of_blocks {steps : List Step} {blocks : List (List (List Char))}
    (h : List.Forall₂ Block (steps.flatMap fun step => openingsOfAction step.action) blocks) :
    ∀ block ∈ blocks, ∃ opened, block.head? = some opened ∧ opened.head? ≠ some '#' := by
  have hnames : ∀ name ∈ instructions, ∀ arguments,
      ∃ c, (Opening.instruction name arguments).first? = some c ∧ c ≠ '#' := by
    simp [instructions, Opening.first?]
  have hfirst : ∀ o ∈ steps.flatMap fun step => openingsOfAction step.action,
      ∃ c, o.first? = some c ∧ c ≠ '#' := by
    intro o ho
    obtain ⟨step, -, hstep⟩ := List.mem_flatMap.mp ho
    obtain ⟨name, hname, arguments, rfl, -⟩ :=
      exists_instruction_of_mem_openingsOfAction _ o hstep
    exact hnames name hname arguments
  intro block hblock
  obtain ⟨opened, hopened, c, hhead, hc⟩ := head?_of_blocks h hfirst block hblock
  refine ⟨opened, hopened, ?_⟩
  rw [hhead]
  exact fun heq => hc (Option.some.inj heq)

/-- **Physical lines.** The physical lines of a declaration are headed as its lines are. -/
theorem headedBlocks_of_ownLines (hnaming : OneLineNames naming) {d : Declaration}
    {steps : List Step} {lines : List Line} (hsteps : ownSteps answer d = some steps)
    (h : ownLines naming answer d = some lines) (hmembers : d.members ≠ [])
    (hfeeds : ∀ name, d.stepName? = some name → '\n' ∉ name.toList) :
    HeadedBlocks d.stepName? steps lines := by
  obtain ⟨parts, hparts, rfl⟩ := (ownLines_eq_some_iff hsteps).mp h
  have hwritten := forall₂_written_steps hnaming (oneLinePairs_of_ownSteps hsteps) hparts
  obtain ⟨rest, hrest, hfree, htext⟩ := exists_blocks_of_written hwritten
  -- a declaration opens with its comment, if it is a step, and then with its actions
  have hopenings : openings [] (steps ++ []) = openingsOfGroup [] d.stepName?
      ++ steps.flatMap (fun step => openingsOfAction step.action) ++ [] :=
    openings_append (ownSteps_ne_nil hsteps hmembers) (group_of_ownSteps hsteps)
  rw [List.append_nil, List.append_nil] at hopenings
  refine ⟨rest, ?_, ?_, ?_, not_comment_of_blocks hrest⟩
  · rw [text, String.toList_ofList, List.flatMap_append, htext, ← List.flatMap_append]
  · refine List.forall_mem_append.mpr ⟨?_, hfree⟩
    cases hgroup : d.stepName? with
    | none => simp [heading]
    | some name => simp [heading, hfeeds name hgroup]
  · rw [hopenings]
    refine List.rel_append ?_ hrest
    cases d.stepName? with
    | none => exact .nil
    | some name => exact .cons ⟨⟨_, rfl, rfl⟩, by simp⟩ .nil

end Script

namespace Realization

variable {answer : Answers} {spec : Specification}

/-- The text of several units is that of each in a row. -/
theorem text_flatMap {ι : Type} (order : List ι) (own : ι → List Script.Line) :
    Script.text (order.flatMap own) = String.join (order.map fun i => Script.text (own i)) := by
  apply String.toList_injective
  rw [Script.text, String.toList_ofList, String.toList_join]
  induction order with
  | nil => rfl
  | cons i order ih =>
    rw [List.flatMap_cons, List.flatMap_append, ih]
    simp [Script.text]

/-- **Conservation.** The steps of a realization are those of its declarations, each by itself, one
    declaration after the other in the order of the units; and its script is put together in the
    same order from the lines of its declarations, each by itself under one comment.  Where the
    names of definitions and of steps are on one line each, the same is true of the physical lines:
    the comment of a group is the first of its declaration, and no other line that opens a block is
    a comment. -/
theorem realize_eq_flatMap_and_render_eq_join {σ : Type} {l : Library σ} {s : σ}
    (hl : l.AnswersWith s answer) {r : Realization} (hr : (spec.realize l s).1 = .ok r) :
    ∃ order : List (Fin spec.length),
      orderOf spec = .ok order ∧ order.Perm (List.finRange spec.length) ∧
      (∃ steps : Fin spec.length → List Step,
        (∀ i, ownSteps answer (spec.get i) = some (steps i)) ∧ r.steps = order.flatMap steps) ∧
      (∀ script, Script.render l.canonical r.steps = .ok script ↔
        ∃ own : Fin spec.length → List Script.Line,
          (∀ i, Script.ownLines l.canonical answer (spec.get i) = some (own i)
            ∧ Script.Headed (spec.get i).stepName? (own i)) ∧
          script = String.join (order.map fun i => Script.text (own i))) ∧
      (Script.OneLineNames l.canonical → (∀ name ∈ spec.stepNames, '\n' ∉ name.toList) →
        ∀ i steps lines, ownSteps answer (spec.get i) = some steps →
          Script.ownLines l.canonical answer (spec.get i) = some lines →
            Script.HeadedBlocks (spec.get i).stepName? steps lines) := by
  rw [realize_eq_fresh hl] at hr
  obtain ⟨-, -, -, hrules, -⟩ := realize_eq_ok_iff.mp hr
  -- the steps are those of the units in their order, and so are the lines that are made from them
  obtain ⟨order, horder, steps, hsteps, heq⟩ := exists_steps_of_realize hr
  refine ⟨order, horder, perm_of_orderOf horder, ⟨steps, hsteps, heq⟩, fun script => ?_, ?_⟩
  · rw [heq, Script.render, map_eq_ok_iff]
    simp only [ofSteps_eq_ok_iff hrules horder hsteps]
    constructor
    · rintro ⟨_, ⟨own, hown, rfl⟩, rfl⟩
      exact ⟨own, fun i => ⟨hown i, Script.headed_of_ownLines (hown i)⟩, text_flatMap order own⟩
    · rintro ⟨own, hown, rfl⟩
      exact ⟨_, ⟨own, fun i => (hown i).1, rfl⟩, text_flatMap order own⟩
  · intro hnaming hnames i own lines hown hlines
    have hmembers := hrules.nodup_and_members.2 (spec.get i) (List.get_mem spec i)
    refine Script.headedBlocks_of_ownLines hnaming hown hlines hmembers fun name heq => ?_
    exact hnames name (Specification.mem_stepNames.mpr ⟨spec.get i, List.get_mem spec i, heq⟩)

/-- The script of the sample, declaration by declaration. -/
theorem text_sampleLines :
    ∃ (order : List (Fin sampleSpecification.length))
      (own : Fin sampleSpecification.length → List Script.Line),
      orderOf sampleSpecification = .ok order ∧
      (∀ i, Script.Headed (sampleSpecification.get i).stepName? (own i)) ∧
      (∀ i, ∃ steps, Script.HeadedBlocks (sampleSpecification.get i).stepName? steps (own i)) ∧
      Script.text sampleLines = String.join (order.map fun i => Script.text (own i)) := by
  obtain ⟨order, horder, -, ⟨steps, hsteps, -⟩, hscript, hblocks⟩ :=
    realize_eq_flatMap_and_render_eq_join (Catalog.library_answersWith sampleCatalog)
      realize_sampleSpecification
  have hrender : Script.render Catalog.library.canonical sampleRealization.steps
      = .ok (Script.text sampleLines) := by
    rw [Script.render, ofSteps_sampleRealization]
    rfl
  obtain ⟨own, hown, htext⟩ := (hscript _).mp hrender
  have hnaming : Script.OneLineNames Catalog.library.canonical :=
    fun d name => Definition.lineFeed_not_mem_canonical
  have hnames : ∀ name ∈ sampleSpecification.stepNames, '\n' ∉ name.toList := by decide
  refine ⟨order, own, horder, fun i => (hown i).2, fun i => ⟨steps i, ?_⟩, htext⟩
  exact hblocks hnaming hnames i (steps i) (own i) (hsteps i) (hown i).1

end Realization

end ImageSpec

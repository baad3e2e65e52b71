import ImageSpec.Plan
import ImageSpec.Proofs.BaseFirst

namespace ImageSpec

/-!
# Rows of plans

A plan has a row for each step, and the row shows the texts of the step as they are.  Most of them
were checked to be on one line when the step was made.  The names and versions that a library gives,
and the arguments of a command that is given as a list, were not.

* `Keyword.lineFeed_not_mem_of_check` — the texts that were checked.
* `Plan.lineFeed_not_mem_firstLine` — of a command for the shell, one line is shown.
* `Plan.Breaks` — the actions that are shown with a line feed.
* `Plan.lineFeed_mem_describe_iff`, `Plan.lineFeed_mem_row_iff` — no others are.
* `Service.plan_rows_break_iff` — the rows of a plan that are lines, and the width of commands.
* `Service.row_of_list_breaks` — a row that is not one line.
-/

/-! ### Checked texts -/

/-- The texts of an action that have to stand on one line each. -/
def Action.texts : Action → List String
  | workdir path => [path]
  | user name => [name]
  | copy sources destination => sources ++ [destination]
  | _ => []

/-- A text that is written on one line holds no line feed. -/
theorem Script.lineFeed_not_mem_of_textLine {instruction value : String} {l : Line}
    (h : textLine instruction value = .ok l) : '\n' ∉ value.toList := by
  unfold textLine at h
  split at h
  · cases h
  · next hvalue =>
    rw [Bool.not_eq_true, Bool.or_eq_false_iff] at hvalue
    exact hasLineBreak_eq_false_iff.mp hvalue.2

namespace Keyword

/-- The paths of a copy that passes its check hold no line feed. -/
theorem lineFeed_not_mem_of_checkCopy {value : Value} {a : Action} (h : checkCopy value = .ok a) :
    ∀ text ∈ a.texts, '\n' ∉ text.toList := by
  obtain ⟨sources, destination, -, rfl, rfl⟩ := exists_of_checkCopy h
  unfold checkCopy at h
  dsimp only at h
  split at h
  · split at h
    · cases h
    · split at h
      · cases h
      · next hbreak =>
        intro text htext
        rw [Bool.not_eq_true, List.any_eq_false] at hbreak
        exact hasLineBreak_eq_false_iff.mp (by simpa using hbreak text htext)
  · cases h

/-- What passes a check has its texts on one line each. -/
theorem lineFeed_not_mem_of_check {k : Keyword} {value : Value} {a : Action}
    (h : k.check value = .ok a) : ∀ text ∈ a.texts, '\n' ∉ text.toList := by
  cases k with
  | workdir =>
    obtain ⟨path, hpath, rfl⟩ := Realization.map_eq_ok_iff.mp h
    obtain ⟨l, hl⟩ := Script.exists_textLine_of_checkLine "WORKDIR" hpath
    exact List.forall_mem_singleton.mpr (Script.lineFeed_not_mem_of_textLine hl)
  | user =>
    obtain ⟨name, hname, rfl⟩ := Realization.map_eq_ok_iff.mp h
    obtain ⟨l, hl⟩ := Script.exists_textLine_of_checkUser "USER" hname
    exact List.forall_mem_singleton.mpr (Script.lineFeed_not_mem_of_textLine hl)
  | copy => exact lineFeed_not_mem_of_checkCopy h
  | run | cmd | entrypoint | expose =>
    obtain ⟨_, -, rfl⟩ := Realization.map_eq_ok_iff.mp h
    exact List.forall_mem_nil _

end Keyword

/-- The texts of a declaration that passes its check hold no line feed. -/
theorem Realization.lineFeed_not_mem_of_ownAction {answer : Answers} {d : Declaration} {a : Action}
    (h : ownAction answer d = some a) : ∀ text ∈ a.texts, '\n' ∉ text.toList := by
  cases d with
  | base position reference | dep position reference =>
    obtain ⟨_, -, rfl⟩ := Option.map_eq_some_iff.mp h
    exact List.forall_mem_nil _
  | instruction position keyword value =>
    exact Keyword.lineFeed_not_mem_of_check (toOption_eq_some_iff.mp h)
  | block position keyword entries =>
    have hcheck := toOption_eq_some_iff.mp h
    unfold BlockKeyword.check at hcheck
    split at hcheck
    · cases hcheck
    · obtain ⟨pairs, -, rfl⟩ := map_eq_ok_iff.mp hcheck
      cases keyword <;> exact List.forall_mem_nil _
  | step position name after body => cases h

/-! ### Commands in short -/

/-- A line holds no line feed. -/
theorem Text.lineFeed_not_mem_of_mem_lines {cs line : List Char} (h : line ∈ lines cs) :
    '\n' ∉ line := by
  have hsegments := (Script.splitAt_ne_nil_and_not_mem '\n' cs).2
  have hended : ∀ line ∈ (splitAt '\n' cs).dropLast.map dropReturn, '\n' ∉ line := by
    intro line hline
    obtain ⟨segment, hsegment, rfl⟩ := List.mem_map.mp hline
    have hfeed := hsegments segment (List.mem_of_mem_dropLast hsegment)
    unfold dropReturn
    split
    · exact fun hmem => hfeed (List.mem_of_mem_dropLast hmem)
    · exact hfeed
  unfold lines at h
  dsimp only at h
  split at h
  · exact hended line h
  · next last hne hlast =>
    rcases List.mem_append.mp h with h | h
    · exact hended line h
    · rw [List.mem_singleton.mp h]
      exact hsegments last (List.mem_of_getLast? hlast)
  · exact hended line h

namespace Plan

/-- The first line of a command holds no line feed. -/
theorem lineFeed_not_mem_firstLine (command : List Char) : '\n' ∉ firstLine command := by
  unfold firstLine
  split
  · exact List.not_mem_nil
  · next only hlines =>
    exact Text.lineFeed_not_mem_of_mem_lines (hlines ▸ List.mem_singleton_self only)
  · next first rest _ hlines =>
    have hfirst : '\n' ∉ first :=
      Text.lineFeed_not_mem_of_mem_lines (hlines ▸ List.mem_cons_self)
    simp [hfirst]

/-- A text that is cut has the width that it is cut to. -/
theorem length_shorten_le {width : Nat} (hwidth : 0 < width) (cs : List Char) :
    (shorten width cs).length ≤ width := by
  unfold shorten
  split
  · assumption
  · rw [List.length_append, List.length_take, List.length_singleton]
    omega

/-- A command is shown in at most 60 characters. -/
theorem length_describeCommand_le (command : Command) :
    (describeCommand command).length ≤ 60 := by
  cases command with
  | shell line => exact length_shorten_le (by decide) _
  | exec arguments => exact length_shorten_le (by decide) _

/-- Shortening brings no line feed in. -/
theorem lineFeed_not_mem_shorten {width : Nat} {cs : List Char} (h : '\n' ∉ cs) :
    '\n' ∉ shorten width cs := by
  unfold shorten
  split
  · exact h
  · have htake : '\n' ∉ cs.take (width - 1) := fun hmem => h (List.mem_of_mem_take hmem)
    simp [htake]

/-- Between the brackets, and with the mark of a cut at the end, there is room for 58 characters. -/
theorem lineFeed_mem_shorten_iff (cs : List Char) :
    '\n' ∈ shorten commandWidth (['['] ++ cs ++ [']']) ↔ '\n' ∈ cs.take 58 := by
  have hlength : (['['] ++ cs ++ [']']).length = cs.length + 2 := by simp
  unfold shorten commandWidth
  split
  · next hshort =>
    rw [List.take_of_length_le (by omega)]
    simp
  · next hlong =>
    have htake : (['['] ++ cs ++ [']']).take (60 - 1) = '[' :: cs.take 58 := by
      rw [List.append_assoc, List.singleton_append, List.take_succ_cons,
        List.take_append_of_le_length (by omega)]
    rw [htake]
    simp

/-! ### Actions in short -/

/-- An action is shown with a line feed: there is one in the name or in the version of its
    definition, or among the first 58 characters of its arguments with commas between them. -/
def Breaks (a : Action) : Prop :=
  (∃ d, a.definition? = some d ∧ ('\n' ∈ d.name.toList ∨ '\n' ∈ d.version.toList)) ∨
    ∃ arguments, a.command? = some (.exec arguments) ∧
      '\n' ∈ (Text.joinWith [',', ' '] (arguments.map String.toList)).take 58

/-- An action without a definition and without a command does not break. -/
theorem not_breaks {a : Action} (hdefinition : a.definition? = none) (hcommand : a.command? = none) :
    ¬ Breaks a := by
  simp [Breaks, hdefinition, hcommand]

/-- A definition is shown with a line feed if its name or its version has one. -/
theorem lineFeed_mem_describeDefinition_iff (d : Definition) :
    '\n' ∈ (describeDefinition d).toList ↔ '\n' ∈ d.name.toList ∨ '\n' ∈ d.version.toList := by
  have hdigest : '\n' ∉ d.digest.short.toList := by
    have halgorithm := not_mem_of_all (c := '\n') (by decide) d.digest.algorithm_chars
    have hencoded := not_mem_of_all (c := '\n') (by decide) d.digest.encoded_chars
    have htake : '\n' ∉ d.digest.encoded.toList.take 12 :=
      fun hmem => hencoded (List.mem_of_mem_take hmem)
    simp [Digest.short, halgorithm, htake]
  simp [describeDefinition, hdigest]

/-- A command is shown with a line feed if there is one among the first characters of its arguments.
    -/
theorem lineFeed_mem_describeCommand_iff (command : Command) :
    '\n' ∈ describeCommand command ↔ ∃ arguments, command = .exec arguments ∧
      '\n' ∈ (Text.joinWith [',', ' '] (arguments.map String.toList)).take 58 := by
  cases command with
  | shell line =>
    have hline : '\n' ∉ shorten commandWidth (firstLine line.toList) :=
      lineFeed_not_mem_shorten (lineFeed_not_mem_firstLine line.toList)
    simp [describeCommand, hline]
  | exec arguments =>
    rw [describeCommand, lineFeed_mem_shorten_iff]
    simp

/-- Parts without line feeds are put together without one. -/
theorem lineFeed_not_mem_intercalate {sep : String} {parts : List String}
    (hsep : '\n' ∉ sep.toList) (h : ∀ part ∈ parts, '\n' ∉ part.toList) :
    '\n' ∉ (sep.intercalate parts).toList := by
  rw [String.toList_intercalate]
  refine Text.not_mem_joinWith hsep fun segment hsegment => ?_
  obtain ⟨part, hpart, rfl⟩ := List.mem_map.mp hsegment
  exact h part hpart

/-- Keys and values without line feeds are shown without one. -/
theorem lineFeed_not_mem_describePairs {pairs : List (String × String)}
    (h : ∀ pair ∈ pairs, '\n' ∉ pair.1.toList ∧ '\n' ∉ pair.2.toList) :
    '\n' ∉ (describePairs pairs).toList := by
  refine lineFeed_not_mem_intercalate (by decide) fun part hpart => ?_
  obtain ⟨pair, hpair, rfl⟩ := List.mem_map.mp hpart
  simp [h pair hpair]

/-- **Actions.** If the texts that are checked are on one line each, an action is shown with a line
    feed exactly if it breaks. -/
theorem lineFeed_mem_describe_iff {a : Action} (hpairs : a.OneLinePairs)
    (htexts : ∀ text ∈ a.texts, '\n' ∉ text.toList) :
    '\n' ∈ (describe a).toList ↔ Breaks a := by
  cases a with
  | base d | dep d =>
    simp [describe, lineFeed_mem_describeDefinition_iff, Breaks, Action.definition?,
      Action.command?]
  | run command | cmd command | entrypoint command =>
    simp [describe, lineFeed_mem_describeCommand_iff, Breaks, Action.definition?, Action.command?]
  | env pairs | label pairs =>
    exact iff_of_false (lineFeed_not_mem_describePairs hpairs) (not_breaks rfl rfl)
  | workdir value | user value =>
    exact iff_of_false (htexts value (List.mem_singleton_self value)) (not_breaks rfl rfl)
  | copy sources destination =>
    obtain ⟨hsources, hdestination⟩ := List.forall_mem_append.mp htexts
    have hjoined : '\n' ∉ (" ".intercalate sources).toList :=
      lineFeed_not_mem_intercalate (by decide) hsources
    have hlast := hdestination destination (List.mem_singleton_self destination)
    refine iff_of_false ?_ (not_breaks rfl rfl)
    simp [describe, -String.toList_intercalate, hjoined, hlast]
  | expose port => exact iff_of_false (lineFeed_not_mem_repr port) (not_breaks rfl rfl)

/-- **Rows.** Nothing else in a row is a line feed. -/
theorem lineFeed_mem_row_iff (index : Nat) {step : Step}
    (hgroup : ∀ name, step.group = some name → '\n' ∉ name.toList) :
    '\n' ∈ (row index step).toList ↔ '\n' ∈ (describe step.action).toList := by
  have hindex := lineFeed_not_mem_repr index
  have hposition : '\n' ∉ step.position.text.toList := by
    simp [Position.text, -Nat.toList_repr, lineFeed_not_mem_repr]
  have hkind : '\n' ∉ step.action.kind.toList := by
    cases step.action <;> simp only [Action.kind] <;> decide
  cases hname : step.group with
  | none => simp [row, alignRight, alignLeft, -Nat.toList_repr, hindex, hposition, hkind, hname]
  | some name =>
    have hfeed := hgroup name hname
    simp [row, alignRight, alignLeft, -Nat.toList_repr, hindex, hposition, hkind, hname, hfeed]

end Plan

/-! ### Plans -/

namespace Realization

/-- Steps that come from a text are shown with a line feed exactly if their actions break. -/
theorem lineFeed_mem_row_iff {answer : Answers} {source : List Char} {spec : Specification}
    {r : Realization} (hsource : Specification.ofChars source = .ok spec)
    (h : Fresh.realize answer spec = .ok r) {step : Step} (hstep : step ∈ r.steps) (index : Nat) :
    '\n' ∈ (Plan.row index step).toList ↔ Plan.Breaks step.action := by
  obtain ⟨hpairs, hgroup⟩ := oneLine_of_mem_steps hsource h hstep
  obtain ⟨d, hd⟩ := exists_ownAction_of_mem_steps h hstep
  rw [Plan.lineFeed_mem_row_iff index hgroup,
    Plan.lineFeed_mem_describe_iff hpairs (lineFeed_not_mem_of_ownAction hd)]

end Realization

namespace Service

variable {σ : Type}

/-- **Rows of plans.** Over every library, let a source have a plan.  The row of a step is one line
    if and only if its action does not break: the name and the version of its definition have no line
    feed, and there is none among the first 58 characters of its arguments.  And whatever is shown of
    a command has at most 60 characters. -/
theorem plan_rows_break_iff {l : Library σ} {source : Source} {s : σ} {r : Realization}
    (hplan : ((ofLibrary l).plan source s).1 = .ok r) :
    ∀ step ∈ r.steps,
      (∀ index, '\n' ∈ (Plan.row index step).toList ↔ Plan.Breaks step.action) ∧
      ∀ command, step.action.command? = some command →
        (Plan.describe step.action).length ≤ 60 := by
  intro step hstep
  constructor
  · intro index
    obtain ⟨bytes, spec, rfl, hspec, hr⟩ := of_plan_eq_ok hplan
    -- the names of steps are words, as they were read from characters
    obtain ⟨chars, -, hchars⟩ := exists_decode_of_ofBytes hspec
    obtain ⟨answer, hfresh⟩ := Realization.exists_fresh_eq_realize l spec s
    rw [hr] at hfresh
    exact Realization.lineFeed_mem_row_iff hchars hfresh.symm hstep index
  · intro command hcommand
    have hdescribe : Plan.describe step.action = String.ofList (Plan.describeCommand command) := by
      cases haction : step.action with
      | run _ | cmd _ | entrypoint _ =>
        rw [haction] at hcommand
        cases hcommand
        rfl
      | _ =>
        rw [haction] at hcommand
        cases hcommand
    rw [hdescribe, String.length_ofList]
    exact Plan.length_describeCommand_le command

/-! ### A row of two lines -/

/-- A source with a script of two lines as an argument. -/
def listSource : String := "base=\"debian\" run=[\"sh\",\"-c\",\"make\\nmake test\"]"

/-- Its declarations. -/
def listSpecification : Specification :=
  [.base ⟨1, 1⟩ ⟨"debian", none⟩,
    .instruction ⟨1, 15⟩ .run (.list ["sh", "-c", "make\nmake test"])]

/-- Its plan. -/
def listPlan : Realization :=
  ⟨[⟨⟨1, 1⟩, none, .base ⟨"debian", "12", Realization.sampleDigest, .empty⟩⟩,
    ⟨⟨1, 15⟩, none, .run (.exec ["sh", "-c", "make\nmake test"])⟩]⟩

theorem plan_listSource :
    ((ofLibrary Catalog.library).plan (.ok listSource.toUTF8) Realization.sampleCatalog).1
      = .ok listPlan := by
  have hspec : Specification.ofBytes listSource.toUTF8 = .ok listSpecification := by
    rw [Specification.ofBytes_toUTF8]
    with_unfolding_all rfl
  have horder : Realization.orderOf listSpecification = .ok [⟨0, by decide⟩, ⟨1, by decide⟩] := by
    cbv
  have hrealize : listSpecification.realize Catalog.library Realization.sampleCatalog
      = (.ok listPlan, Realization.sampleCatalog) := by
    rw [Specification.realize, Realization.realizing, horder]
    with_unfolding_all rfl
  rw [plan_eq_realize hspec, hrealize]

/-- The second row of its plan is broken, and the first is not. -/
theorem rows_of_listSource :
    ((ofLibrary Catalog.library).plan (.ok listSource.toUTF8) Realization.sampleCatalog).1
        = .ok listPlan ∧
      ∃ base run, listPlan.steps = [base, run] ∧ (∀ index, '\n' ∉ (Plan.row index base).toList) ∧
        (∀ index, '\n' ∈ (Plan.row index run).toList) ∧ (Plan.describe run.action).length ≤ 60 := by
  have hrows := plan_rows_break_iff plan_listSource
  obtain ⟨hbase, hrun⟩ := List.forall_mem_cons.mp hrows
  obtain ⟨hbreaks, hwidth⟩ := List.forall_mem_singleton.mp hrun
  refine ⟨plan_listSource, _, _, rfl, fun index hmem => ?_, fun index => ?_, hwidth _ rfl⟩
  · rcases (hbase.1 index).mp hmem with ⟨d, hd, hfeed⟩ | ⟨arguments, harguments, -⟩
    · cases hd
      revert hfeed
      decide
    · cases harguments
  · exact (hbreaks index).mpr (.inr ⟨_, rfl, by decide⟩)

/-- **A row that is no line.** The plan succeeds, and the row of its second step has a line feed, since
    the arguments are shown as they are. -/
theorem row_of_list_breaks :
    ((ofLibrary Catalog.library).plan (.ok listSource.toUTF8) Realization.sampleCatalog).1
        = .ok listPlan ∧
      ∃ step ∈ listPlan.steps, step.action = .run (.exec ["sh", "-c", "make\nmake test"]) ∧
        Plan.row 2 step = "   2  1:15     run        [sh, -c, make\nmake test]" ∧
        '\n' ∈ (Plan.row 2 step).toList := by
  have hrow : Plan.row 2 ⟨⟨1, 15⟩, none, .run (.exec ["sh", "-c", "make\nmake test"])⟩
      = "   2  1:15     run        [sh, -c, make\nmake test]" := by
    with_unfolding_all rfl
  refine ⟨plan_listSource, _, ?_, rfl, hrow, ?_⟩
  · simp [listPlan]
  · rw [hrow]
    decide

end Service

end ImageSpec

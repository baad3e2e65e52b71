import ImageSpec.Proofs.Builds
import ImageSpec.Proofs.Defects
import ImageSpec.Proofs.Extension
import ImageSpec.Proofs.Openings

namespace ImageSpec

/-!
# The base comes first

The base image is declared before everything else, but steps move whenever others come after them,
and a group is written where the first of those that wait for it stands.  The base by itself is a
specification already, and so its step stays in front of all that is declared behind it.

* `Realization.kind_of_ownAction` — the action of a declaration is of the kind that its keyword
  names.
* `Realization.exists_orderOf_base` — the order of the units starts with the base.
* `Realization.steps_eq_base_cons` — the steps of a realization are the base and others that are
  none.
* `Script.exists_written_of_linesAfter` — the lines of these others are no `FROM` lines.
* `Script.opensWithOnlyFrom_of_render` — the physical lines of a script that starts with the base.
* `Service.base_first_of_plan` — plans begin with the base, and scripts with a `FROM` line that is
  the only one.
-/

/-! ### Kinds of actions -/

/-- An instruction makes an action of its own kind. -/
theorem Keyword.kind_of_check {k : Keyword} {value : Value} {a : Action}
    (h : k.check value = .ok a) : a.kind = k.text := by
  cases k with
  | copy =>
    obtain ⟨sources, destination, -, -, rfl⟩ := exists_of_checkCopy h
    rfl
  | _ =>
    obtain ⟨_, -, rfl⟩ := Realization.map_eq_ok_iff.mp h
    rfl

/-- A block makes an action of its own kind. -/
theorem BlockKeyword.kind_of_check {k : BlockKeyword} {position : Position} {entries : List Entry}
    {a : Action} (h : k.check position entries = .ok a) : a.kind = k.text := by
  unfold check at h
  split at h
  · cases h
  · obtain ⟨pairs, -, rfl⟩ := Realization.map_eq_ok_iff.mp h
    cases k <;> rfl

/-- The kind of an action tells whether it is a base image. -/
theorem Action.base?_eq_none_iff {a : Action} : a.base? = none ↔ a.kind ≠ "base" := by
  cases a <;> simp [base?, kind]

/-- The keyword of a declaration tells whether it is a base image. -/
theorem Declaration.keyword_eq_base_iff {d : Declaration} :
    d.keyword = "base" ↔ d.isBase = true := by
  cases d with
  | instruction position k value => cases k <;> simp [keyword, isBase, Keyword.text]
  | block position k entries => cases k <;> simp [keyword, isBase, BlockKeyword.text]
  | _ => simp [keyword, isBase]

namespace Realization

variable {answer : Answers}

/-- **Kinds.** The action of a declaration is of the kind that its keyword names. -/
theorem kind_of_ownAction {d : Declaration} {a : Action} (h : ownAction answer d = some a) :
    a.kind = d.keyword := by
  cases d with
  | base position reference | dep position reference =>
    obtain ⟨_, -, rfl⟩ := Option.map_eq_some_iff.mp h
    rfl
  | instruction position keyword value =>
    exact Keyword.kind_of_check (toOption_eq_some_iff.mp h)
  | block position keyword entries =>
    exact BlockKeyword.kind_of_check (toOption_eq_some_iff.mp h)
  | step position name after body => cases h

/-! ### Steps -/

/-- A base image alone is in order. -/
theorem orderOf_base (position : Position) (reference : Reference) :
    orderOf [.base position reference] = .ok [⟨0, Nat.one_pos⟩] := by
  cbv

/-- **Orders.** Whatever is declared behind the base, the order of the units starts with the base,
    and the base does not come again. -/
theorem exists_orderOf_base {position : Position} {reference : Reference} {ds : Specification}
    {order : List (Fin (ds.length + 1))}
    (h : orderOf (.base position reference :: ds) = .ok order) :
    ∃ others, order = 0 :: others ∧ 0 ∉ others := by
  obtain ⟨others, rfl⟩ : [0] <+: order :=
    @map_kept_isPrefix_orderOf [.base position reference] ds _ order (orderOf_base _ _) h
  have hnodup : ([0] ++ others).Nodup :=
    (perm_of_orderOf h).nodup_iff.mpr (List.nodup_finRange _)
  exact ⟨others, rfl, (List.nodup_cons.mp hnodup).1⟩

/-- No step of a unit behind the base is a base. -/
theorem base?_of_ownSteps {d : Declaration} {steps : List Step} (hd : Admitted true [] d)
    (h : ownSteps answer d = some steps) : ∀ step ∈ steps, step.action.base? = none := by
  intro step hstep
  rw [ownSteps] at h
  obtain ⟨c, hc, hown⟩ := exists_of_mem_mapM h hstep
  have hkind := kind_of_ownAction (ownStep_eq_some_iff.mp hown).1
  have hbase : c.isBase = false := by
    cases hname : d.stepName? with
    | some name => exact hd.inner (by simp [hname]) c hc
    | none =>
      rw [Declaration.members_eq_singleton hname, List.mem_singleton] at hc
      rw [hc]
      exact hd.base
  rw [Action.base?_eq_none_iff, hkind, Ne, Declaration.keyword_eq_base_iff, hbase]
  exact Bool.false_ne_true

/-- A base has one step, in no group. -/
theorem exists_of_ownSteps_base {position : Position} {reference : Reference} {steps : List Step}
    (h : ownSteps answer (.base position reference) = some steps) :
    ∃ d, steps = [⟨position, none, .base d⟩] := by
  rw [ownSteps, mapM_eq_some_iff] at h
  change List.Forall₂ _ [Declaration.base position reference] steps at h
  cases h with
  | cons hstep hnil =>
    cases hnil
    obtain ⟨a, haction, rfl⟩ := Option.map_eq_some_iff.mp hstep
    obtain ⟨d, -, rfl⟩ := Option.map_eq_some_iff.mp haction
    exact ⟨d, rfl⟩

/-- **Steps.** The first step of a realization is the base, in no group, and no other one is a
    base. -/
theorem steps_eq_base_cons {spec : Specification} {r : Realization}
    (h : Fresh.realize answer spec = .ok r) (hne : spec ≠ []) :
    ∃ position d rest, r.steps = ⟨position, none, .base d⟩ :: rest ∧
      ∀ step ∈ rest, step.action.base? = none := by
  obtain ⟨-, -, -, hrules, -⟩ := realize_eq_ok_iff.mp h
  obtain ⟨order, horder, steps, hsteps, heq⟩ := exists_steps_of_realize h
  cases spec with
  | nil => exact absurd rfl hne
  | cons d ds =>
    obtain ⟨hbase, hrest⟩ := allAdmitted_iff.mp hrules
    obtain ⟨hadmitted, -⟩ := allAdmitted_true_iff.mp hrest
    obtain ⟨position, reference, rfl⟩ := Declaration.eq_base_of_isBase hbase
    obtain ⟨others, rfl, hothers⟩ := exists_orderOf_base horder
    -- the base has one step, and every unit behind it has its own
    obtain ⟨definition, hfirst⟩ := exists_of_ownSteps_base (hsteps 0)
    refine ⟨position, definition, others.flatMap steps, ?_, ?_⟩
    · rw [heq, List.flatMap_cons, hfirst]
      rfl
    · intro step hstep
      obtain ⟨i, hi, hmem⟩ := List.mem_flatMap.mp hstep
      obtain ⟨j, rfl⟩ := Fin.exists_succ_eq_of_ne_zero (fun hzero => hothers (hzero ▸ hi))
      exact base?_of_ownSteps (hadmitted _ (List.getElem_mem _)) (hsteps j.succ) step hmem

end Realization

/-! ### Lines -/

namespace Script

open Realization

variable {naming : Naming}

/-- An opening that no `FROM` line has. -/
def Opening.NotFrom (o : Opening) : Prop := ∃ c, o.first? = some c ∧ c ≠ 'F'

/-- No line of an action that is no base is opened as that of the base. -/
theorem notFrom_of_mem_openingsOfAction {a : Action} (ha : a.base? = none) :
    ∀ o ∈ openingsOfAction a, o.NotFrom := by
  have hnames : ∀ name ∈ instructions, name ≠ "FROM" →
      ∀ arguments, (Opening.instruction name arguments).NotFrom := by
    simp [instructions, Opening.NotFrom, Opening.first?]
  intro o ho
  obtain ⟨name, hname, arguments, rfl, hfrom⟩ := exists_instruction_of_mem_openingsOfAction a o ho
  exact hnames name hname (fun heq => hfrom heq ha) arguments

/-- A step that is no base and whose texts stand on one line each. -/
structure IsInner (step : Step) : Prop where
  base : step.action.base? = none
  pairs : step.action.OneLinePairs
  group : ∀ name, step.group = some name → '\n' ∉ name.toList

/-- The comment above a step comes out as prescribed, if there is one. -/
theorem exists_written_groupComment (previous : Option String) {group : Option String}
    (h : ∀ name, group = some name → '\n' ∉ name.toList) :
    ∃ os, List.Forall₂ Written os (groupComment previous group) ∧ ∀ o ∈ os, o.NotFrom := by
  unfold groupComment
  split
  · next name =>
    split
    · exact ⟨[], .nil, by simp⟩
    · have hfeed := h name rfl
      refine ⟨[.comment name], .cons (written_of_opens rfl (by simp [hfeed])) .nil, ?_⟩
      exact List.forall_mem_singleton.mpr ⟨'#', rfl, by decide⟩
  · exact ⟨[], .nil, by simp⟩

/-- **Lines of inner steps.** They come out as prescribed, and none of them is a `FROM` line. -/
theorem exists_written_of_linesAfter (hnaming : OneLineNames naming) {previous : Option String}
    {steps : List Step} {lines : List Line} (hsteps : ∀ step ∈ steps, IsInner step)
    (h : linesAfter naming previous steps = .ok lines) :
    ∃ os, List.Forall₂ Written os lines ∧ ∀ o ∈ os, o.NotFrom := by
  induction steps generalizing previous lines with
  | nil =>
    cases h
    exact ⟨[], .nil, by simp⟩
  | cons step steps ih =>
    obtain ⟨hstep, hrest⟩ := List.forall_mem_cons.mp hsteps
    obtain ⟨part, others, hpart, hothers, rfl⟩ := linesAfter_cons_eq_ok_iff.mp h
    obtain ⟨cs, hcs, hcomment⟩ := exists_written_groupComment previous hstep.group
    have hown := forall₂_written_actionLines hnaming hstep.pairs hpart
    obtain ⟨os, hos, hlines⟩ := ih hrest hothers
    refine ⟨cs ++ openingsOfAction step.action ++ os, ?_, ?_⟩
    · exact List.rel_append (List.rel_append hcs hown) hos
    · simp only [List.forall_mem_append]
      exact ⟨⟨hcomment, notFrom_of_mem_openingsOfAction hstep.base⟩, hlines⟩

/-! ### Scripts -/

/-- The physical lines of a script fall into those of its instructions and comments, in each of
    which every line but the last continues in the next.  The first of them opens with `FROM`, and
    no other does. -/
def OpensWithOnlyFrom (script : String) : Prop :=
  ∃ first others, script.toList = (first :: others).flatten.flatMap (· ++ ['\n']) ∧
    (∀ l ∈ (first :: others).flatten, '\n' ∉ l) ∧
    (∀ block ∈ first :: others, ∀ l ∈ block.dropLast, [' ', '\\'] <:+ l) ∧
    (∃ opened, first.head? = some opened ∧ "FROM ".toList <+: opened) ∧
    ∀ block ∈ others, ∃ opened, block.head? = some opened ∧ ¬ "FROM ".toList <+: opened

/-- Every line of a block but the last goes on in the next. -/
theorem continued_of_blocks {os : List Opening} {blocks : List (List (List Char))}
    (h : List.Forall₂ Block os blocks) :
    ∀ block ∈ blocks, ∀ l ∈ block.dropLast, [' ', '\\'] <:+ l := by
  induction h with
  | nil => simp
  | cons hblock _ ih => exact List.forall_mem_cons.mpr ⟨hblock.continued, ih⟩

/-- Blocks that are not prescribed as `FROM` lines do not open as such. -/
theorem not_from_of_blocks {os : List Opening} {blocks : List (List (List Char))}
    (h : List.Forall₂ Block os blocks) (hos : ∀ o ∈ os, o.NotFrom) :
    ∀ block ∈ blocks, ∃ opened, block.head? = some opened ∧ ¬ "FROM ".toList <+: opened := by
  intro block hblock
  obtain ⟨opened, hopened, c, hhead, hc⟩ := head?_of_blocks h hos block hblock
  refine ⟨opened, hopened, ?_⟩
  rintro ⟨rest, rfl⟩
  exact hc (Option.some.inj hhead).symm

/-- **Scripts.** A script whose first step is the base and whose other steps are inner ones opens
    with `FROM`, once. -/
theorem opensWithOnlyFrom_of_render (hnaming : OneLineNames naming) {position : Position}
    {d : Definition} {rest : List Step} {script : String} (hrest : ∀ step ∈ rest, IsInner step)
    (h : render naming (⟨position, none, .base d⟩ :: rest) = .ok script) :
    "FROM ".toList <+: script.toList ∧ OpensWithOnlyFrom script := by
  obtain ⟨lines, hlines, rfl⟩ := map_eq_ok_iff.mp h
  obtain ⟨part, others, hpart, hothers, rfl⟩ := linesAfter_cons_eq_ok_iff.mp hlines
  obtain ⟨os, hos, hfirst⟩ := exists_written_of_linesAfter hnaming hrest hothers
  obtain ⟨name, hname, rfl⟩ := map_eq_ok_iff.mp hpart
  have hfeed := lineFeed_not_mem_nameOf hnaming hname
  have hbase : Written (.instruction "FROM" []) (line "FROM" name) :=
    written_line (by decide) List.nil_prefix hfeed
  -- the base is one block in front of those of the inner steps
  obtain ⟨blocks, hblocks, hfeeds, htext⟩ := exists_blocks_of_written (.cons hbase hos)
  have hcontinued := continued_of_blocks hblocks
  have hscript : (text (line "FROM" name :: others)).toList
      = blocks.flatten.flatMap (· ++ ['\n']) := by
    rw [text, String.toList_ofList, htext]
  cases hblocks with
  | @cons _ first _ blocks hblock hblocks =>
    refine ⟨?_, first, blocks, hscript, hfeeds, hcontinued, ?_, not_from_of_blocks hblocks hfirst⟩
    · simp [text, groupComment, line]
    · obtain ⟨opened, hopened, hopens⟩ := hblock.opened
      exact ⟨opened, hopened, hopens⟩

end Script

namespace Realization

/-- Steps that come from a text have their names and texts on one line each. -/
theorem oneLine_of_mem_steps {answer : Answers} {source : List Char} {spec : Specification}
    {r : Realization} (hsource : Specification.ofChars source = .ok spec)
    (h : Fresh.realize answer spec = .ok r) {step : Step} (hstep : step ∈ r.steps) :
    step.action.OneLinePairs ∧ ∀ name, step.group = some name → '\n' ∉ name.toList := by
  obtain ⟨order, -, steps, hsteps, heq⟩ := exists_steps_of_realize h
  rw [heq] at hstep
  obtain ⟨i, -, hmem⟩ := List.mem_flatMap.mp hstep
  refine ⟨Script.oneLinePairs_of_ownSteps (hsteps i) step hmem, fun name hname => ?_⟩
  have hgroup : (spec.get i).stepName? = some name := by
    rw [← hname]
    exact (Script.group_of_ownSteps (hsteps i) step hmem).symm
  have hword := isWord_of_ofChars hsource name
    (Specification.mem_stepNames.mpr ⟨spec.get i, List.get_mem spec i, hgroup⟩)
  exact hword.lineFeed_not_mem

end Realization

namespace Service

open Realization

variable {σ : Type}

/-- A plan is made of a specification that was read. -/
theorem of_plan_eq_ok {l : Library σ} {source : Source} {s : σ} {r : Realization}
    (h : ((ofLibrary l).plan source s).1 = .ok r) :
    ∃ bytes spec, source = .ok bytes ∧ Specification.ofBytes bytes = .ok spec ∧
      (spec.realize l s).1 = .ok r := by
  cases source with
  | error fault => cases h
  | ok bytes =>
    have hread : (ofLibrary l).read (.ok bytes)
        = (Specification.ofBytes bytes).mapError .malformed := rfl
    rw [plan, hread] at h
    cases hspec : Specification.ofBytes bytes with
    | error e =>
      rw [hspec] at h
      cases h
    | ok spec =>
      rw [hspec] at h
      exact ⟨bytes, spec, rfl, hspec, h⟩

/-- What was read is realized. -/
theorem plan_eq_realize {l : Library σ} {bytes : ByteArray} {spec : Specification} {s : σ}
    (h : Specification.ofBytes bytes = .ok spec) :
    (ofLibrary l).plan (.ok bytes) s = spec.realize l s := by
  have hread : (ofLibrary l).read (.ok bytes) = .ok spec :=
    congrArg (Except.mapError Error.malformed) h
  rw [plan, hread]
  rfl

/-- A specification that is read from bytes is read from the text that they stand for. -/
theorem exists_decode_of_ofBytes {bytes : ByteArray} {spec : Specification}
    (h : Specification.ofBytes bytes = .ok spec) :
    ∃ source, Text.decode bytes = ⟨source, none⟩ ∧ Specification.ofChars source = .ok spec := by
  unfold Specification.ofBytes at h
  split at h
  · next source hdecode => exact ⟨source, hdecode, h⟩
  · cases h

/-- **The base comes first.** Over every library, let a source have a plan with at least one step.
    The first step of the plan is a base in no group, and no other step is a base.  And if scripts
    name definitions in the usual way, then whenever the source is built, from whatever state of the
    library, the script begins with `FROM`, and of all its physical lines that open an instruction
    or a comment only the first is a `FROM` line. -/
theorem base_first_of_plan {l : Library σ} {source : Source} {s : σ} {r : Realization}
    (hplan : ((ofLibrary l).plan source s).1 = .ok r) (hne : r.steps ≠ []) :
    (∃ position d rest, r.steps = ⟨position, none, .base d⟩ :: rest ∧
      ∀ step ∈ rest, step.action.base? = none) ∧
    (l.canonical = Definition.canonical → ∀ t sink sink',
      ((ofLibrary l).build source sink t).1 = (.ok (), sink') →
        ∃ script, sink'.received = sink.received ++ script ∧
          "FROM ".toList <+: script.toList ∧ Script.OpensWithOnlyFrom script) := by
  obtain ⟨bytes, spec, rfl, hspec, hr⟩ := of_plan_eq_ok hplan
  have hfilled : spec ≠ [] := by
    rintro rfl
    cases hr
    exact hne rfl
  constructor
  · obtain ⟨answer, hfresh⟩ := exists_fresh_eq_realize l spec s
    rw [hr] at hfresh
    exact steps_eq_base_cons hfresh.symm hfilled
  · intro hcanonical t sink sink' hbuild
    obtain ⟨spec', r', script, hspec', hr', hscript, hreceived⟩ :=
      of_build_eq_ok (Prod.ext hbuild rfl)
    obtain rfl : spec = spec' := Except.ok.inj (hspec.symm.trans hspec')
    -- the library may have answered otherwise than for the plan
    obtain ⟨answer, hfresh⟩ := exists_fresh_eq_realize l spec t
    rw [hr'] at hfresh
    obtain ⟨position, d, rest, hsteps, hrest⟩ := steps_eq_base_cons hfresh.symm hfilled
    obtain ⟨chars, -, hchars⟩ := exists_decode_of_ofBytes hspec
    have hinner : ∀ step ∈ rest, Script.IsInner step := by
      intro step hstep
      have hmem : step ∈ r'.steps := by
        rw [hsteps]
        exact List.mem_cons_of_mem _ hstep
      obtain ⟨hpairs, hgroup⟩ := oneLine_of_mem_steps hchars hfresh.symm hmem
      exact ⟨hrest step hstep, hpairs, hgroup⟩
    have hnaming : Script.OneLineNames l.canonical := by
      rw [hcanonical]
      exact fun d name => Definition.lineFeed_not_mem_canonical
    rw [hsteps] at hscript
    exact ⟨script, hreceived, Script.opensWithOnlyFrom_of_render hnaming hinner hscript⟩

/-! ### A step that waits -/

/-- A source whose first step waits for its second. -/
def waitingSource : String :=
  "base=\"debian\" step web after cc\x7bexpose=80\x7d step cc\x7benv\x7bCC=\"gcc\"\x7d\x7d"

/-- Its declarations. -/
def waitingSpecification : Specification :=
  [.base ⟨1, 1⟩ ⟨"debian", none⟩,
    .step ⟨1, 15⟩ "web" [⟨⟨1, 30⟩, "cc"⟩] [.instruction ⟨1, 33⟩ .expose (.integer 80)],
    .step ⟨1, 44⟩ "cc" [] [.block ⟨1, 52⟩ .env [⟨⟨1, 56⟩, "CC", "gcc"⟩]]]

/-- Its plan: the base stays in front when the second step is moved before the first. -/
def waitingPlan : Realization :=
  ⟨[⟨⟨1, 1⟩, none, .base ⟨"debian", "12", sampleDigest, .empty⟩⟩,
    ⟨⟨1, 52⟩, some "cc", .env [("CC", "gcc")]⟩,
    ⟨⟨1, 33⟩, some "web", .expose 80⟩]⟩

/-- Its script. -/
def waitingScript : String :=
  "FROM debian:12@sha512:ab12\n# step cc\nENV CC=\"gcc\"\n# step web\nEXPOSE 80\n"

theorem ofBytes_waitingSource :
    Specification.ofBytes waitingSource.toUTF8 = .ok waitingSpecification := by
  rw [Specification.ofBytes_toUTF8]
  with_unfolding_all rfl

theorem realize_waitingSpecification :
    waitingSpecification.realize Catalog.library sampleCatalog
      = (.ok waitingPlan, sampleCatalog) := by
  have horder : orderOf waitingSpecification
      = .ok [⟨0, by decide⟩, ⟨2, by decide⟩, ⟨1, by decide⟩] := by
    cbv
  rw [Specification.realize, realizing, horder]
  with_unfolding_all rfl

theorem plan_waitingSource :
    ((ofLibrary Catalog.library).plan (.ok waitingSource.toUTF8) sampleCatalog).1
      = .ok waitingPlan := by
  rw [plan_eq_realize ofBytes_waitingSource, realize_waitingSpecification]

theorem build_waitingSource :
    ((ofLibrary Catalog.library).build (.ok waitingSource.toUTF8) {} sampleCatalog).1
      = (.ok (), { received := waitingScript }) := by
  have hscript : Script.render Definition.canonical waitingPlan.steps = .ok waitingScript := by
    with_unfolding_all rfl
  have hemit : emitScript Definition.canonical waitingPlan {}
      = (.ok (), { received := waitingScript }) := by
    rw [emitScript, hscript]
    rfl
  rw [build_eq_buildRead, ofBytes_waitingSource, buildRead, realize_waitingSpecification]
  exact hemit

/-- The base image is first in its plan and in its script. -/
theorem base_first_of_waitingSource :
    ((ofLibrary Catalog.library).plan (.ok waitingSource.toUTF8) sampleCatalog).1
        = .ok waitingPlan ∧
      (∃ position d rest, waitingPlan.steps = ⟨position, none, .base d⟩ :: rest ∧
        ∀ step ∈ rest, step.action.base? = none) ∧
      "FROM ".toList <+: waitingScript.toList ∧ Script.OpensWithOnlyFrom waitingScript := by
  obtain ⟨hsteps, hscripts⟩ := base_first_of_plan plan_waitingSource (List.cons_ne_nil _ _)
  obtain ⟨script, hreceived, hscript⟩ := hscripts rfl _ _ _ build_waitingSource
  rw [String.empty_append] at hreceived
  cases hreceived
  exact ⟨plan_waitingSource, hsteps, hscript⟩

end Service

end ImageSpec

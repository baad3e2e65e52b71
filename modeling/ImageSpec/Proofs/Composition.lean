import ImageSpec.Proofs.Legal
import ImageSpec.Script
import Mathlib.Data.List.GetD

namespace ImageSpec

open Realization

/-!
# Scripts unit by unit

The order of the units moves whole units, and the comments of a script depend on the step before.
Nevertheless steps and script are put together from what each declaration gives by itself.

* `heading`, `ownLines` — the comment and the lines of one declaration at the top level, which
  depend on it and on the library alone.
* `linesAfter_append_eq_ok_iff` — the lines of a group are those of its steps under one comment.
* `linesAfter_units_eq_ok_iff` — the lines of units that differ in their names are those of each.
* `exists_steps_of_realize`, `ofSteps_eq_ok_iff` — the steps and the lines of a realization, from its
  units in their order.
-/

namespace Script

/-! ### One declaration -/

/-- The comment above a group. -/
def heading (group : Option String) : List Line :=
  group.toList.map fun name => "# step ".toList ++ name.toList

/-- The lines of a declaration at the top level: the comment if it is a step, and the lines of its
    actions in order. -/
def ownLines (naming : Naming) (answer : Answers) (d : Declaration) : Option (List Line) := do
  let steps ← ownSteps answer d
  let parts ← steps.mapM fun step => (actionLines naming step.action).toOption
  return heading d.stepName? ++ parts.flatten

variable {naming : Naming} {answer : Answers}

/-- The lines of a declaration are those of its steps, under its heading. -/
theorem ownLines_eq_some_iff {d : Declaration} {steps : List Step} {lines : List Line}
    (h : ownSteps answer d = some steps) :
    ownLines naming answer d = some lines ↔ ∃ parts,
      List.Forall₂ (fun step part => actionLines naming step.action = .ok part) steps parts ∧
        lines = heading d.stepName? ++ parts.flatten := by
  simp only [ownLines, h, Option.bind_eq_bind, Option.bind_some, Option.bind_eq_some_iff,
    mapM_eq_some_iff, toOption_eq_some_iff]
  constructor
  · rintro ⟨parts, hparts, heq⟩
    exact ⟨parts, hparts, (Option.some.inj heq).symm⟩
  · rintro ⟨parts, hparts, rfl⟩
    exact ⟨parts, hparts, rfl⟩

/-! ### Comments -/

/-- Within a group there is no comment. -/
theorem groupComment_self (group : Option String) : groupComment group group = [] := by
  cases group <;> simp [groupComment]

/-- A group other than that of the step before gets its comment. -/
theorem groupComment_eq_heading {previous group : Option String}
    (h : ∀ name, group = some name → previous ≠ some name) :
    groupComment previous group = heading group := by
  cases group with
  | none => rfl
  | some name => simp [groupComment, heading, h name rfl]

/-! ### Groups -/

/-- The lines of steps are those of the first, under a comment if its group is new, and those of the
    others. -/
theorem linesAfter_cons_eq_ok_iff {previous : Option String} {step : Step} {rest : List Step}
    {lines : List Line} :
    linesAfter naming previous (step :: rest) = .ok lines ↔ ∃ part others,
      actionLines naming step.action = .ok part ∧ linesAfter naming step.group rest = .ok others ∧
        lines = groupComment previous step.group ++ part ++ others := by
  rw [linesAfter]
  cases hpart : actionLines naming step.action with
  | error fault => simp
  | ok part =>
    simp only [map_eq_ok_iff]
    constructor
    · rintro ⟨others, hothers, rfl⟩
      exact ⟨part, others, rfl, hothers, rfl⟩
    · rintro ⟨_, others, hpart', hothers, rfl⟩
      cases hpart'
      exact ⟨others, hothers, rfl⟩

/-- A step in front of a row of steps of its group. -/
theorem linesAfter_cons_append_eq_ok_iff {previous : Option String} {step : Step}
    {steps rest : List Step} {lines : List Line}
    (hrow : ∀ lines, linesAfter naming step.group (steps ++ rest) = .ok lines ↔ ∃ parts others,
      List.Forall₂ (fun step part => actionLines naming step.action = .ok part) steps parts ∧
        linesAfter naming step.group rest = .ok others ∧ lines = parts.flatten ++ others) :
    linesAfter naming previous (step :: steps ++ rest) = .ok lines ↔ ∃ parts others,
      List.Forall₂ (fun step part => actionLines naming step.action = .ok part) (step :: steps)
        parts ∧ linesAfter naming step.group rest = .ok others ∧
        lines = groupComment previous step.group ++ parts.flatten ++ others := by
  rw [List.cons_append, linesAfter_cons_eq_ok_iff]
  simp only [hrow]
  constructor
  · rintro ⟨part, _, hpart, ⟨parts, others, hparts, hothers, rfl⟩, rfl⟩
    exact ⟨part :: parts, others, .cons hpart hparts, hothers, by simp⟩
  · rintro ⟨_, others, hparts, hothers, rfl⟩
    cases hparts with
    | @cons _ part _ parts hpart hparts =>
      exact ⟨part, _, hpart, ⟨parts, others, hparts, hothers, rfl⟩, by simp⟩

/-- Within a group there are no comments. -/
theorem linesAfter_same_append_eq_ok_iff {group : Option String} {steps rest : List Step}
    {lines : List Line} (hgroup : ∀ step ∈ steps, step.group = group) :
    linesAfter naming group (steps ++ rest) = .ok lines ↔ ∃ parts others,
      List.Forall₂ (fun step part => actionLines naming step.action = .ok part) steps parts ∧
        linesAfter naming group rest = .ok others ∧ lines = parts.flatten ++ others := by
  induction steps generalizing lines with
  | nil =>
    constructor
    · intro h
      exact ⟨[], lines, .nil, h, rfl⟩
    · rintro ⟨parts, others, hparts, hothers, rfl⟩
      cases hparts
      exact hothers
  | cons step steps ih =>
    obtain ⟨rfl, hsteps⟩ := List.forall_mem_cons.mp hgroup
    rw [linesAfter_cons_append_eq_ok_iff fun lines => ih hsteps, groupComment_self]
    rfl

/-- **Groups.** The lines of a group stand in a row, under the comment that the step before calls
    for. -/
theorem linesAfter_append_eq_ok_iff {previous group : Option String} {steps rest : List Step}
    {lines : List Line} (hne : steps ≠ []) (hgroup : ∀ step ∈ steps, step.group = group) :
    linesAfter naming previous (steps ++ rest) = .ok lines ↔ ∃ parts others,
      List.Forall₂ (fun step part => actionLines naming step.action = .ok part) steps parts ∧
        linesAfter naming group rest = .ok others ∧
        lines = groupComment previous group ++ parts.flatten ++ others := by
  cases steps with
  | nil => exact absurd rfl hne
  | cons step steps =>
    obtain ⟨rfl, hsteps⟩ := List.forall_mem_cons.mp hgroup
    exact linesAfter_cons_append_eq_ok_iff fun lines => linesAfter_same_append_eq_ok_iff hsteps

/-! ### Units -/

/-- The steps of a declaration are in its group. -/
theorem group_of_ownSteps {d : Declaration} {steps : List Step}
    (h : ownSteps answer d = some steps) : ∀ step ∈ steps, step.group = d.stepName? := by
  rw [ownSteps, mapM_eq_some_iff] at h
  generalize d.members = members at h
  induction h with
  | nil => simp
  | cons hstep _ ih =>
    exact List.forall_mem_cons.mpr ⟨(ownStep_eq_some_iff.mp hstep).2.2, ih⟩

/-- A declaration that has members has steps. -/
theorem ownSteps_ne_nil {d : Declaration} {steps : List Step} (h : ownSteps answer d = some steps)
    (hd : d.members ≠ []) : steps ≠ [] := by
  rw [ownSteps, mapM_eq_some_iff] at h
  intro hnil
  rw [hnil, List.forall₂_nil_right_iff] at h
  exact hd h

/-- **Units.** Where no two steps share a name, the lines of all units are the lines that each of
    them has by itself. -/
theorem linesAfter_units_eq_ok_iff {previous : Option String} {ds : Specification}
    {units : List (List Step)} {lines : List Line}
    (hunits : List.Forall₂ (fun d steps => ownSteps answer d = some steps) ds units)
    (hmembers : ∀ d ∈ ds, d.members ≠ []) (hnames : ds.stepNames.Nodup)
    (hprevious : ∀ name ∈ ds.stepNames, previous ≠ some name) :
    linesAfter naming previous units.flatten = .ok lines ↔ ∃ parts,
      List.Forall₂ (fun d part => ownLines naming answer d = some part) ds parts ∧
        lines = parts.flatten := by
  induction hunits generalizing previous lines with
  | nil =>
    constructor
    · intro h
      cases h
      exact ⟨[], .nil, rfl⟩
    · rintro ⟨_, hparts, rfl⟩
      cases hparts
      rfl
  | @cons d steps ds units hd hunits ih =>
    obtain ⟨hmember, hmembers⟩ := List.forall_mem_cons.mp hmembers
    rw [stepNames_cons] at hnames hprevious
    obtain ⟨-, hnames, hdiffer⟩ := List.nodup_append.mp hnames
    obtain ⟨hown, -⟩ := List.forall_mem_append.mp hprevious
    -- no later unit has the name of this one
    have hnext : ∀ name ∈ Specification.stepNames ds, d.stepName? ≠ some name := by
      intro name hname heq
      exact hdiffer name (by simp [heq]) name hname rfl
    have hcomment : groupComment previous d.stepName? = heading d.stepName? :=
      groupComment_eq_heading fun name heq => hown name (by simp [heq])
    rw [List.flatten_cons,
      linesAfter_append_eq_ok_iff (ownSteps_ne_nil hd hmember) (group_of_ownSteps hd), hcomment]
    simp only [ih hmembers hnames hnext]
    constructor
    · rintro ⟨own, _, hown, ⟨parts, hparts, rfl⟩, rfl⟩
      refine ⟨_ :: parts, .cons ((ownLines_eq_some_iff hd).mpr ⟨own, hown, rfl⟩) hparts, rfl⟩
    · rintro ⟨_, hparts, rfl⟩
      cases hparts with
      | cons hfirst hparts =>
        obtain ⟨own, hown, rfl⟩ := (ownLines_eq_some_iff hd).mp hfirst
        exact ⟨own, _, hown, ⟨_, hparts, rfl⟩, rfl⟩

end Script

namespace Realization

variable {answer : Answers} {spec : Specification}

/-! ### Realizations -/

/-- Declarations that keep the rules one after the other have different names, and each has
    members. -/
theorem AllAdmitted.nodup_and_members (h : AllAdmitted false [] spec) :
    spec.stepNames.Nodup ∧ ∀ d ∈ spec, d.members ≠ [] := by
  cases spec with
  | nil => exact ⟨List.nodup_nil, by simp⟩
  | cons d rest =>
    obtain ⟨hbase, hrest⟩ := allAdmitted_iff.mp h
    obtain ⟨hrules, hnodup, -⟩ := allAdmitted_true_iff.mp hrest
    obtain ⟨position, reference, rfl⟩ := Declaration.eq_base_of_isBase hbase
    rw [stepNames_cons]
    refine ⟨hnodup, List.forall_mem_cons.mpr ⟨by simp [Declaration.members], ?_⟩⟩
    exact fun e he => (hrules e he).members

/-- The steps of a realization are those of its units in their order. -/
theorem exists_steps_of_realize {r : Realization} (h : Fresh.realize answer spec = .ok r) :
    ∃ order, orderOf spec = .ok order ∧ ∃ steps : Fin spec.length → List Step,
      (∀ i, ownSteps answer (spec.get i) = some (steps i)) ∧ r.steps = order.flatMap steps := by
  obtain ⟨units, order, hunits, -, horder, rfl⟩ := realize_eq_ok_iff.mp h
  refine ⟨order, horder, fun i => units.getD i.val [], fun i => ?_, rfl⟩
  have hi : i.val < units.length := hunits.length_eq ▸ i.isLt
  show ownSteps answer (spec.get i) = some (units.getD i.val [])
  rw [List.getD_eq_getElem _ _ hi]
  exact hunits.get i.isLt hi

/-- The declarations in the order of the units are those of the specification. -/
theorem map_get_perm {order : List (Fin spec.length)} (h : orderOf spec = .ok order) :
    (order.map spec.get).Perm spec := by
  have hperm := (perm_of_orderOf h).map spec.get
  rwa [List.map_get_finRange] at hperm

/-- In the order of the units, the declarations still have different names, and each has members and
    its own steps. -/
theorem ordered_units {order : List (Fin spec.length)} {steps : Fin spec.length → List Step}
    (hrules : AllAdmitted false [] spec) (horder : orderOf spec = .ok order)
    (hsteps : ∀ i, ownSteps answer (spec.get i) = some (steps i)) :
    List.Forall₂ (fun d own => ownSteps answer d = some own) (order.map spec.get)
        (order.map steps) ∧
      (∀ d ∈ order.map spec.get, d.members ≠ []) ∧
      (Specification.stepNames (order.map spec.get)).Nodup := by
  obtain ⟨hnodup, hmembers⟩ := hrules.nodup_and_members
  have hperm := map_get_perm horder
  refine ⟨?_, fun d hd => hmembers d (hperm.mem_iff.mp hd), ?_⟩
  · rw [List.forall₂_map_left_iff, List.forall₂_map_right_iff, List.forall₂_same]
    exact fun i _ => hsteps i
  · exact (hperm.filterMap _).nodup_iff.mpr hnodup

/-- What a function gives on a list is the image of the list. -/
theorem exists_map_of_forall₂ {α β : Type} [Inhabited β] {f : α → Option β} {xs : List α}
    {ys : List β} (h : List.Forall₂ (fun x y => f x = some y) xs ys) :
    ∃ g : α → β, (∀ x ∈ xs, f x = some (g x)) ∧ ys = xs.map g := by
  refine ⟨fun x => (f x).getD default, ?_⟩
  induction h with
  | nil => simp
  | cons hy _ ih =>
    obtain ⟨hall, heq⟩ := ih
    exact ⟨List.forall_mem_cons.mpr ⟨by simp [hy], hall⟩, by simp [hy, ← heq]⟩

/-- The lines of a realization are those of its units in their order. -/
theorem ofSteps_eq_ok_iff {naming : Script.Naming} {order : List (Fin spec.length)}
    {steps : Fin spec.length → List Step} {lines : List Script.Line}
    (hrules : AllAdmitted false [] spec) (horder : orderOf spec = .ok order)
    (hsteps : ∀ i, ownSteps answer (spec.get i) = some (steps i)) :
    Script.ofSteps naming (order.flatMap steps) = .ok lines ↔
      ∃ own : Fin spec.length → List Script.Line,
        (∀ i, Script.ownLines naming answer (spec.get i) = some (own i)) ∧
          lines = order.flatMap own := by
  obtain ⟨hunits, hmembers, hnames⟩ := ordered_units hrules horder hsteps
  rw [Script.ofSteps, List.flatMap_def,
    Script.linesAfter_units_eq_ok_iff hunits hmembers hnames (by simp)]
  constructor
  · rintro ⟨parts, hparts, rfl⟩
    -- the lines of a unit depend on its place alone, so that the parts are a function of the places
    rw [List.forall₂_map_left_iff] at hparts
    obtain ⟨own, hown, rfl⟩ := exists_map_of_forall₂ hparts
    refine ⟨own, fun i => hown i ?_, rfl⟩
    exact (perm_of_orderOf horder).mem_iff.mpr (List.mem_finRange i)
  · rintro ⟨own, hown, rfl⟩
    refine ⟨order.map own, ?_, rfl⟩
    rw [List.forall₂_map_left_iff, List.forall₂_map_right_iff, List.forall₂_same]
    exact fun i _ => hown i

/-- The lines of the sample: the step `tools` stands before `serve`, which asks for it. -/
def sampleLines : List Script.Line :=
  ["FROM debian:12@sha512:ab12", "# step tools", "COPY --from=node:20.1.0@sha512:ab12 / /",
    "ENV CC=\"gcc\"", "# step serve", "EXPOSE 80"].map String.toList

theorem ofSteps_sampleRealization :
    Script.ofSteps Catalog.library.canonical sampleRealization.steps = .ok sampleLines := by
  rfl

end Realization

end ImageSpec

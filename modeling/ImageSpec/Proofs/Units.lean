import ImageSpec.Proofs.Fresh
import Mathlib.Data.List.Forall2

namespace ImageSpec

/-!
# What each declaration contributes

* `ownSteps answer d` — the steps of one declaration at the top level, as they follow from the
  declaration and the answers to its references alone.
* `Admitted` — the rules that such a declaration keeps, given what came before it.
* `units_eq_ok_iff` — units are realized if and only if each keeps the rules and has steps of its
  own, and these are the result.
-/

namespace Declaration

/-- The declarations that a unit is made of: the body of a step, or the declaration itself. -/
def members : Declaration → List Declaration
  | step _ _ _ body => body
  | d => [d]

end Declaration

namespace Realization

/-- The action of a declaration by itself; a step has none. -/
def ownAction (answer : Answers) : Declaration → Option Action
  | .base _ reference => (answer reference).toOption.map .base
  | .dep _ reference => (answer reference).toOption.map .dep
  | .instruction _ keyword value => (keyword.check value).toOption
  | .block position keyword entries => (keyword.check position entries).toOption
  | .step _ _ _ _ => none

/-- The step of a declaration in a group: its action, with its position and the group. -/
def ownStep (answer : Answers) (group : Option String) (d : Declaration) : Option Step :=
  (ownAction answer d).map fun action => ⟨d.position, group, action⟩

/-- The steps of a declaration at the top level: one for each of its members, in order, in the group
    of the step that it is. -/
def ownSteps (answer : Answers) (d : Declaration) : Option (List Step) :=
  d.members.mapM (ownStep answer d.stepName?)

/-- The rules that a declaration at the top level keeps, where `seenBase` says whether a base image
    came before it and `names` are the names of the steps that came before it. -/
structure Admitted (seenBase : Bool) (names : List String) (d : Declaration) : Prop where
  base : d.isBase = !seenBase
  name : ∀ name, d.stepName? = some name → name ∉ names
  members : d.members ≠ []
  inner : d.stepName? ≠ none → ∀ c ∈ d.members, c.isBase = false

/-- The rules that declarations keep one after the other. -/
def AllAdmitted : Bool → List String → List Declaration → Prop
  | _, _, [] => True
  | seenBase, names, d :: rest =>
    Admitted seenBase names d ∧
      AllAdmitted (seenBase || d.isBase) (d.stepName?.toList ++ names) rest

/-! ### Results of checks -/

theorem toOption_eq_some_iff {ε α : Type} {x : Except ε α} {a : α} :
    x.toOption = some a ↔ x = .ok a := by
  cases x <;> simp [Except.toOption]

theorem mapError_eq_ok_iff {ε ε' α : Type} {x : Except ε α} {f : ε → ε'} {a : α} :
    x.mapError f = .ok a ↔ x = .ok a := by
  cases x <;> simp [Except.mapError]

theorem map_eq_ok_iff {ε α β : Type} {x : Except ε α} {f : α → β} {b : β} :
    x.map f = .ok b ↔ ∃ a, x = .ok a ∧ f a = b := by
  cases x <;> simp [Except.map]

theorem map_eq_error_iff {ε α β : Type} {x : Except ε α} {f : α → β} {e : ε} :
    x.map f = .error e ↔ x = .error e := by
  cases x <;> simp [Except.map]

theorem bind_eq_ok_iff {ε α β : Type} {x : Except ε α} {f : α → Except ε β} {b : β} :
    (x >>= f) = .ok b ↔ ∃ a, x = .ok a ∧ f a = .ok b := by
  cases x <;> simp [bind, Except.bind]

/-- A function is defined on all of a list exactly when it is on each element. -/
theorem mapM_eq_some_iff {α β : Type} {f : α → Option β} {xs : List α} {ys : List β} :
    xs.mapM f = some ys ↔ List.Forall₂ (fun x y => f x = some y) xs ys := by
  induction xs generalizing ys with
  | nil => simp [eq_comm]
  | cons x xs ih =>
    rw [List.mapM_cons]
    cases ys with
    | nil => simp [Option.bind_eq_some_iff]
    | cons y ys => simp [Option.bind_eq_some_iff, List.forall₂_cons, ← ih]

/-! ### One declaration -/

variable {answer : Answers} {seenBase : Bool} {names : List String}

/-- A definition is found where its reference has an answer. -/
theorem definition_map_eq_ok_iff {α : Type} {position : Position} {r : Reference}
    {f : Definition → α} {a : α} :
    (Fresh.definition answer position r).map f = .ok a
      ↔ (answer r).toOption.map f = some a := by
  unfold Fresh.definition
  cases answer r <;> simp [Except.mapError, Except.map, Except.toOption]

/-- Behind the base image, the rest decides. -/
theorem afterBase_eq_ok_iff {α : Type} {d : Declaration} {x : Except Error α} {a : α} :
    Fresh.afterBase seenBase d x = .ok a ↔ seenBase = true ∧ x = .ok a := by
  unfold Fresh.afterBase Fresh.fault
  cases seenBase <;> simp

/-- A declaration is realized if it has an action of its own and a base image stands only at the top
    level and before everything else. -/
theorem action_eq_ok_iff {group : Option String} {d : Declaration} {a : Action} :
    Fresh.action answer seenBase group d = .ok a ↔
      ownAction answer d = some a ∧ d.isBase = !seenBase ∧ (d.isBase = true → group = none) := by
  cases d with
  | base position reference =>
    cases group <;> cases seenBase <;>
      simp [Fresh.action, Fresh.fault, ownAction, Declaration.isBase, definition_map_eq_ok_iff]
  | dep position reference =>
    cases seenBase <;>
      simp [Fresh.action, ownAction, Declaration.isBase, afterBase_eq_ok_iff,
        definition_map_eq_ok_iff]
  | instruction position keyword value | block position keyword entries =>
    cases seenBase <;>
      simp [Fresh.action, ownAction, Declaration.isBase, afterBase_eq_ok_iff, mapError_eq_ok_iff,
        toOption_eq_some_iff]
  | step position name after body => simp [Fresh.action, Fresh.fault, ownAction]

/-! ### Units -/

/-- The step of a declaration has its action, its position and its group. -/
theorem ownStep_eq_some_iff {group : Option String} {d : Declaration} {step : Step} :
    ownStep answer group d = some step ↔
      ownAction answer d = some step.action ∧ step.position = d.position ∧ step.group = group := by
  unfold ownStep
  obtain ⟨position, group', action⟩ := step
  rw [Option.map_eq_some_iff]
  constructor
  · rintro ⟨a, ha, heq⟩
    cases heq
    exact ⟨ha, rfl, rfl⟩
  · rintro ⟨ha, rfl, rfl⟩
    exact ⟨action, ha, rfl⟩

/-- The body of a step behind the base image is realized if no base image is in it and each of its
    declarations has an action. -/
theorem steps_eq_ok_iff {name : String} {ds : List Declaration} {steps : List Step} :
    Fresh.steps answer (some name) true ds = .ok steps ↔
      ds.mapM (ownStep answer (some name)) = some steps ∧ ∀ c ∈ ds, c.isBase = false := by
  rw [mapM_eq_some_iff]
  induction ds generalizing steps with
  | nil =>
    constructor
    · intro h
      cases h
      exact ⟨.nil, by simp⟩
    · rintro ⟨h, -⟩
      cases h
      rfl
  | cons d rest ih =>
    rw [Fresh.steps, Bool.true_or]
    simp only [bind_eq_ok_iff, action_eq_ok_iff, ih, List.forall_mem_cons]
    constructor
    · rintro ⟨action, ⟨haction, hbase, -⟩, steps', ⟨hsteps, hrest⟩, heq⟩
      cases heq
      exact ⟨.cons (ownStep_eq_some_iff.mpr ⟨haction, rfl, rfl⟩) hsteps, hbase, hrest⟩
    · rintro ⟨hsteps, hbase, hrest⟩
      cases hsteps with
      | @cons _ step _ steps' hstep hsteps =>
        obtain ⟨haction, hposition, hgroup⟩ := ownStep_eq_some_iff.mp hstep
        refine ⟨step.action, ⟨haction, hbase, by simp [hbase]⟩, steps', ⟨hsteps, hrest⟩, ?_⟩
        rw [← hposition, ← hgroup]
        rfl

/-- A declaration that is no step is realized if it has an action and is the base image exactly when
    none came before. -/
theorem steps_singleton_eq_ok_iff {d : Declaration} {steps : List Step} :
    Fresh.steps answer none seenBase [d] = .ok steps ↔
      [d].mapM (ownStep answer none) = some steps ∧ d.isBase = !seenBase := by
  rw [mapM_eq_some_iff]
  simp only [Fresh.steps, bind_eq_ok_iff, action_eq_ok_iff]
  constructor
  · rintro ⟨action, ⟨haction, hbase, -⟩, steps', hnil, heq⟩
    cases hnil
    cases heq
    exact ⟨.cons (ownStep_eq_some_iff.mpr ⟨haction, rfl, rfl⟩) .nil, hbase⟩
  · rintro ⟨hsteps, hbase⟩
    cases hsteps with
    | @cons _ step _ _ hstep hnil =>
      cases hnil
      obtain ⟨haction, hposition, hgroup⟩ := ownStep_eq_some_iff.mp hstep
      refine ⟨step.action, ⟨haction, hbase, fun _ => trivial⟩, [], rfl, ?_⟩
      rw [← hposition, ← hgroup]
      rfl

/-- A declaration that is no step keeps the rules if it is the base image exactly when none came
    before. -/
theorem admitted_iff_of_stepName?_eq_none {d : Declaration} (h : d.stepName? = none) :
    Admitted seenBase names d ↔ d.isBase = !seenBase := by
  constructor
  · exact fun hd => hd.base
  · intro hbase
    refine ⟨hbase, by simp [h], ?_, fun hne => absurd h hne⟩
    cases d <;> simp_all [Declaration.members, Declaration.stepName?]

/-- A unit is realized exactly when it keeps the rules and has steps of its own. -/
theorem unit_eq_ok_iff {d : Declaration} {steps : List Step} :
    Fresh.unit answer seenBase names d = .ok steps ↔
      ownSteps answer d = some steps ∧ Admitted seenBase names d := by
  cases d with
  | step position name after body =>
    simp only [Fresh.unit, afterBase_eq_ok_iff]
    constructor
    · rintro ⟨rfl, h⟩
      split at h
      · cases h
      · split at h
        · cases h
        · next hname hbody =>
          obtain ⟨hsteps, hinner⟩ := steps_eq_ok_iff.mp h
          refine ⟨hsteps, rfl, ?_, ?_, fun _ => hinner⟩
          · intro other hother
            cases hother
            simpa using hname
          · simpa [Declaration.members] using hbody
    · rintro ⟨hsteps, hbase, hname, hmembers, hinner⟩
      have hseen : seenBase = true := by simpa [Declaration.isBase] using hbase
      refine ⟨hseen, ?_⟩
      have hfree : ¬ names.contains name = true := by simpa using hname name rfl
      have hfilled : ¬ body.isEmpty = true := by simpa [Declaration.members] using hmembers
      rw [if_neg hfree, if_neg hfilled, hseen]
      exact steps_eq_ok_iff.mpr ⟨hsteps, hinner (by simp [Declaration.stepName?])⟩
  | _ =>
    -- all other declarations are realized like a member of a step
    rw [admitted_iff_of_stepName?_eq_none rfl]
    exact steps_singleton_eq_ok_iff

/-- **Units.** The units of a realization are those of its declarations, each by itself, provided
    that all keep the rules. -/
theorem units_eq_ok_iff {ds : List Declaration} {units : List (List Step)} :
    Fresh.units answer seenBase names ds = .ok units ↔
      List.Forall₂ (fun d steps => ownSteps answer d = some steps) ds units ∧
        AllAdmitted seenBase names ds := by
  induction ds generalizing seenBase names units with
  | nil =>
    constructor
    · intro h
      cases h
      exact ⟨.nil, trivial⟩
    · rintro ⟨h, -⟩
      cases h
      rfl
  | cons d rest ih =>
    rw [Fresh.units, AllAdmitted]
    simp only [bind_eq_ok_iff, unit_eq_ok_iff, ih]
    constructor
    · rintro ⟨first, ⟨hfirst, hd⟩, others, ⟨hothers, hrest⟩, heq⟩
      cases heq
      exact ⟨.cons hfirst hothers, hd, hrest⟩
    · rintro ⟨hunits, hd, hrest⟩
      cases hunits with
      | cons hfirst hothers => exact ⟨_, ⟨hfirst, hd⟩, _, ⟨hothers, hrest⟩, rfl⟩

/-- A specification is realized exactly when its declarations keep the rules and have steps of their
    own and its units have an order; the steps are then put into that order. -/
theorem realize_eq_ok_iff {spec : Specification} {r : Realization} :
    Fresh.realize answer spec = .ok r ↔ ∃ units order,
      List.Forall₂ (fun d steps => ownSteps answer d = some steps) spec units ∧
        AllAdmitted false [] spec ∧ orderOf spec = .ok order ∧
        r = ⟨order.flatMap fun i => units.getD i.val []⟩ := by
  simp only [Fresh.realize, bind_eq_ok_iff, units_eq_ok_iff, mapError_eq_ok_iff]
  constructor
  · rintro ⟨units, ⟨hunits, hrules⟩, order, horder, heq⟩
    cases heq
    exact ⟨units, order, hunits, hrules, horder, rfl⟩
  · rintro ⟨units, order, hunits, hrules, horder, rfl⟩
    exact ⟨units, ⟨hunits, hrules⟩, order, horder, rfl⟩

end Realization

end ImageSpec

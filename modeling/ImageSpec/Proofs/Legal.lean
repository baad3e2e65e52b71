import ImageSpec.Proofs.Prerequisites
import ImageSpec.Proofs.Units
import Mathlib.Data.List.Basic

namespace ImageSpec

open Relation

/-!
# Legal specifications

The rules of the language, each said of a specification as a whole.  A realization tests them one
declaration after the other, with what it remembers of those before, and then orders the units.

* `Occurs` — a declaration is in a specification, at the top level or in a step at any depth.
* `Legal` — a specification keeps all rules, given the answers to its references.
* `allAdmitted_iff` — what the tests on the way come to.
* `realize_ok_iff_legal` — a specification is realized if and only if it is empty or legal.
-/

namespace Declaration

/-- The declarations in a step. -/
def body : Declaration → List Declaration
  | step _ _ _ body => body
  | _ => []

theorem body_eq_nil {d : Declaration} (h : d.stepName? = none) : d.body = [] := by
  cases d with
  | step position name after body => cases h
  | _ => rfl

/-- What is no step is its own only member. -/
theorem members_eq_singleton {d : Declaration} (h : d.stepName? = none) : d.members = [d] := by
  cases d with
  | step position name after body => cases h
  | _ => rfl

theorem eq_base_of_isBase {d : Declaration} (h : d.isBase = true) :
    ∃ position reference, d = base position reference := by
  cases d with
  | base position reference => exact ⟨position, reference, rfl⟩
  | _ => cases h

/-- The reference of a base image or a dependency. -/
def reference? : Declaration → Option Reference
  | base _ reference => some reference
  | dep _ reference => some reference
  | _ => none

/-- The entries of a block. -/
def entries : Declaration → List Entry
  | block _ _ entries => entries
  | _ => []

/-- The value of an instruction and the entries of a block pass their check. -/
def Accepted : Declaration → Prop
  | instruction _ keyword value => ∃ action, keyword.check value = .ok action
  | block position keyword entries => ∃ action, keyword.check position entries = .ok action
  | _ => True

/-- The reference of a declaration, if it has one, is answered with a definition. -/
def Resolved (answer : Answers) (d : Declaration) : Prop :=
  ∀ r, d.reference? = some r → ∃ definition, answer r = .ok definition

end Declaration

namespace Specification

/-- A declaration stands at the top level, or in a step that is there itself. -/
inductive Occurs (spec : Specification) : Declaration → Prop where
  | top {d : Declaration} (h : d ∈ spec) : Occurs spec d
  | inner {d c : Declaration} (hd : Occurs spec d) (hc : c ∈ d.body) : Occurs spec c

/-- The rules of the language, where `answer` tells what the references stand for. -/
structure Legal (answer : Answers) (spec : Specification) : Prop where
  /-- The first declaration names a base image, and no other one does. -/
  one_base : ∃ position reference rest, spec = .base position reference :: rest ∧
    ∀ d, Occurs rest d → d.isBase = false
  /-- No step is in a step. -/
  no_nested_step : ∀ d, Occurs spec d → ∀ c ∈ d.body, c.stepName? = none
  /-- No two steps have the same name. -/
  distinct_names : spec.stepNames.Nodup
  /-- No step is empty. -/
  no_empty_step : ∀ d, Occurs spec d → d.stepName? ≠ none → d.body ≠ []
  accepted : ∀ d, Occurs spec d → d.Accepted
  resolved : ∀ d, Occurs spec d → d.Resolved answer
  declared : spec.Declared
  /-- No step comes after itself, over however many others. -/
  acyclic : ∀ name, ¬ TransGen spec.ComesAfter name name

/-- A base image adds nothing but itself. -/
theorem occurs_base_cons_iff {position : Position} {reference : Reference} {rest : Specification}
    {d : Declaration} :
    Occurs (.base position reference :: rest) d ↔ d = .base position reference ∨ Occurs rest d := by
  constructor
  · intro h
    induction h with
    | top h =>
      rcases List.mem_cons.mp h with rfl | h
      · exact Or.inl rfl
      · exact Or.inr (.top h)
    | inner _ hc ih =>
      rcases ih with rfl | hd
      · cases hc
      · exact Or.inr (.inner hd hc)
  · rintro (rfl | h)
    · exact .top List.mem_cons_self
    · induction h with
      | top h => exact .top (List.mem_cons_of_mem _ h)
      | inner _ hc ih => exact .inner ih hc

end Specification

namespace Realization

open Specification

variable {answer : Answers} {seenBase : Bool} {names : List String}

/-! ### Steps of its own -/

/-- A function is defined on all of a list exactly when it is on each element. -/
theorem exists_forall₂_iff {α β : Type} {f : α → Option β} {xs : List α} :
    (∃ ys, List.Forall₂ (fun x y => f x = some y) xs ys) ↔ ∀ x ∈ xs, ∃ y, f x = some y := by
  induction xs with
  | nil => exact ⟨by simp, fun _ => ⟨[], .nil⟩⟩
  | cons x xs ih =>
    rw [List.forall_mem_cons, ← ih]
    constructor
    · rintro ⟨_, hys⟩
      cases hys with
      | cons hy hys => exact ⟨⟨_, hy⟩, _, hys⟩
    · rintro ⟨⟨y, hy⟩, ys, hys⟩
      exact ⟨y :: ys, .cons hy hys⟩

/-- The declarations with an action are those outside of steps that pass their check and whose
    reference is answered. -/
theorem exists_ownAction_iff {d : Declaration} :
    (∃ action, ownAction answer d = some action) ↔
      d.stepName? = none ∧ d.Accepted ∧ d.Resolved answer := by
  cases d with
  | base position reference | dep position reference =>
    cases h : answer reference <;>
      simp [ownAction, Declaration.stepName?, Declaration.Accepted, Declaration.Resolved,
        Declaration.reference?, Except.toOption, h]
  | instruction position keyword value | block position keyword entries =>
    simp [ownAction, Declaration.stepName?, Declaration.Accepted, Declaration.Resolved,
      Declaration.reference?, toOption_eq_some_iff]
  | step position name after body => simp [ownAction, Declaration.stepName?]

/-- A declaration has steps if all of its members are plain, accepted and resolved. -/
theorem exists_ownSteps_iff {d : Declaration} :
    (∃ steps, ownSteps answer d = some steps) ↔
      ∀ c ∈ d.members, c.stepName? = none ∧ c.Accepted ∧ c.Resolved answer := by
  simp only [ownSteps, mapM_eq_some_iff, ← exists_ownAction_iff]
  rw [exists_forall₂_iff]
  simp only [ownStep, Option.map_eq_some_iff]
  constructor
  · intro h c hc
    obtain ⟨_, action, haction, -⟩ := h c hc
    exact ⟨action, haction⟩
  · intro h c hc
    obtain ⟨action, haction⟩ := h c hc
    exact ⟨_, action, haction, rfl⟩

/-! ### The rules on the way -/

/-- Of the names that came before, only the declaration's own matters. -/
theorem admitted_iff {d : Declaration} :
    Admitted seenBase names d ↔
      Admitted seenBase [] d ∧ ∀ name ∈ d.stepName?.toList, name ∉ names := by
  constructor
  · intro h
    refine ⟨⟨h.base, by simp, h.members, h.inner⟩, fun name hname => h.name name ?_⟩
    simpa using hname
  · rintro ⟨h, hname⟩
    exact ⟨h.base, fun name hd => hname name (by simpa using hd), h.members, h.inner⟩

/-- The names of steps, one declaration at a time. -/
theorem stepNames_cons (d : Declaration) (ds : Specification) :
    stepNames (d :: ds) = d.stepName?.toList ++ stepNames ds := by
  unfold stepNames
  cases h : d.stepName? <;> simp [h]

/-- **Behind the base image** the declarations keep the rules if each does by itself, no two steps
    share a name, and none has a name that was taken before. -/
theorem allAdmitted_true_iff {ds : Specification} :
    AllAdmitted true names ds ↔ (∀ d ∈ ds, Admitted true [] d) ∧ ds.stepNames.Nodup ∧
      ∀ name ∈ ds.stepNames, name ∉ names := by
  induction ds generalizing names with
  | nil => simp [AllAdmitted, stepNames]
  | cons d ds ih =>
    rw [AllAdmitted, Bool.true_or, ih, admitted_iff, stepNames_cons, List.forall_mem_cons,
      List.nodup_append, List.forall_mem_append]
    simp only [List.mem_append, not_or]
    have hone : d.stepName?.toList.Nodup := by cases d.stepName? <;> simp
    constructor
    · rintro ⟨⟨hd, hfree⟩, hds, hnodup, hnames⟩
      refine ⟨⟨hd, hds⟩, ⟨hone, hnodup, ?_⟩, hfree, fun name hname => (hnames name hname).2⟩
      rintro name hname _ hother rfl
      exact (hnames name hother).1 hname
    · rintro ⟨⟨hd, hds⟩, ⟨-, hnodup, hdiff⟩, hfree, hrest⟩
      refine ⟨⟨hd, hfree⟩, hds, hnodup, fun name hname => ⟨?_, hrest name hname⟩⟩
      intro hown
      exact hdiff name hown name hname rfl

/-- At the start only the base image keeps the rules. -/
theorem allAdmitted_iff {d : Declaration} {ds : Specification} :
    AllAdmitted false [] (d :: ds) ↔ d.isBase = true ∧ AllAdmitted true [] ds := by
  cases d with
  | base position reference =>
    rw [AllAdmitted, admitted_iff_of_stepName?_eq_none rfl]
    rfl
  | _ =>
    constructor
    · rintro ⟨h, -⟩
      cases h.base
    · rintro ⟨h, -⟩
      cases h

/-! ### Declarations behind the base image -/

/-- The rules that a declaration behind the base image keeps, wherever it stands. -/
structure LegalPart (answer : Answers) (d : Declaration) : Prop where
  not_base : d.isBase = false
  no_nested_step : ∀ c ∈ d.body, c.stepName? = none
  no_empty_step : d.stepName? ≠ none → d.body ≠ []
  accepted : d.Accepted
  resolved : d.Resolved answer

/-- What is legal about a declaration that is no step. -/
theorem legalPart_iff_of_stepName?_eq_none {d : Declaration} (h : d.stepName? = none) :
    LegalPart answer d ↔ d.isBase = false ∧ d.Accepted ∧ d.Resolved answer := by
  constructor
  · exact fun hd => ⟨hd.not_base, hd.accepted, hd.resolved⟩
  · rintro ⟨hbase, haccepted, hresolved⟩
    have hbody : d.body = [] := Declaration.body_eq_nil h
    exact ⟨hbase, by simp [hbody], fun hne => absurd h hne, haccepted, hresolved⟩

/-- Where steps are not nested, everything is at the top level or in a step that is there. -/
theorem forall_occurs_legalPart_iff {ds : Specification} :
    (∀ c, Occurs ds c → LegalPart answer c) ↔ ∀ d ∈ ds, ∀ c ∈ d :: d.body, LegalPart answer c := by
  constructor
  · intro h d hd
    exact List.forall_mem_cons.mpr ⟨h d (.top hd), fun c hc => h c (.inner (.top hd) hc)⟩
  · intro h c hc
    have hplace : ∃ d ∈ ds, c ∈ d :: d.body := by
      induction hc with
      | top hd => exact ⟨_, hd, List.mem_cons_self⟩
      | inner _ hc ih =>
        obtain ⟨d, hd, hmem⟩ := ih
        rcases List.mem_cons.mp hmem with rfl | hmem
        · exact ⟨_, hd, List.mem_cons_of_mem _ hc⟩
        · -- a part of a step is no step, so that nothing is in it
          rw [Declaration.body_eq_nil ((h d hd d List.mem_cons_self).no_nested_step _ hmem)] at hc
          cases hc
    obtain ⟨d, hd, hmem⟩ := hplace
    exact h d hd c hmem

/-- A unit keeps the rules in all its parts exactly when it keeps them on the way and has steps of
    its own. -/
theorem forall_legalPart_iff {d : Declaration} :
    (∀ c ∈ d :: d.body, LegalPart answer c) ↔
      Admitted true [] d ∧ ∃ steps, ownSteps answer d = some steps := by
  rw [exists_ownSteps_iff]
  cases hd : d.stepName? with
  | none =>
    rw [Declaration.body_eq_nil hd, Declaration.members_eq_singleton hd,
      List.forall_mem_singleton, List.forall_mem_singleton, admitted_iff_of_stepName?_eq_none hd,
      legalPart_iff_of_stepName?_eq_none hd]
    simp [hd]
  | some name =>
    cases d with
    | step position name after body =>
      constructor
      · intro h
        obtain ⟨hown, hbody⟩ := List.forall_mem_cons.mp h
        refine ⟨⟨rfl, by simp, hown.no_empty_step (by simp [hd]), fun _ c hc => ?_⟩, fun c hc => ?_⟩
        · exact (hbody c hc).not_base
        · exact ⟨hown.no_nested_step c hc, (hbody c hc).accepted, (hbody c hc).resolved⟩
      · rintro ⟨hrules, hmembers⟩
        refine List.forall_mem_cons.mpr ⟨⟨rfl, ?_, fun _ => hrules.members, trivial, ?_⟩, ?_⟩
        · exact fun c hc => (hmembers c hc).1
        · intro r hr
          cases hr
        · intro c hc
          obtain ⟨hnone, hpart⟩ := hmembers c hc
          exact (legalPart_iff_of_stepName?_eq_none hnone).mpr
            ⟨hrules.inner (by simp [hd]) c hc, hpart⟩
    | _ => cases hd

/-- The rules for a specification, those for its parts taken together. -/
theorem legal_cons_iff {d : Declaration} {rest : Specification} :
    Legal answer (d :: rest) ↔ (d.isBase = true ∧ d.Resolved answer) ∧
      (∀ c, Occurs rest c → LegalPart answer c) ∧ rest.stepNames.Nodup ∧ Declared (d :: rest) ∧
      ∀ name, ¬ TransGen (ComesAfter (d :: rest)) name name := by
  constructor
  · intro h
    obtain ⟨position, reference, _, heq, hbase⟩ := h.one_base
    cases heq
    have hfirst := h.resolved _ (.top List.mem_cons_self)
    refine ⟨⟨rfl, hfirst⟩, fun c hc => ?_, ?_, h.declared, h.acyclic⟩
    · have hocc : Occurs (.base position reference :: rest) c :=
        occurs_base_cons_iff.mpr (Or.inr hc)
      exact ⟨hbase c hc, h.no_nested_step c hocc, h.no_empty_step c hocc, h.accepted c hocc,
        h.resolved c hocc⟩
    · have hnames := h.distinct_names
      rwa [stepNames_cons] at hnames
  · rintro ⟨⟨hbase, hresolved⟩, hparts, hnames, hdeclared, hacyclic⟩
    obtain ⟨position, reference, rfl⟩ := Declaration.eq_base_of_isBase hbase
    -- the base image keeps all the rules for parts but the one against base images
    have hall : ∀ c, Occurs (.base position reference :: rest) c →
        (∀ e ∈ c.body, e.stepName? = none) ∧ (c.stepName? ≠ none → c.body ≠ []) ∧
          c.Accepted ∧ c.Resolved answer := by
      intro c hc
      rcases occurs_base_cons_iff.mp hc with rfl | hc
      · exact ⟨by simp [Declaration.body], by simp [Declaration.stepName?], trivial, hresolved⟩
      · have hpart := hparts c hc
        exact ⟨hpart.no_nested_step, hpart.no_empty_step, hpart.accepted, hpart.resolved⟩
    exact {
      one_base := ⟨position, reference, rest, rfl, fun c hc => (hparts c hc).not_base⟩
      no_nested_step := fun c hc => (hall c hc).1
      distinct_names := by rwa [stepNames_cons]
      no_empty_step := fun c hc => (hall c hc).2.1
      accepted := fun c hc => (hall c hc).2.2.1
      resolved := fun c hc => (hall c hc).2.2.2
      declared := hdeclared
      acyclic := hacyclic }

/-! ### Realization -/

/-- A realization exists if every declaration has steps, all are admitted and the units have an
    order. -/
theorem exists_realize_iff {spec : Specification} :
    (∃ r, Fresh.realize answer spec = .ok r) ↔
      (∀ d ∈ spec, ∃ steps, ownSteps answer d = some steps) ∧ AllAdmitted false [] spec ∧
        ∃ order, orderOf spec = .ok order := by
  simp only [realize_eq_ok_iff]
  rw [← exists_forall₂_iff]
  constructor
  · rintro ⟨_, units, order, hunits, hrules, horder, -⟩
    exact ⟨⟨units, hunits⟩, hrules, order, horder⟩
  · rintro ⟨⟨units, hunits⟩, hrules, order, horder⟩
    exact ⟨_, units, order, hunits, hrules, horder, rfl⟩

/-- A specification that is not empty is realized from fresh look-ups exactly when it is legal. -/
theorem exists_realize_cons_iff {d : Declaration} {rest : Specification} :
    (∃ r, Fresh.realize answer (d :: rest) = .ok r) ↔ Legal answer (d :: rest) := by
  rw [exists_realize_iff, allAdmitted_iff, allAdmitted_true_iff, legal_cons_iff,
    forall_occurs_legalPart_iff]
  simp only [forall_legalPart_iff]
  rw [List.forall_mem_cons]
  have hnames : d.isBase = true → stepNames (d :: rest) = stepNames rest := by
    intro hbase
    obtain ⟨position, reference, rfl⟩ := Declaration.eq_base_of_isBase hbase
    exact stepNames_cons _ _
  -- of a base image only its reference can be wrong
  have hown : d.isBase = true →
      ((∃ steps, ownSteps answer d = some steps) ↔ d.Resolved answer) := by
    intro hbase
    obtain ⟨position, reference, rfl⟩ := Declaration.eq_base_of_isBase hbase
    rw [exists_ownSteps_iff]
    simp [Declaration.members, Declaration.stepName?, Declaration.Accepted]
  constructor
  · rintro ⟨⟨hd, hrest⟩, ⟨hbase, hrules, hnodup, -⟩, horder⟩
    rw [exists_orderOf_iff (by rwa [hnames hbase])] at horder
    exact ⟨⟨hbase, (hown hbase).mp hd⟩, fun e he => ⟨hrules e he, hrest e he⟩, hnodup, horder⟩
  · rintro ⟨⟨hbase, hd⟩, hparts, hnodup, horder⟩
    refine ⟨⟨(hown hbase).mpr hd, fun e he => (hparts e he).2⟩,
      ⟨hbase, fun e he => (hparts e he).1, hnodup, by simp⟩, ?_⟩
    exact (exists_orderOf_iff (by rwa [hnames hbase])).mpr horder

/-- **Realization accepts the legal specifications.** Over a library whose answers depend only on
    the reference, a specification is realized if and only if it is empty or keeps all rules. -/
theorem realize_ok_iff_legal {σ : Type} {l : Library σ} {s : σ} (hl : l.AnswersWith s answer)
    (spec : Specification) :
    (∃ r, (spec.realize l s).1 = .ok r) ↔ spec = [] ∨ Legal answer spec := by
  rw [realize_eq_fresh hl]
  cases spec with
  | nil => exact ⟨fun _ => Or.inl rfl, fun _ => ⟨⟨[]⟩, rfl⟩⟩
  | cons d rest =>
    rw [exists_realize_cons_iff]
    exact ⟨Or.inr, fun h => h.resolve_left (List.cons_ne_nil d rest)⟩

/-! ### A legal specification -/

/-- A digest for the definitions below. -/
def sampleDigest : Digest where
  algorithm := "sha512"
  encoded := "ab12"
  algorithm_ne := by decide
  encoded_ne := by decide
  algorithm_chars := by decide
  encoded_chars := by decide

/-- A catalog with a system and a tool. -/
def sampleCatalog : Catalog :=
  .ofDefinitions [⟨"debian", "12", sampleDigest, .empty⟩, ⟨"node", "20.1.0", sampleDigest, .empty⟩]

/-- A specification whose first step has to wait for its second. -/
def sampleSpecification : Specification :=
  [.base ⟨1, 1⟩ ⟨"debian", none⟩,
    .step ⟨2, 1⟩ "serve" [⟨⟨2, 18⟩, "tools"⟩] [.instruction ⟨3, 3⟩ .expose (.integer 80)],
    .step ⟨5, 1⟩ "tools" []
      [.dep ⟨6, 3⟩ ⟨"node", some "20"⟩, .block ⟨7, 3⟩ .env [⟨⟨7, 9⟩, "CC", "gcc"⟩]]]

/-- The realization of the sample: the steps of `tools` come before those of `serve`. -/
def sampleRealization : Realization :=
  ⟨[⟨⟨1, 1⟩, none, .base ⟨"debian", "12", sampleDigest, .empty⟩⟩,
    ⟨⟨6, 3⟩, some "tools", .dep ⟨"node", "20.1.0", sampleDigest, .empty⟩⟩,
    ⟨⟨7, 3⟩, some "tools", .env [("CC", "gcc")]⟩,
    ⟨⟨3, 3⟩, some "serve", .expose 80⟩]⟩

/-- The last unit is moved before the one that waits for it. -/
theorem orderOf_sampleSpecification : orderOf sampleSpecification
    = .ok [⟨0, Nat.succ_pos 2⟩, ⟨2, Nat.lt_add_one 2⟩, ⟨1, Nat.one_lt_succ_succ 1⟩] := by
  cbv

theorem realize_sampleSpecification :
    (sampleSpecification.realize Catalog.library sampleCatalog).1 = .ok sampleRealization := by
  rw [Specification.realize, realizing, orderOf_sampleSpecification]
  with_unfolding_all rfl

theorem legal_sampleSpecification :
    Catalog.library.AnswersWith sampleCatalog sampleCatalog.resolve ∧
      Legal sampleCatalog.resolve sampleSpecification := by
  have hl := Catalog.library_answersWith sampleCatalog
  refine ⟨hl, ?_⟩
  have h := (realize_ok_iff_legal hl sampleSpecification).mp ⟨_, realize_sampleSpecification⟩
  exact h.resolve_left (by simp [sampleSpecification])

end Realization

end ImageSpec

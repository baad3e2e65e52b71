import ImageSpec.Catalog
import ImageSpec.Realization
import Mathlib.Logic.Relation
import Mathlib.Tactic.Common

namespace ImageSpec

open Relation

/-!
# Realization by fresh look-ups

A realization remembers what it has bound, and its library may change with every look-up.  Neither
shows in the result: there are answers, one for each reference, from which the result follows
declaration by declaration.

* `Fresh.realize answer spec` — the realization that takes the answer to a reference from `answer`
  each time that the reference is mentioned, without a library state and without a memory.
* `Follows` — a part of a realization ends as its fresh counterpart does; `Follows.bind` puts parts
  together.
* `realize_eq_fresh` — a library whose answers are `answer` realizes as `Fresh.realize answer` does.
* `exists_fresh_eq_realize` — so does any other library, for the answers that it happened to give.
-/

/-- An answer for every reference. -/
abbrev Answers : Type := Reference → Except LookupError Definition

/-- The states that a library can come to by look-ups. -/
def Library.Reaches {σ : Type} (l : Library σ) : σ → σ → Prop :=
  ReflTransGen fun s s' => ∃ r, (l.lookup r s).2 = s'

/-- From a state on, the answers of a library depend only on the reference: whatever was looked up
    before, they are those of `answer`. -/
def Library.AnswersWith {σ : Type} (l : Library σ) (s : σ) (answer : Answers) : Prop :=
  ∀ s', l.Reaches s s' → ∀ r, (l.lookup r s').1 = answer r

/-- A catalog answers each reference the same however often it is asked. -/
theorem Catalog.library_answersWith (c : Catalog) : Catalog.library.AnswersWith c c.resolve := by
  intro c' hreach r
  have hsame : c' = c := by
    induction hreach with
    | refl => rfl
    | tail _ hstep ih =>
      obtain ⟨_, rfl⟩ := hstep
      exact ih
  rw [hsame]
  rfl

/-- Whether a declaration names a base image. -/
def Declaration.isBase : Declaration → Bool
  | base _ _ => true
  | _ => false

/-- The name of a step. -/
def Declaration.stepName? : Declaration → Option String
  | step _ name _ _ => some name
  | _ => none

namespace Realization

/-! ### Fresh look-ups -/

namespace Fresh

/-- The fault that breaks a rule at a position. -/
def fault {α : Type} (position : Position) (f : SemanticFault) : Except Error α :=
  .error (.semantic ⟨position, f⟩)

/-- The definition that answers a reference. -/
def definition (answer : Answers) (position : Position) (r : Reference) :
    Except Error Definition :=
  (answer r).mapError (.resolution position r)

/-- Refuses a declaration before the base image. -/
def afterBase {α : Type} (seenBase : Bool) (d : Declaration) (x : Except Error α) :
    Except Error α :=
  if seenBase then x else fault d.position (.missingBase d.keyword)

/-- The action of a declaration at the top level or in a step. -/
def action (answer : Answers) (seenBase : Bool) (group : Option String) (d : Declaration) :
    Except Error Action :=
  match d with
  | .base position reference =>
    if group.isSome then fault position .baseInStep
    else if seenBase then fault position .duplicateBase
    else (definition answer position reference).map .base
  | .dep position reference =>
    afterBase seenBase d ((definition answer position reference).map .dep)
  | .instruction position keyword value =>
    afterBase seenBase d ((keyword.check value).mapError fun f => .semantic ⟨position, f⟩)
  | .block position keyword entries =>
    afterBase seenBase d ((keyword.check position entries).mapError .semantic)
  | .step position name _ _ => fault position (.nestedStep name)

/-- The steps of declarations in one group. -/
def steps (answer : Answers) (group : Option String) :
    Bool → List Declaration → Except Error (List Step)
  | _, [] => return []
  | seenBase, d :: rest => do
    let action ← action answer seenBase group d
    let steps ← steps answer group (seenBase || d.isBase) rest
    return ⟨d.position, group, action⟩ :: steps

/-- The steps of a unit; `names` are those that steps have taken. -/
def unit (answer : Answers) (seenBase : Bool) (names : List String) (d : Declaration) :
    Except Error (List Step) :=
  match d with
  | .step position name _ body =>
    afterBase seenBase d <|
      if names.contains name then fault position (.duplicateStep name)
      else if body.isEmpty then fault position (.emptyStep name)
      else steps answer (some name) seenBase body
  | _ => steps answer none seenBase [d]

/-- The steps of all units. -/
def units (answer : Answers) :
    Bool → List String → List Declaration → Except Error (List (List Step))
  | _, _, [] => return []
  | seenBase, names, d :: rest => do
    let first ← unit answer seenBase names d
    let others ← units answer (seenBase || d.isBase) (d.stepName?.toList ++ names) rest
    return first :: others

/-- The realization of a specification. -/
def realize (answer : Answers) (spec : Specification) : Except Error Realization := do
  let units ← units answer false [] spec
  let order ← (orderOf spec).mapError .semantic
  return ⟨order.flatMap fun i => units.getD i.val []⟩

end Fresh

/-! ### What a pass has bound -/

variable {σ α β : Type}

/-- Whatever a pass has bound is the answer to its reference. -/
def Pass.Agrees (answer : Answers) (pass : Pass σ) : Prop :=
  ∀ r d, pass.bound.lookup r = some d → answer r = .ok d

/-- All that a part of a realization learned from its library is in `answer`: what it bound, and the
    failure at which it broke off, if it broke off at one. -/
def Answered (answer : Answers) : EStateM.Result Error (Pass σ) α → Prop
  | .ok _ pass => pass.Agrees answer
  | .error e pass =>
    pass.Agrees answer ∧
      ∀ position r cause, e = .resolution position r cause → answer r = .error cause

/-- The result of a part of a realization without the pass. -/
def outcome : EStateM.Result Error (Pass σ) α → Except Error α
  | .ok a _ => .ok a
  | .error e _ => .error e

/-- `Follows l pass m fresh seenBase names`: run from `pass`, the part `m` of a realization over `l`
    ends as `fresh` does for all answers in accord with the run, and if it succeeds it leaves the
    pass with these notes about the base image and the names of steps. -/
structure Follows (l : Library σ) (pass : Pass σ) (m : Realizing σ α)
    (fresh : Answers → Except Error α) (seenBase : Bool) (names : List String) : Prop where
  /-- What was bound before stays bound. -/
  keeps : ∀ answer, Answered answer (m.run pass) → pass.Agrees answer
  same : ∀ answer, Answered answer (m.run pass) → outcome (m.run pass) = fresh answer
  notes : ∀ a pass', m.run pass = .ok a pass' → pass'.seenBase = seenBase ∧ pass'.names = names
  /-- A library that answers with `answer` gives a run in accord with it. -/
  answered : ∀ answer, l.AnswersWith pass.library answer → pass.Agrees answer →
    Answered answer (m.run pass)
  /-- The library changes by look-ups only. -/
  reaches : ∀ a pass', m.run pass = .ok a pass' → l.Reaches pass.library pass'.library
  /-- A reference that could not be bound is not bound. -/
  unbound : ∀ position r cause pass',
    m.run pass = .error (.resolution position r cause) pass' → pass'.bound.lookup r = none

namespace Follows

variable {l : Library σ} {pass : Pass σ}

/-- A part that has its result already follows it. -/
protected theorem pure (a : α) :
    Follows l pass (pure a) (fun _ => .ok a) pass.seenBase pass.names where
  keeps _ h := h
  same _ _ := rfl
  notes := by
    intro _ _ h
    cases h
    exact ⟨rfl, rfl⟩
  answered _ _ h := h
  reaches := by
    intro _ _ h
    cases h
    exact .refl
  unbound := by
    intro _ _ _ _ h
    cases h

/-- A part that breaks a rule of the language follows the fault. -/
protected theorem fail (position : Position) (f : SemanticFault) (seenBase : Bool)
    (names : List String) :
    Follows l pass (fail position f : Realizing σ α) (fun _ => Fresh.fault position f)
      seenBase names where
  keeps _ h := h.1
  same _ _ := rfl
  notes := by
    intro _ _ h
    cases h
  answered := by
    intro answer _ h
    refine ⟨h, ?_⟩
    intro _ _ _ he
    cases he
  reaches := by
    intro _ _ h
    cases h
  unbound := by
    intro _ _ _ _ h
    cases h

/-- **Sequencing.** Two parts in a row follow their fresh counterparts in a row. -/
protected theorem bind {m : Realizing σ α} {f : α → Realizing σ β}
    {fresh : Answers → Except Error α} {g : α → Answers → Except Error β}
    {seen₁ seen₂ : Bool} {names₁ names₂ : List String}
    (hm : Follows l pass m fresh seen₁ names₁)
    (hf : ∀ a pass', pass'.seenBase = seen₁ → pass'.names = names₁ →
      Follows l pass' (f a) (g a) seen₂ names₂) :
    Follows l pass (m >>= f) (fun answer => fresh answer >>= fun a => g a answer)
      seen₂ names₂ := by
  cases hr : m.run pass with
  | error e pass' =>
    -- The first part breaks off, and so does the whole.
    have hrun : (m >>= f).run pass = .error e pass' := by rw [EStateM.run_bind, hr]
    obtain ⟨keeps, same, notes, answered, reaches, unbound⟩ := hm
    rw [hr] at keeps same answered
    refine ⟨?_, ?_, ?_, ?_, ?_, ?_⟩ <;> rw [hrun]
    · exact keeps
    · intro answer h
      rw [← same answer h]
      rfl
    · intro _ _ h
      cases h
    · exact answered
    · intro _ _ h
      cases h
    · intro position r cause pass'' h
      cases h
      exact unbound position r cause _ hr
  | ok a pass' =>
    have hrun : (m >>= f).run pass = (f a).run pass' := by rw [EStateM.run_bind, hr]
    obtain ⟨hseen, hnames⟩ := hm.notes a pass' hr
    have hreach := hm.reaches a pass' hr
    obtain ⟨keeps, same, notes, answered, reaches, unbound⟩ := hf a pass' hseen hnames
    refine ⟨?_, ?_, ?_, ?_, ?_, ?_⟩ <;> rw [hrun]
    · intro answer h
      exact hm.keeps answer (hr ▸ keeps answer h)
    · intro answer h
      have hfirst := hm.same answer (hr ▸ keeps answer h)
      rw [hr] at hfirst
      rw [same answer h, ← hfirst]
      rfl
    · exact notes
    · intro answer hl hp
      have hfirst := hm.answered answer hl hp
      rw [hr] at hfirst
      exact answered answer (fun s' hs' => hl s' (hreach.trans hs')) hfirst
    · exact fun b pass'' h => hreach.trans (reaches b pass'' h)
    · exact unbound

/-- A part follows whatever another one follows that runs alike from a pass with the same library
    and the same references bound. -/
theorem of_run {pass' : Pass σ} {m m' : Realizing σ α} {fresh : Answers → Except Error α}
    {seen : Bool} {names : List String} (hlibrary : pass'.library = pass.library)
    (hbound : pass'.bound = pass.bound) (hrun : m.run pass = m'.run pass')
    (h : Follows l pass' m' fresh seen names) : Follows l pass m fresh seen names := by
  have hagrees : ∀ answer, pass'.Agrees answer ↔ pass.Agrees answer := by
    intro answer
    unfold Pass.Agrees
    rw [hbound]
  obtain ⟨keeps, same, notes, answered, reaches, unbound⟩ := h
  rw [hlibrary] at answered reaches
  refine ⟨?_, ?_, ?_, ?_, ?_, ?_⟩ <;> rw [hrun]
  · exact fun answer h => (hagrees answer).mp (keeps answer h)
  · exact same
  · exact notes
  · exact fun answer hl h => answered answer hl ((hagrees answer).mpr h)
  · exact reaches
  · exact unbound

/-- A part follows an outcome also when the outcome is given in another form. -/
protected theorem congr {m : Realizing σ α} {fresh fresh' : Answers → Except Error α} {seen : Bool}
    {names : List String} (h : Follows l pass m fresh seen names)
    (heq : ∀ answer, fresh answer = fresh' answer) : Follows l pass m fresh' seen names := by
  rwa [← show fresh = fresh' from funext heq]

/-- A part whose result is put into another form follows the outcome in that form. -/
protected theorem map {m : Realizing σ α} {fresh : Answers → Except Error α} {seen : Bool}
    {names : List String} (h : Follows l pass m fresh seen names) (f : α → β) :
    Follows l pass (m >>= fun a => pure (f a)) (fun answer => (fresh answer).map f)
      seen names := by
  refine (h.bind (f := fun a => pure (f a)) (g := fun a _ => .ok (f a)) ?_).congr ?_
  · intro a pass' hs hn
    rw [← hs, ← hn]
    exact Follows.pure (f a)
  · intro answer
    cases fresh answer <;> rfl

/-! ### Parts of a realization -/

/-- The result of a check follows the check. -/
protected theorem checked (position : Position) (x : Except SemanticFault α) :
    Follows l pass (checked position x) (fun _ => x.mapError fun f => .semantic ⟨position, f⟩)
      pass.seenBase pass.names := by
  cases x with
  | ok a => exact Follows.pure a
  | error f => exact Follows.fail position f _ _

/-- The result of a check that gives its own positions follows the check. -/
protected theorem checkedAt (x : Except SemanticError α) :
    Follows l pass (checkedAt x) (fun _ => x.mapError .semantic) pass.seenBase pass.names := by
  cases x with
  | ok a => exact Follows.pure a
  | error e => exact Follows.fail e.position e.fault _ _

/-- Before the base image a part breaks off, and behind it the part goes on. -/
protected theorem requireBase (d : Declaration) {m : Realizing σ α}
    {fresh : Answers → Except Error α} {seen : Bool} {names : List String}
    (hm : pass.seenBase = true → Follows l pass m fresh seen names) :
    Follows l pass (requireBase d >>= fun _ => m)
      (fun answer => Fresh.afterBase pass.seenBase d (fresh answer)) seen names := by
  unfold Fresh.afterBase
  by_cases hseen : pass.seenBase = true
  · simp only [hseen, if_true]
    refine of_run rfl rfl ?_ (hm hseen)
    simp [requireBase, hseen]
  · simp only [hseen]
    refine of_run rfl rfl ?_ (Follows.fail d.position (.missingBase d.keyword) _ _)
    simp only [requireBase, EStateM.run_bind, EStateM.run_get, hseen]
    rfl

/-- With a name that has been taken a part breaks off, and else it goes on with the name taken. -/
protected theorem takeName (position : Position) (name : String) {m : Realizing σ α}
    {fresh : Answers → Except Error α} {seen : Bool} {names : List String}
    (hm : Follows l { pass with names := name :: pass.names } m fresh seen names) :
    Follows l pass (takeName position name >>= fun _ => m)
      (fun answer => if pass.names.contains name then Fresh.fault position (.duplicateStep name)
        else fresh answer) seen names := by
  cases hname : pass.names.contains name with
  | true =>
    refine of_run rfl rfl ?_ (Follows.fail position (.duplicateStep name) _ _)
    simp only [takeName, EStateM.run_bind, EStateM.run_get, hname]
    rfl
  | false =>
    refine of_run ?_ ?_ ?_ hm
    · rfl
    · rfl
    · simp only [takeName, EStateM.run_bind, EStateM.run_get, hname, Bool.false_eq_true, if_false,
        EStateM.run_modify]

/-- A reference is bound to the answer to it. -/
protected theorem bindReference (position : Position) (r : Reference) :
    Follows l pass (bindReference l position r) (fun answer => Fresh.definition answer position r)
      pass.seenBase pass.names := by
  unfold Fresh.definition
  cases hbound : pass.bound.lookup r with
  | some d =>
    have hrun : (bindReference l position r).run pass = .ok d pass := by
      simp [bindReference, hbound]
    refine ⟨?_, ?_, ?_, ?_, ?_, ?_⟩ <;> rw [hrun]
    · exact fun _ h => h
    · intro answer h
      rw [h r d hbound]
      rfl
    · intro _ _ h
      cases h
      exact ⟨rfl, rfl⟩
    · exact fun _ _ h => h
    · intro _ _ h
      cases h
      exact .refl
    · intro _ _ _ _ h
      cases h
  | none =>
    cases hlook : l.lookup r pass.library with
    | mk result state =>
      cases result with
      | error cause =>
        have hrun : (bindReference l position r).run pass
            = .error (.resolution position r cause) { pass with library := state } := by
          simp only [bindReference, lookUp, EStateM.run_bind, EStateM.run_get,
            EStateM.run_modifyGet, hbound, hlook]
          rfl
        refine ⟨?_, ?_, ?_, ?_, ?_, ?_⟩ <;> rw [hrun]
        · exact fun _ h => h.1
        · intro answer h
          rw [h.2 position r cause rfl]
          rfl
        · intro _ _ h
          cases h
        · intro answer hl hp
          refine ⟨hp, ?_⟩
          intro position' r' cause' h
          cases h
          rw [← hl pass.library .refl r, hlook]
        · intro _ _ h
          cases h
        · intro _ _ _ _ h
          cases h
          exact hbound
      | ok d =>
        have hrun : (bindReference l position r).run pass
            = .ok d { pass with library := state, bound := (r, d) :: pass.bound } := by
          simp only [bindReference, lookUp, EStateM.run_bind, EStateM.run_get,
            EStateM.run_modifyGet, EStateM.run_modify, EStateM.run_pure, hbound, hlook]
        have hnew : ((r, d) :: pass.bound).lookup r = some d := by simp
        refine ⟨?_, ?_, ?_, ?_, ?_, ?_⟩ <;> rw [hrun]
        · intro answer h r' d' hr'
          apply h r' d'
          rw [List.lookup_cons]
          split
          · next heq =>
            rw [eq_of_beq heq, hbound] at hr'
            cases hr'
          · exact hr'
        · intro answer h
          rw [h r d hnew]
          rfl
        · intro _ _ h
          cases h
          exact ⟨rfl, rfl⟩
        · intro answer hl hp r' d' hr'
          rw [List.lookup_cons] at hr'
          split at hr'
          · next heq =>
            cases hr'
            rw [eq_of_beq heq, ← hl pass.library .refl r, hlook]
          · exact hp r' d' hr'
        · intro _ _ h
          cases h
          exact .single ⟨r, by rw [hlook]⟩
        · intro _ _ _ _ h
          cases h

/-- The action of a declaration follows that of fresh look-ups. -/
protected theorem actionOf (group : Option String) (d : Declaration) :
    Follows l pass (actionOf l group d) (fun answer => Fresh.action answer pass.seenBase group d)
      (pass.seenBase || d.isBase) pass.names := by
  cases d with
  | base position reference =>
    cases group with
    | some name => exact of_run rfl rfl rfl (Follows.fail position .baseInStep _ _)
    | none =>
      cases hseen : pass.seenBase with
      | true =>
        refine of_run rfl rfl ?_ (Follows.fail position .duplicateBase _ _)
        simp only [actionOf, Option.isSome_none, Bool.false_eq_true, if_false, EStateM.run_bind,
          EStateM.run_get, hseen, if_true]
        rfl
      | false =>
        have hbind : Follows l { pass with seenBase := true } (bindReference l position reference)
            (fun answer => Fresh.definition answer position reference) true pass.names :=
          Follows.bindReference position reference
        simp only [Fresh.action, Option.isSome_none, Bool.false_eq_true, if_false,
          Declaration.isBase, Bool.or_true]
        refine of_run ?_ ?_ ?_ (hbind.map Action.base)
        · rfl
        · rfl
        · simp only [actionOf, Option.isSome_none, Bool.false_eq_true, if_false, EStateM.run_bind,
            EStateM.run_get, EStateM.run_modify, hseen]
  | dep position reference =>
    simp only [Fresh.action, Declaration.isBase, Bool.or_false]
    apply Follows.requireBase
    intro hseen
    exact (Follows.bindReference position reference).map Action.dep
  | instruction position keyword value =>
    simp only [Fresh.action, Declaration.isBase, Bool.or_false]
    apply Follows.requireBase
    intro hseen
    exact Follows.checked position (keyword.check value)
  | block position keyword entries =>
    simp only [Fresh.action, Declaration.isBase, Bool.or_false]
    apply Follows.requireBase
    intro hseen
    exact Follows.checkedAt (keyword.check position entries)
  | step position name after body =>
    exact of_run rfl rfl rfl (Follows.fail position (.nestedStep name) _ _)

/-- The step of a declaration is its action with its position and group. -/
protected theorem stepOf (group : Option String) (d : Declaration) :
    Follows l pass (stepOf l group d)
      (fun answer => (Fresh.action answer pass.seenBase group d).map (⟨d.position, group, ·⟩))
      (pass.seenBase || d.isBase) pass.names :=
  (Follows.actionOf group d).map _

/-- The steps of declarations follow those of fresh look-ups. -/
protected theorem stepsOf (group : Option String) (ds : List Declaration) (pass : Pass σ) :
    Follows l pass (stepsOf l group ds) (fun answer => Fresh.steps answer group pass.seenBase ds)
      (pass.seenBase || ds.any Declaration.isBase) pass.names := by
  induction ds generalizing pass with
  | nil =>
    rw [List.any_nil, Bool.or_false]
    exact Follows.pure []
  | cons d rest ih =>
    have htail : ∀ (step : Step) (pass' : Pass σ), pass'.seenBase = (pass.seenBase || d.isBase) →
        pass'.names = pass.names →
        Follows l pass' (stepsOf l group rest >>= fun steps => pure (step :: steps))
          (fun answer =>
            (Fresh.steps answer group (pass.seenBase || d.isBase) rest).map (step :: ·))
          (pass.seenBase || (d :: rest).any Declaration.isBase) pass.names := by
      intro step pass' hs hn
      have h := (ih pass').map (step :: ·)
      rwa [hs, hn, Bool.or_assoc] at h
    refine ((Follows.stepOf group d).bind htail).congr ?_
    intro answer
    rw [Fresh.steps]
    cases Fresh.action answer pass.seenBase group d with
    | error e => rfl
    | ok action => cases Fresh.steps answer group (pass.seenBase || d.isBase) rest <;> rfl

/-- The steps of a unit follow those of fresh look-ups. -/
protected theorem unitOf (d : Declaration) :
    Follows l pass (unitOf l d) (fun answer => Fresh.unit answer pass.seenBase pass.names d)
      (pass.seenBase || d.isBase) (d.stepName?.toList ++ pass.names) := by
  have hplain : Follows l pass (stepsOf l none [d])
      (fun answer => Fresh.steps answer none pass.seenBase [d])
      (pass.seenBase || d.isBase) pass.names := by
    have h := Follows.stepsOf (l := l) none [d] pass
    rwa [List.any_cons, List.any_nil, Bool.or_false] at h
  cases d with
  | base position reference => exact hplain
  | dep position reference => exact hplain
  | instruction position keyword value => exact hplain
  | block position keyword entries => exact hplain
  | step position name after body =>
    simp only [Fresh.unit, Declaration.isBase, Bool.or_false, Declaration.stepName?,
      Option.toList_some, List.singleton_append]
    apply Follows.requireBase
    intro hseen
    apply Follows.takeName
    cases hbody : body.isEmpty with
    | true => exact Follows.fail position (.emptyStep name) _ _
    | false =>
      -- Behind the base image, a base in the body changes nothing in the notes.
      have hflag : (pass.seenBase || body.any Declaration.isBase) = pass.seenBase := by
        rw [hseen, Bool.true_or]
      have hsteps := Follows.stepsOf (l := l) (some name) body
        { pass with names := name :: pass.names }
      dsimp only at hsteps
      rw [hflag] at hsteps
      exact hsteps

/-- The steps of all units follow those of fresh look-ups. -/
protected theorem unitsOf (ds : List Declaration) (pass : Pass σ) :
    Follows l pass (unitsOf l ds) (fun answer => Fresh.units answer pass.seenBase pass.names ds)
      (pass.seenBase || ds.any Declaration.isBase)
      ((ds.filterMap Declaration.stepName?).reverse ++ pass.names) := by
  induction ds generalizing pass with
  | nil =>
    rw [List.any_nil, Bool.or_false]
    exact Follows.pure []
  | cons d rest ih =>
    have hnames : (rest.filterMap Declaration.stepName?).reverse
          ++ (d.stepName?.toList ++ pass.names)
        = ((d :: rest).filterMap Declaration.stepName?).reverse ++ pass.names := by
      rw [List.filterMap_cons]
      cases d.stepName? <;> simp
    have htail : ∀ (unit : List Step) (pass' : Pass σ),
        pass'.seenBase = (pass.seenBase || d.isBase) →
        pass'.names = d.stepName?.toList ++ pass.names →
        Follows l pass' (unitsOf l rest >>= fun units => pure (unit :: units))
          (fun answer => (Fresh.units answer (pass.seenBase || d.isBase)
            (d.stepName?.toList ++ pass.names) rest).map (unit :: ·))
          (pass.seenBase || (d :: rest).any Declaration.isBase)
          (((d :: rest).filterMap Declaration.stepName?).reverse ++ pass.names) := by
      intro unit pass' hs hn
      have h := (ih pass').map (unit :: ·)
      rwa [hs, hn, Bool.or_assoc, hnames] at h
    refine ((Follows.unitOf d).bind htail).congr ?_
    intro answer
    rw [Fresh.units]
    cases Fresh.unit answer pass.seenBase pass.names d with
    | error e => rfl
    | ok unit =>
      cases Fresh.units answer (pass.seenBase || d.isBase) (d.stepName?.toList ++ pass.names) rest
        <;> rfl

/-- **Simulation.** A whole realization follows the one by fresh look-ups. -/
protected theorem realizing (spec : Specification) (s : σ) :
    Follows l { library := s } (realizing l spec) (fun answer => Fresh.realize answer spec)
      (spec.any Declaration.isBase) (spec.filterMap Declaration.stepName?).reverse := by
  have hunits := Follows.unitsOf (l := l) spec { library := s }
  dsimp only at hunits
  rw [Bool.false_or, List.append_nil] at hunits
  have htail : ∀ (units : List (List Step)) (pass' : Pass σ),
      pass'.seenBase = spec.any Declaration.isBase →
      pass'.names = (spec.filterMap Declaration.stepName?).reverse →
      Follows l pass' (Realization.checkedAt (orderOf spec) >>= fun order =>
          pure (⟨order.flatMap fun i => units.getD i.val []⟩ : Realization))
        (fun _ => ((orderOf spec).mapError .semantic).map fun order =>
          ⟨order.flatMap fun i => units.getD i.val []⟩)
        (spec.any Declaration.isBase) (spec.filterMap Declaration.stepName?).reverse := by
    intro units pass' hs hn
    rw [← hs, ← hn]
    exact (Follows.checkedAt (orderOf spec)).map _
  refine (hunits.bind htail).congr ?_
  intro answer
  rw [Fresh.realize]
  cases Fresh.units answer false [] spec with
  | error e => rfl
  | ok units => cases (orderOf spec).mapError Error.semantic <;> rfl

end Follows

/-! ### Whole realizations -/

/-- The result of a realization is the outcome of its run. -/
theorem realize_eq_outcome (l : Library σ) (spec : Specification) (s : σ) :
    (spec.realize l s).1 = outcome ((realizing l spec).run { library := s }) := by
  unfold Specification.realize
  cases (realizing l spec).run { library := s } <;> rfl

/-- A library whose answers depend only on the reference realizes as fresh look-ups do. -/
theorem realize_eq_fresh {l : Library σ} {s : σ} {answer : Answers} (hl : l.AnswersWith s answer)
    (spec : Specification) : (spec.realize l s).1 = Fresh.realize answer spec := by
  have hfollows := Follows.realizing (l := l) spec s
  rw [realize_eq_outcome]
  apply hfollows.same
  apply hfollows.answered answer hl
  intro r d h
  cases h

/-- The answers that a pass has bound, with one failure for all other references. -/
def Pass.answers (pass : Pass σ) (cause : LookupError) : Answers := fun r =>
  match pass.bound.lookup r with
  | some d => .ok d
  | none => .error cause

/-- What a pass has bound is the answer to its reference. -/
theorem Pass.agrees_answers (pass : Pass σ) (cause : LookupError) :
    pass.Agrees (pass.answers cause) := by
  intro r d h
  rw [answers, h]

/-- Any library realizes a specification as fresh look-ups do that take the same answers. -/
theorem exists_fresh_eq_realize (l : Library σ) (spec : Specification) (s : σ) :
    ∃ answer, (spec.realize l s).1 = Fresh.realize answer spec := by
  have hfollows := Follows.realizing (l := l) spec s
  rw [realize_eq_outcome]
  -- A reference is looked up until it is bound, so that the last pass knows all answers but one:
  -- the failure that ended the run.
  suffices h : ∃ answer, Answered answer ((realizing l spec).run { library := s }) by
    obtain ⟨answer, h⟩ := h
    exact ⟨answer, hfollows.same answer h⟩
  cases hrun : (realizing l spec).run { library := s } with
  | ok r pass => exact ⟨pass.answers (.unavailable ""), pass.agrees_answers _⟩
  | error e pass =>
    by_cases he : ∃ position r cause, e = .resolution position r cause
    · obtain ⟨position, r, cause, rfl⟩ := he
      refine ⟨pass.answers cause, pass.agrees_answers _, ?_⟩
      intro position' r' cause' h
      cases h
      rw [Pass.answers, hfollows.unbound position r cause pass hrun]
    · refine ⟨pass.answers (.unavailable ""), pass.agrees_answers _, ?_⟩
      intro position r cause h
      exact absurd ⟨position, r, cause, h⟩ he

end Realization

end ImageSpec

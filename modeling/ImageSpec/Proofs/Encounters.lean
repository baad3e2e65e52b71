import ImageSpec.Proofs.Legal

namespace ImageSpec

open Realization

/-!
# Declarations on the way of a realization

A realization comes to the declarations of a specification one after the other, depth first, and
tests each of them by what it remembers of those before.  It ends at the first one that fails.

* `Specification.encounters` — the declarations in the order in which a realization comes to them.
* `Encounter.test` — what a realization finds at a declaration, said by the declarations before it.
* `Declaration.BreaksRule`, `Encounter.cases_of_test_eq_error` — the ways in which a declaration
  fails, and the positions that are reported.
* `Encounter.StopsAt` — the first declaration that fails; `cases_of_stopsAt` says in which ways.
* `Specification.lookups` — the references that are looked up, given the answers to them.
* `Realization.visitAll_encounters` — a realization of units is a visit to their encounters in turn.
-/

/-! ### First occurrences -/

section FirstOccurrences

variable {α : Type} [DecidableEq α] {a : α} {xs : List α}

theorem nodup_eraseDups (xs : List α) : xs.eraseDups.Nodup := by
  -- what follows the first element is filtered, so the induction is on the length
  induction hn : xs.length using Nat.strongRecOn generalizing xs with
  | ind n ih =>
    cases xs with
    | nil => simp
    | cons x xs =>
      rw [List.eraseDups_cons, List.nodup_cons]
      constructor
      · simp [List.mem_eraseDups]
      · refine ih _ ?_ _ rfl
        have hle := List.length_filter_le (fun b => !b == x) xs
        rw [List.length_cons] at hn
        omega

/-- What is put behind a list comes behind its first occurrences. -/
theorem eraseDups_isPrefix (xs ys : List α) : xs.eraseDups <+: (xs ++ ys).eraseDups :=
  ⟨(ys.removeAll xs).eraseDups, List.eraseDups_append.symm⟩

theorem eraseDups_concat_of_mem (h : a ∈ xs) : (xs ++ [a]).eraseDups = xs.eraseDups := by
  rw [List.eraseDups_append]
  simp [List.removeAll, h]

theorem eraseDups_concat_of_notMem (h : a ∉ xs) :
    (xs ++ [a]).eraseDups = xs.eraseDups ++ [a] := by
  rw [List.eraseDups_append]
  simp [List.removeAll, h, List.eraseDups_cons]

/-- Before the first occurrence of an element stand the elements that came before it. -/
theorem takeWhile_eraseDups (h : a ∉ xs) (ys : List α) :
    (xs ++ a :: ys).eraseDups.takeWhile (· != a) = xs.eraseDups := by
  have hne : ∀ x ∈ xs.eraseDups, (x != a) = true := by
    intro x hx
    have hx' : x ∈ xs := List.mem_eraseDups.mp hx
    simp only [bne_iff_ne, ne_eq]
    rintro rfl
    exact h hx'
  rw [List.append_cons, List.eraseDups_append, eraseDups_concat_of_notMem h, List.append_assoc,
    List.takeWhile_append_of_pos hne]
  simp

end FirstOccurrences

/-! ### Encounters -/

/-- A declaration where a realization comes to it, with the name of the step around it. -/
structure Encounter where
  group : Option String
  declaration : Declaration

namespace Declaration

mutual

/-- The declarations that a realization comes to in a declaration, depth first. -/
def encounters (group : Option String) : Declaration → List Encounter
  | base p reference => [⟨group, base p reference⟩]
  | dep p reference => [⟨group, dep p reference⟩]
  | instruction p keyword value => [⟨group, instruction p keyword value⟩]
  | block p keyword entries => [⟨group, block p keyword entries⟩]
  | step p name after body =>
    ⟨group, step p name after body⟩ :: encountersAll (some name) body

/-- The declarations that a realization comes to in declarations, depth first. -/
def encountersAll (group : Option String) : List Declaration → List Encounter
  | [] => []
  | d :: ds => encounters group d ++ encountersAll group ds

end

/-- What has a reference is no step. -/
theorem stepName?_eq_none_of_reference? {d : Declaration} {r : Reference}
    (h : d.reference? = some r) : d.stepName? = none := by
  cases d with
  | step p name after body => cases h
  | _ => rfl

end Declaration

namespace Encounter

/-- The references of base images and dependencies, each as often as it is mentioned. -/
def references (xs : List Encounter) : List Reference :=
  xs.filterMap fun x => x.declaration.reference?

@[simp] theorem references_nil : references [] = [] := rfl

/-- The references of two lists are those of each. -/
@[simp] theorem references_append (xs ys : List Encounter) :
    references (xs ++ ys) = references xs ++ references ys :=
  List.filterMap_append

/-- What a realization finds at a declaration when it comes to it after `before`. -/
def test (answer : Answers) (before : List Encounter) : Encounter → Except Error Unit
  | ⟨none, .step position name after body⟩ =>
    Fresh.afterBase (before.any fun x => x.declaration.isBase)
      (.step position name after body) <|
      if before.any fun x => x.declaration.stepName? == some name then
        Fresh.fault position (.duplicateStep name)
      else if body.isEmpty then Fresh.fault position (.emptyStep name)
      else .ok ()
  | ⟨group, d⟩ =>
    (Fresh.action answer (before.any fun x => x.declaration.isBase) group d).map fun _ => ()

/-- A declaration that is no step is tested as an action. -/
theorem test_eq_of_stepName?_eq_none {answer : Answers} {before : List Encounter}
    {group : Option String} {d : Declaration} (h : d.stepName? = none) :
    test answer before ⟨group, d⟩
      = (Fresh.action answer (before.any fun x => x.declaration.isBase) group d).map
        fun _ => () := by
  cases d with
  | step position name after body => cases h
  | _ => cases group <;> rfl

/-- All declarations of a list pass, each after those before it. -/
def AllPass (answer : Answers) (xs : List Encounter) : Prop :=
  ∀ before x after, xs = before ++ x :: after → x.test answer before = .ok ()

theorem allPass_nil (answer : Answers) : AllPass answer [] := by
  intro before x after h
  exact absurd h (by simp)

/-- One more declaration that passes keeps all passing. -/
theorem AllPass.concat {answer : Answers} {before : List Encounter} {x : Encounter}
    (h : AllPass answer before) (hx : x.test answer before = .ok ()) :
    AllPass answer (before ++ [x]) := by
  intro before' y after heq
  -- the last declaration is `x`, and all others pass as they did before
  rcases List.eq_nil_or_concat after with rfl | ⟨after', z, rfl⟩
  · obtain ⟨rfl, hy⟩ := List.append_inj' heq rfl
    cases hy
    exact hx
  · rw [List.concat_eq_append, ← List.cons_append, ← List.append_assoc] at heq
    exact h before' y after' (List.append_inj_left' heq rfl)

/-- Visits to `xs` come as far as `x`, which fails after `before`. -/
structure StopsAt (answer : Answers) (xs before : List Encounter) (x : Encounter) (e : Error) :
    Prop where
  split : ∃ after, xs = before ++ x :: after
  passed : AllPass answer before
  failed : x.test answer before = .error e

/-- The references that have been looked up when a declaration after `before` fails: the one that
    could not be bound is among them. -/
def asked (before : List Encounter) : Error → List Reference
  | .resolution _ r _ => (references before ++ [r]).eraseDups
  | _ => (references before).eraseDups

/-- The references that visits to `before` and then to `rest` look up, where `before` passes. -/
def lookups (answer : Answers) : List Encounter → List Encounter → List Reference
  | before, [] => (references before).eraseDups
  | before, x :: rest =>
    match x.test answer before with
    | .ok _ => lookups answer (before ++ [x]) rest
    | .error e => asked before e

/-- Where all declarations pass, all of their references are looked up once. -/
theorem lookups_of_allPass {answer : Answers} {before rest : List Encounter}
    (h : AllPass answer (before ++ rest)) :
    lookups answer before rest = (references (before ++ rest)).eraseDups := by
  induction rest generalizing before with
  | nil => rw [lookups, List.append_nil]
  | cons x rest ih =>
    have hx : x.test answer before = .ok () := h before x rest rfl
    rw [List.append_cons] at h ⊢
    rw [lookups, hx]
    exact ih h

/-- What comes behind the first failure is not looked up. -/
theorem lookups_of_test_eq_error {answer : Answers} {before done after : List Encounter}
    {x : Encounter} {e : Error} (hpass : AllPass answer (before ++ done))
    (hx : x.test answer (before ++ done) = .error e) :
    lookups answer before (done ++ x :: after) = asked (before ++ done) e := by
  -- declarations that pass go over from `done` to `before`, one at a time
  induction done generalizing before with
  | nil =>
    rw [List.append_nil] at hx
    rw [List.nil_append, lookups, hx, List.append_nil]
  | cons y done ih =>
    have hy : y.test answer before = .ok () := hpass before y done rfl
    rw [List.append_cons] at hpass hx
    rw [List.cons_append, lookups, hy, List.append_cons before y done]
    exact ih hpass hx

end Encounter

/-- The declarations of a specification in the order in which a realization comes to them. -/
def Specification.encounters (spec : Specification) : List Encounter :=
  Declaration.encountersAll none spec

/-- The references of a specification in the same order. -/
def Specification.references (spec : Specification) : List Reference :=
  Encounter.references spec.encounters

/-- The references that a realization of a specification looks up, given the answers to them. -/
def Specification.lookups (answer : Answers) (spec : Specification) : List Reference :=
  Encounter.lookups answer [] spec.encounters

/-! ### Values that are no good -/

/-- The rules about the arguments of declarations. -/
def SemanticFault.IsArgument (fault : SemanticFault) : Prop :=
  fault.rule = .missingArgument ∨ fault.rule = .invalidArgument

/-- Rules about arguments are not the one about cycles. -/
theorem SemanticFault.IsArgument.not_cycle {fault : SemanticFault} (h : fault.IsArgument) :
    fault.rule ≠ .dependencyCycle := by
  rcases h with h | h <;> simp [h]

namespace Keyword

/-- A command that fails its check breaks a rule about arguments. -/
theorem isArgument_of_checkCommand {k : Keyword} {manyLines : Bool} {value : Value}
    {fault : SemanticFault} (h : k.checkCommand manyLines value = .error fault) :
    fault.IsArgument := by
  unfold checkCommand at h
  repeat' split at h
  all_goals cases h
  all_goals simp [SemanticFault.IsArgument, SemanticFault.rule]

/-- A text that fails its check breaks a rule about arguments. -/
theorem isArgument_of_checkLine {k : Keyword} {value : Value} {fault : SemanticFault}
    (h : k.checkLine value = .error fault) : fault.IsArgument := by
  unfold checkLine at h
  repeat' split at h
  all_goals cases h
  all_goals simp [SemanticFault.IsArgument, SemanticFault.rule]

/-- **Instructions.** A value that fails the check of its keyword breaks a rule about arguments. -/
theorem isArgument_of_check {k : Keyword} {value : Value} {fault : SemanticFault}
    (h : k.check value = .error fault) : fault.IsArgument := by
  cases k with
  | run | cmd | entrypoint => exact isArgument_of_checkCommand (map_eq_error_iff.mp h)
  | workdir => exact isArgument_of_checkLine (map_eq_error_iff.mp h)
  | user =>
    have hcheck := map_eq_error_iff.mp h
    unfold checkUser at hcheck
    split at hcheck
    · split at hcheck <;> cases hcheck
      exact .inr rfl
    · exact isArgument_of_checkLine hcheck
  | copy =>
    have hcheck : checkCopy value = .error fault := h
    unfold checkCopy at hcheck
    repeat' split at hcheck
    all_goals cases hcheck
    all_goals simp [SemanticFault.IsArgument, SemanticFault.rule]
  | expose =>
    have hcheck := map_eq_error_iff.mp h
    unfold checkPort at hcheck
    repeat' split at hcheck
    all_goals cases hcheck
    all_goals simp [SemanticFault.IsArgument, SemanticFault.rule]

end Keyword

namespace BlockKeyword

/-- A key that fails its check breaks a rule about arguments. -/
theorem isArgument_of_checkKey {k : BlockKeyword} {key : String} {fault : SemanticFault}
    (h : k.checkKey key = .error fault) : fault.IsArgument := by
  unfold checkKey at h
  repeat' split at h
  all_goals cases h
  all_goals simp [SemanticFault.IsArgument, SemanticFault.rule]

/-- An entry that fails its check breaks a rule about arguments. -/
theorem isArgument_of_checkEntry {k : BlockKeyword} {entry : Entry} {fault : SemanticFault}
    (h : k.checkEntry entry = .error fault) : fault.IsArgument := by
  unfold checkEntry at h
  split at h
  · next hkey =>
    cases h
    exact isArgument_of_checkKey hkey
  · split at h <;> cases h
    exact .inr rfl

/-- The first entry that fails gives its position. -/
theorem position_of_checkEntries {k : BlockKeyword} {es : List Entry} {e : SemanticError}
    (h : k.checkEntries es = .error e) :
    (∃ entry ∈ es, e.position = entry.position) ∧ e.fault.IsArgument := by
  induction es with
  | nil => cases h
  | cons entry es ih =>
    rw [checkEntries] at h
    split at h
    · next fault hfault =>
      cases h
      exact ⟨⟨entry, List.mem_cons_self, rfl⟩, isArgument_of_checkEntry hfault⟩
    · obtain ⟨⟨other, hother, hposition⟩, hfault⟩ := ih (map_eq_error_iff.mp h)
      exact ⟨⟨other, List.mem_cons_of_mem _ hother, hposition⟩, hfault⟩

/-- **Blocks.** A block that fails its check does so as a whole or at one of its entries. -/
theorem position_of_check {k : BlockKeyword} {position : Position} {es : List Entry}
    {e : SemanticError} (h : k.check position es = .error e) :
    (e.position = position ∨ ∃ entry ∈ es, e.position = entry.position) ∧
      e.fault.IsArgument := by
  unfold check at h
  split at h
  · cases h
    exact ⟨.inl rfl, .inl rfl⟩
  · obtain ⟨hentry, hfault⟩ := position_of_checkEntries (map_eq_error_iff.mp h)
    exact ⟨.inr hentry, hfault⟩

end BlockKeyword

/-- A declaration breaks a rule by itself: the fault stands at the declaration or at an entry of it,
    and no cycle is to blame. -/
def Declaration.BreaksRule (d : Declaration) (f : SemanticError) : Prop :=
  (f.position = d.position ∨ ∃ entry ∈ d.entries, f.position = entry.position) ∧
    f.fault.rule ≠ .dependencyCycle

namespace Encounter

/-! ### Failures -/

section Failures

variable {answer : Answers} {before : List Encounter} {x : Encounter} {e : Error}

/-- A definition is missing where the answer to its reference is a failure. -/
theorem exists_cause_of_definition {position : Position} {r : Reference}
    (h : Fresh.definition answer position r = .error e) :
    ∃ cause, answer r = .error cause ∧ e = .resolution position r cause := by
  unfold Fresh.definition at h
  cases hanswer : answer r with
  | ok d =>
    rw [hanswer] at h
    cases h
  | error cause =>
    rw [hanswer] at h
    cases h
    exact ⟨cause, rfl, rfl⟩

/-- What is refused before the base image fails by that, at its own position, or for a reason of its
    own. -/
theorem cases_of_afterBase {α : Type} {seenBase : Bool} {d : Declaration}
    {outcome : Except Error α} (h : Fresh.afterBase seenBase d outcome = .error e) :
    (∃ f, e = .semantic f ∧ d.BreaksRule f) ∨ outcome = .error e := by
  cases seenBase with
  | true => exact .inr h
  | false =>
    cases h
    exact .inl ⟨_, rfl, .inl rfl, by simp [SemanticFault.rule]⟩

/-- **Failures.** A declaration fails for want of an answer to its reference, or by breaking a
    rule. -/
theorem cases_of_test_eq_error (h : x.test answer before = .error e) :
    (∃ r cause, x.declaration.reference? = some r ∧ answer r = .error cause ∧
        e = .resolution x.declaration.position r cause) ∨
      ∃ f, e = .semantic f ∧ x.declaration.BreaksRule f := by
  obtain ⟨group, d⟩ := x
  cases d with
  | base p r =>
    rw [test_eq_of_stepName?_eq_none rfl, map_eq_error_iff, Fresh.action] at h
    split at h
    · cases h
      exact .inr ⟨_, rfl, .inl rfl, by simp [SemanticFault.rule]⟩
    · split at h
      · cases h
        exact .inr ⟨_, rfl, .inl rfl, by simp [SemanticFault.rule]⟩
      · obtain ⟨cause, hcause, rfl⟩ := exists_cause_of_definition (map_eq_error_iff.mp h)
        exact .inl ⟨r, cause, rfl, hcause, rfl⟩
  | dep p r =>
    rw [test_eq_of_stepName?_eq_none rfl, map_eq_error_iff, Fresh.action] at h
    rcases cases_of_afterBase h with hfault | h
    · exact .inr hfault
    · obtain ⟨cause, hcause, rfl⟩ := exists_cause_of_definition (map_eq_error_iff.mp h)
      exact .inl ⟨r, cause, rfl, hcause, rfl⟩
  | instruction p keyword value =>
    rw [test_eq_of_stepName?_eq_none rfl, map_eq_error_iff, Fresh.action] at h
    rcases cases_of_afterBase h with hfault | h
    · exact .inr hfault
    · cases hcheck : keyword.check value <;> rw [hcheck] at h <;> cases h
      exact .inr ⟨_, rfl, .inl rfl, (Keyword.isArgument_of_check hcheck).not_cycle⟩
  | block p keyword entries =>
    rw [test_eq_of_stepName?_eq_none rfl, map_eq_error_iff, Fresh.action] at h
    rcases cases_of_afterBase h with hfault | h
    · exact .inr hfault
    · cases hcheck : keyword.check p entries <;> rw [hcheck] at h <;> cases h
      obtain ⟨hposition, hfault⟩ := BlockKeyword.position_of_check hcheck
      exact .inr ⟨_, rfl, hposition, hfault.not_cycle⟩
  | step p name after body =>
    cases group with
    | some outer =>
      -- a step in a step fails whatever came before
      cases h
      exact .inr ⟨_, rfl, .inl rfl, by simp [SemanticFault.rule]⟩
    | none =>
      rcases cases_of_afterBase h with hfault | h
      · exact .inr hfault
      · split at h
        · cases h
          exact .inr ⟨_, rfl, .inl rfl, by simp [SemanticFault.rule]⟩
        · split at h <;> cases h
          exact .inr ⟨_, rfl, .inl rfl, by simp [SemanticFault.rule]⟩

/-- A declaration that passes has an answer to its reference. -/
theorem exists_answer_of_test_eq_ok (h : x.test answer before = .ok ()) {r : Reference}
    (hx : x.declaration.reference? = some r) : ∃ d, answer r = .ok d := by
  rw [test_eq_of_stepName?_eq_none (Declaration.stepName?_eq_none_of_reference? hx)] at h
  obtain ⟨action, haction, -⟩ := map_eq_ok_iff.mp h
  have hown := exists_ownAction_iff.mp ⟨action, (action_eq_ok_iff.mp haction).1⟩
  exact hown.2.2 r hx

/-- Where all declarations pass, all of their references have answers. -/
theorem exists_answer_of_allPass (h : AllPass answer before) {r : Reference}
    (hr : r ∈ references before) : ∃ d, answer r = .ok d := by
  obtain ⟨y, hy, hyr⟩ := List.mem_filterMap.mp hr
  obtain ⟨first, last, rfl⟩ := List.append_of_mem hy
  exact exists_answer_of_test_eq_ok (h first y last rfl) hyr

/-- What was looked up before a failure, by the kind of failure: a reference that cannot be bound is
    a new one, and it is looked up last. -/
theorem cases_of_stopsAt {xs : List Encounter} (h : StopsAt answer xs before x e) :
    (∃ r cause, x.declaration.reference? = some r ∧ r ∉ references before ∧
        e = .resolution x.declaration.position r cause ∧
        asked before e = (references before).eraseDups ++ [r]) ∨
      (∃ fault, e = .semantic fault) ∧ asked before e = (references before).eraseDups := by
  rcases cases_of_test_eq_error h.failed with ⟨r, cause, hx, hcause, rfl⟩ | ⟨fault, rfl, -⟩
  · have hr : r ∉ references before := by
      intro hr
      obtain ⟨d, hd⟩ := exists_answer_of_allPass h.passed hr
      rw [hcause] at hd
      cases hd
    exact Or.inl ⟨r, cause, hx, hr, rfl, eraseDups_concat_of_notMem hr⟩
  · exact Or.inr ⟨⟨fault, rfl⟩, rfl⟩

/-- What was looked up before a failure is a part of the distinct references, from the first on. -/
theorem asked_isPrefix {xs : List Encounter} (h : StopsAt answer xs before x e) :
    asked before e <+: (references xs).eraseDups := by
  obtain ⟨after, rfl⟩ := h.split
  rcases cases_of_stopsAt h with ⟨r, cause, hx, hr, rfl, -⟩ | ⟨⟨fault, rfl⟩, -⟩
  · have hrefs : references (before ++ x :: after)
        = references before ++ [r] ++ references after := by
      simp [references, hx]
    rw [hrefs]
    exact eraseDups_isPrefix _ _
  · rw [references_append]
    exact eraseDups_isPrefix _ _

section NoBase

variable {d : Declaration} {rest : List Declaration}

/-- A realization comes to the first declaration first. -/
theorem exists_encounters_eq_cons (d : Declaration) (rest : List Declaration) :
    ∃ others, Specification.encounters (d :: rest) = ⟨none, d⟩ :: others := by
  cases d <;> exact ⟨_, rfl⟩

/-- At the start everything but the base image fails. -/
theorem test_nil_eq_error (hd : d.isBase = false) :
    test answer [] ⟨none, d⟩ = .error (.semantic ⟨d.position, .missingBase d.keyword⟩) := by
  cases d with
  | base p r => cases hd
  | _ => rfl

/-- A first declaration that is no base image does not pass. -/
theorem not_allPass_of_not_isBase (hd : d.isBase = false) :
    ¬ AllPass answer (Specification.encounters (d :: rest)) := by
  intro h
  obtain ⟨others, hothers⟩ := exists_encounters_eq_cons d rest
  have hfirst := h [] ⟨none, d⟩ others hothers
  rw [test_nil_eq_error hd] at hfirst
  cases hfirst

/-- Where the first declaration is no base image, nothing is looked up. -/
theorem asked_eq_nil_of_not_isBase (hd : d.isBase = false)
    (h : StopsAt answer (Specification.encounters (d :: rest)) before x e) :
    asked before e = [] := by
  obtain ⟨others, hothers⟩ := exists_encounters_eq_cons d rest
  obtain ⟨after, hsplit⟩ := h.split
  rw [hothers] at hsplit
  have htest : test answer [] ⟨none, d⟩ = _ := test_nil_eq_error hd
  cases before with
  | nil =>
    obtain ⟨rfl, -⟩ := List.cons.inj hsplit
    have he := h.failed
    rw [htest] at he
    cases he
    rfl
  | cons y before =>
    -- the first declaration would be among those that pass
    obtain ⟨rfl, -⟩ := List.cons.inj hsplit
    have hfirst := h.passed [] _ before rfl
    rw [htest] at hfirst
    cases hfirst

end NoBase

end Failures

end Encounter

/-! ### Visits -/

namespace Realization

open Encounter

variable {σ : Type} {l : Library σ}

/-- What a realization does when it comes to a declaration. -/
def visit (l : Library σ) : Encounter → Realizing σ Unit
  | ⟨none, .step position name after body⟩ => do
    requireBase (.step position name after body)
    takeName position name
    if body.isEmpty then fail position (.emptyStep name)
  | ⟨group, d⟩ => do
    let _ ← actionOf l group d

/-- What a realization does when it comes to declarations in turn. -/
def visitAll (l : Library σ) : List Encounter → Realizing σ Unit
  | [] => pure ()
  | x :: xs => do
    visit l x
    visitAll l xs

/-- In a step, a declaration that is no step is visited by itself, and a step ends the visits. -/
theorem visitAll_encounters_some (name : String) (d : Declaration) (rest : List Encounter) :
    visitAll l (d.encounters (some name) ++ rest)
      = actionOf l (some name) d >>= fun _ => visitAll l rest := by
  cases d with
  | step p inner after body => rfl
  | _ => simp [Declaration.encounters, visitAll, visit]

/-- A visit to the declarations of a step makes its steps. -/
theorem visitAll_encountersAll_some (name : String) (ds : List Declaration)
    (rest : List Encounter) :
    visitAll l (Declaration.encountersAll (some name) ds ++ rest)
      = stepsOf l (some name) ds >>= fun _ => visitAll l rest := by
  induction ds with
  | nil => simp [Declaration.encountersAll, stepsOf]
  | cons d ds ih =>
    rw [Declaration.encountersAll, List.append_assoc, visitAll_encounters_some, ih]
    simp [stepsOf, stepOf]

/-- At the top level the steps of a unit come from visits to what is in it. -/
theorem visitAll_encounters_none (d : Declaration) (rest : List Encounter) :
    visitAll l (d.encounters none ++ rest) = unitOf l d >>= fun _ => visitAll l rest := by
  cases d with
  | step p name after body =>
    -- the step is tested itself before its body is gone into
    rw [Declaration.encounters, List.cons_append, visitAll, visitAll_encountersAll_some]
    simp only [visit, unitOf, bind_assoc]
    congr! 4
    split <;> rfl
  | _ => simp [Declaration.encounters, visitAll, visit, unitOf, stepsOf, stepOf]

/-- **Units are visited in turn.** The steps of all units come from visits to the encounters. -/
theorem visitAll_encounters (ds : List Declaration) :
    visitAll l (Declaration.encountersAll none ds) = unitsOf l ds >>= fun _ => pure () := by
  induction ds with
  | nil => simp [Declaration.encountersAll, visitAll, unitsOf]
  | cons d ds ih =>
    rw [Declaration.encountersAll, visitAll_encounters_none, ih]
    simp [unitsOf]

end Realization

end ImageSpec

import ImageSpec.Proofs.Encounters

namespace ImageSpec

/-!
# Which look-ups a realization makes

Of the references on its way a realization looks up each one once, when it first comes to it, until
a declaration fails its test.

* `Library.after`, `Library.answersAlong` — a library that is asked for references in turn.
* `Realization.Pass.Visited` — what a pass remembers of the encounters visited; `VisitEnds.visit` is
  one visit and `visitsEnd_visitAll` all of them.
* `Realization.realize_snd_eq_after` — what a realization does to its library.
* `Realization.calls_of_realize` — the look-ups of a realization.
-/

/-! ### Look-ups in turn -/

namespace Library

variable {σ : Type} {l : Library σ} {s : σ} {answer : Answers}

/-- The state of a library that was asked for references in turn. -/
def after (l : Library σ) (s : σ) (refs : List Reference) : σ :=
  refs.foldl (fun s r => (l.lookup r s).2) s

/-- References are looked up one after the other. -/
theorem after_append (l : Library σ) (s : σ) (refs more : List Reference) :
    l.after s (refs ++ more) = l.after (l.after s refs) more :=
  List.foldl_append

/-- Look-ups lead to states that the library can reach. -/
theorem reaches_after (l : Library σ) (s : σ) (refs : List Reference) :
    l.Reaches s (l.after s refs) := by
  induction refs generalizing s with
  | nil => exact .refl
  | cons r refs ih => exact .head ⟨r, rfl⟩ (ih (l.lookup r s).2)

/-- The answer to each reference when those of a list are looked up in turn. -/
def answersAlong (l : Library σ) (s : σ) (refs : List Reference) : Answers := fun r =>
  (l.lookup r (l.after s (refs.takeWhile (· != r)))).1

/-- If the answers depend only on the reference, they are the same along every list. -/
theorem AnswersWith.answersAlong_eq (hl : l.AnswersWith s answer) (refs : List Reference) :
    l.answersAlong s refs = answer :=
  funext fun r => hl _ (l.reaches_after s _) r

/-- A record grows by what is looked up, the latest first. -/
theorem after_recorded (l : Library σ) (s : σ) (past refs : List Reference) :
    l.recorded.after ⟨s, past⟩ refs = ⟨l.after s refs, refs.reverse ++ past⟩ := by
  induction refs generalizing s past with
  | nil => rfl
  | cons r refs ih =>
    have hrest := ih (l.lookup r s).2 (r :: past)
    rw [List.reverse_cons, List.append_assoc]
    exact hrest

/-- A recorded library has noted what it was asked for. -/
theorem calls_after_recorded (l : Library σ) (s : σ) (refs : List Reference) :
    (l.recorded.after ⟨s, []⟩ refs).calls = refs := by
  rw [after_recorded, Recorded.calls, List.append_nil, List.reverse_reverse]

/-- Keeping a record does not change what is answered along the way. -/
theorem answersAlong_recorded (l : Library σ) (s : σ) (refs : List Reference) :
    l.recorded.answersAlong ⟨s, []⟩ refs = l.answersAlong s refs := by
  funext r
  rw [answersAlong, after_recorded]
  rfl

end Library

/-! ### Remembered answers -/

/-- The entries are the definitions that answer the references of a list. -/
def Remembers (answer : Answers) (refs : List Reference) (entries : List (Reference × Definition)) :
    Prop :=
  ∀ r d, entries.lookup r = some d ↔ r ∈ refs ∧ answer r = .ok d

/-- Before the first look-up nothing is remembered. -/
theorem remembers_nil (answer : Answers) : Remembers answer [] [] := by
  intro r d
  simp

namespace Remembers

variable {answer : Answers} {refs : List Reference} {entries : List (Reference × Definition)}
  {r : Reference}

/-- What has not been looked up is not remembered. -/
theorem lookup_eq_none (h : Remembers answer refs entries) (hr : r ∉ refs) :
    entries.lookup r = none := by
  cases hd : entries.lookup r with
  | none => rfl
  | some d => exact absurd ((h r d).mp hd).1 hr

/-- A reference that has no answer, or has been looked up before, adds nothing. -/
theorem concat (h : Remembers answer refs entries) (hr : ∀ d, answer r = .ok d → r ∈ refs) :
    Remembers answer (refs ++ [r]) entries := by
  intro r' d'
  rw [h, List.mem_append, List.mem_singleton]
  constructor
  · exact fun ⟨hr', hd'⟩ => ⟨Or.inl hr', hd'⟩
  · rintro ⟨hr' | rfl, hd'⟩
    · exact ⟨hr', hd'⟩
    · exact ⟨hr d' hd', hd'⟩

/-- A definition that is found is remembered. -/
theorem concat_of_ok (h : Remembers answer refs entries) {d : Definition} (hd : answer r = .ok d) :
    Remembers answer (refs ++ [r]) ((r, d) :: entries) := by
  intro r' d'
  rw [KeyMap.lookup_cons_eq_ite, List.mem_append, List.mem_singleton]
  by_cases heq : r' = r
  · subst heq
    simp [hd]
  · simp [heq, h r' d']

end Remembers

namespace Realization

open Encounter

variable {σ : Type} {l : Library σ} {s : σ} {answer : Answers}

/-! ### What a pass remembers -/

/-- The references of a list have been looked up, each at its first mention, and all are bound. -/
structure Pass.Bound (l : Library σ) (s : σ) (answer : Answers) (refs : List Reference)
    (pass : Pass σ) : Prop where
  library : pass.library = l.after s refs.eraseDups
  bound : Remembers answer refs pass.bound
  resolved : ∀ r ∈ refs, ∃ d, answer r = .ok d

/-- What a pass remembers after visits that all went well. -/
structure Pass.Visited (l : Library σ) (s : σ) (answer : Answers) (before : List Encounter)
    (pass : Pass σ) : Prop extends pass.Bound l s answer (references before) where
  seenBase : pass.seenBase = before.any fun x => x.declaration.isBase
  names : ∀ name, pass.names.contains name
    = before.any fun x => x.declaration.stepName? == some name

/-- A pass that differs in its notes only has bound the same references. -/
theorem Pass.Bound.of_eq {refs : List Reference} {pass pass' : Pass σ}
    (h : pass.Bound l s answer refs) (hlibrary : pass'.library = pass.library)
    (hbound : pass'.bound = pass.bound) : pass'.Bound l s answer refs :=
  ⟨hlibrary.trans h.library, hbound ▸ h.bound, h.resolved⟩

/-- What is bound agrees with the answers. -/
theorem Pass.Bound.agrees {refs : List Reference} {pass : Pass σ}
    (h : pass.Bound l s answer refs) : pass.Agrees answer :=
  fun r d hd => ((h.bound r d).mp hd).2

/-- `answer` tells what the library says to a reference that it is asked for after `refs`. -/
def Tells (l : Library σ) (s : σ) (answer : Answers) (refs : List Reference) (r : Reference) :
    Prop :=
  r ∉ refs → answer r = (l.lookup r (l.after s refs.eraseDups)).1

section Binding

variable {refs : List Reference} {pass : Pass σ} {r : Reference}

/-- **Binding.** A reference with an answer is bound, and looked up if it is new. -/
theorem Pass.Bound.run_bindReference_ok (h : pass.Bound l s answer refs)
    (htells : Tells l s answer refs r) {d : Definition} (hd : answer r = .ok d)
    (position : Position) :
    ∃ pass', (bindReference l position r).run pass = .ok d pass' ∧
      pass'.Bound l s answer (refs ++ [r]) ∧ pass'.seenBase = pass.seenBase ∧
      pass'.names = pass.names := by
  have hresolved : ∀ r' ∈ refs ++ [r], ∃ d, answer r' = .ok d := by
    intro r' hr'
    rcases List.mem_append.mp hr' with hr' | hr'
    · exact h.resolved r' hr'
    · rw [List.mem_singleton.mp hr']
      exact ⟨d, hd⟩
  by_cases hr : r ∈ refs
  · -- mentioned before, it is bound already
    refine ⟨pass, ?_, ⟨?_, h.bound.concat fun _ _ => hr, hresolved⟩, rfl, rfl⟩
    · simp [bindReference, (h.bound r d).mpr ⟨hr, hd⟩]
    · rw [eraseDups_concat_of_mem hr, h.library]
  · -- a new one is looked up behind the distinct ones before it
    have hnone : pass.bound.lookup r = none := h.bound.lookup_eq_none hr
    have hlook : (l.lookup r pass.library).1 = .ok d := by rw [h.library, ← htells hr, hd]
    refine ⟨{ pass with library := (l.lookup r pass.library).2, bound := (r, d) :: pass.bound },
      ?_, ⟨?_, h.bound.concat_of_ok hd, hresolved⟩, rfl, rfl⟩
    · simp only [bindReference, lookUp, EStateM.run_bind, EStateM.run_get, EStateM.run_modifyGet,
        EStateM.run_modify, EStateM.run_pure, hnone, hlook]
    · rw [eraseDups_concat_of_notMem hr, Library.after_append, ← h.library]
      rfl

/-- A reference without an answer is new, and it is looked up. -/
theorem Pass.Bound.run_bindReference_error (h : pass.Bound l s answer refs)
    (htells : Tells l s answer refs r) {cause : LookupError} (hcause : answer r = .error cause)
    (position : Position) :
    ∃ pass', (bindReference l position r).run pass = .error (.resolution position r cause) pass' ∧
      pass'.library = l.after s (refs ++ [r]).eraseDups ∧ pass'.bound = pass.bound := by
  have hr : r ∉ refs := by
    intro hr
    obtain ⟨d, hd⟩ := h.resolved r hr
    rw [hcause] at hd
    cases hd
  have hnone : pass.bound.lookup r = none := h.bound.lookup_eq_none hr
  have hlook : (l.lookup r pass.library).1 = .error cause := by rw [h.library, ← htells hr, hcause]
  refine ⟨{ pass with library := (l.lookup r pass.library).2 }, ?_, ?_, rfl⟩
  · simp only [bindReference, lookUp, EStateM.run_bind, EStateM.run_get, EStateM.run_modifyGet,
      hnone, hlook]
    rfl
  · rw [eraseDups_concat_of_notMem hr, Library.after_append, ← h.library]
    rfl

end Binding

/-! ### One visit -/

/-- How a visit to `x` after visits to `before` ends: with what the test finds. -/
def VisitEnds (l : Library σ) (s : σ) (answer : Answers) (before : List Encounter)
    (x : Encounter) : EStateM.Result Error (Pass σ) Unit → Prop
  | .ok _ pass => x.test answer before = .ok () ∧ pass.Visited l s answer (before ++ [x])
  | .error e pass => x.test answer before = .error e ∧
    pass.library = l.after s (asked before e) ∧ pass.Agrees answer

namespace VisitEnds

variable {before : List Encounter} {x : Encounter} {pass : Pass σ}

/-- A visit that breaks a rule asks for nothing. -/
theorem of_fault (h : pass.Visited l s answer before) {e : SemanticError}
    (htest : x.test answer before = .error (.semantic e)) :
    VisitEnds l s answer before x (.error (.semantic e) pass) :=
  ⟨htest, h.library, h.agrees⟩

/-- A visit to a declaration without a reference that goes well leaves a note at most. -/
theorem of_ok (h : pass.Visited l s answer before) (hx : x.declaration.reference? = none)
    (htest : x.test answer before = .ok ()) {pass' : Pass σ}
    (hlibrary : pass'.library = pass.library) (hbound : pass'.bound = pass.bound)
    (hseen : pass'.seenBase = (pass.seenBase || x.declaration.isBase))
    (hnames : ∀ name, pass'.names.contains name
      = (pass.names.contains name || x.declaration.stepName? == some name)) :
    VisitEnds l s answer before x (.ok () pass') := by
  have hrefs : references (before ++ [x]) = references before := by
    simp [references, hx]
  refine ⟨htest, ⟨?_, ?_, ?_⟩⟩
  · rw [hrefs]
    exact h.toBound.of_eq hlibrary hbound
  · rw [hseen, h.seenBase]
    simp
  · intro name
    rw [hnames, h.names]
    simp

/-- A visit that binds a reference goes well if the reference has an answer. -/
theorem of_bindReference {r : Reference} (h : pass.Bound l s answer (references before))
    (hx : x.declaration.reference? = some r) (htells : Tells l s answer (references before) r)
    {position : Position}
    (htest : x.test answer before = (Fresh.definition answer position r).map fun _ => ())
    (hseen : pass.seenBase = (before.any (fun y => y.declaration.isBase) || x.declaration.isBase))
    (hnames : ∀ name, pass.names.contains name
      = before.any fun y => y.declaration.stepName? == some name) :
    VisitEnds l s answer before x
      ((bindReference l position r >>= fun _ => pure ()).run pass) := by
  have hrefs : references (before ++ [x]) = references before ++ [r] := by
    simp [references, hx]
  have hstep : x.declaration.stepName? = none := Declaration.stepName?_eq_none_of_reference? hx
  rw [EStateM.run_bind]
  rw [Fresh.definition] at htest
  cases hanswer : answer r with
  | ok d =>
    obtain ⟨pass', hrun, hbound, hseen', hnames'⟩ :=
      h.run_bindReference_ok htells hanswer position
    rw [hanswer] at htest
    rw [hrun]
    refine ⟨htest, ⟨hrefs ▸ hbound, ?_, ?_⟩⟩
    · rw [hseen', hseen]
      simp
    · intro name
      rw [hnames', hnames]
      simp [hstep]
  | error cause =>
    obtain ⟨pass', hrun, hlibrary, hbound⟩ :=
      h.run_bindReference_error htells hanswer position
    rw [hanswer] at htest
    rw [hrun]
    refine ⟨htest, hlibrary, ?_⟩
    intro r' d hd
    exact h.agrees r' d (hbound ▸ hd)

/-- What is made of an outcome does not matter to the rule about the base image. -/
theorem map_afterBase {α β : Type} (f : α → β) (seenBase : Bool) (d : Declaration)
    (outcome : Except Error α) :
    (Fresh.afterBase seenBase d outcome).map f = Fresh.afterBase seenBase d (outcome.map f) := by
  cases seenBase <;> rfl

/-- Before the base image, every other declaration is refused. -/
theorem run_requireBase_of_false (h : pass.seenBase = false) (d : Declaration)
    (m : Realizing σ Unit) : (requireBase d >>= fun _ => m).run pass
      = .error (.semantic ⟨d.position, .missingBase d.keyword⟩) pass := by
  simp only [requireBase, EStateM.run_bind, EStateM.run_get, h]
  rfl

/-- Behind the base image, the rest decides. -/
theorem run_requireBase_of_true (h : pass.seenBase = true) (d : Declaration)
    (m : Realizing σ Unit) : (requireBase d >>= fun _ => m).run pass = m.run pass := by
  simp [requireBase, h]

/-- A visit that needs the base image breaks off before it. -/
theorem of_requireBase (h : pass.Visited l s answer before) {d : Declaration}
    {m : Realizing σ Unit} {outcome : Except Error Unit}
    (htest : x.test answer before
      = Fresh.afterBase (before.any fun y => y.declaration.isBase) d outcome)
    (hm : pass.seenBase = true → x.test answer before = outcome →
      VisitEnds l s answer before x (m.run pass)) :
    VisitEnds l s answer before x ((requireBase d >>= fun _ => m).run pass) := by
  rw [← h.seenBase] at htest
  cases hseen : pass.seenBase with
  | false =>
    rw [run_requireBase_of_false hseen]
    rw [hseen] at htest
    exact of_fault h htest
  | true =>
    rw [run_requireBase_of_true hseen]
    rw [hseen] at htest
    exact hm hseen htest

/-- A visit to an instruction or a block ends as its check does. -/
theorem of_check (h : pass.Visited l s answer before) (hx : x.declaration.reference? = none)
    (hbase : x.declaration.isBase = false) (hstep : x.declaration.stepName? = none)
    {check : Except SemanticError Action}
    (htest : x.test answer before = (check.mapError .semantic).map fun _ => ()) :
    VisitEnds l s answer before x ((checkedAt check >>= fun _ => pure ()).run pass) := by
  cases check with
  | error e => exact of_fault h htest
  | ok a => exact of_ok h hx htest rfl rfl (by simp [hbase]) (by simp [hstep])

/-- Only the first base image, at the top level, is looked up. -/
theorem visit_base (h : pass.Visited l s answer before) {group : Option String} {p : Position}
    {r : Reference} (htells : Tells l s answer (references before) r) :
    VisitEnds l s answer before ⟨group, .base p r⟩
      ((visit l ⟨group, .base p r⟩).run pass) := by
  cases group with
  | some name => exact of_fault h rfl
  | none =>
    have htest : test answer before ⟨none, .base p r⟩
        = if pass.seenBase then Fresh.fault p .duplicateBase
          else (Fresh.definition answer p r).map fun _ => () := by
      rw [test_eq_of_stepName?_eq_none rfl, Fresh.action, if_neg (by simp), ← h.seenBase]
      cases pass.seenBase with
      | true => rfl
      | false => cases Fresh.definition answer p r <;> rfl
    cases hseen : pass.seenBase with
    | true =>
      rw [hseen, if_pos rfl] at htest
      have hrun : (visit l ⟨none, .base p r⟩).run pass
          = .error (.semantic ⟨p, .duplicateBase⟩) pass := by
        simp only [visit, actionOf, Option.isSome_none, Bool.false_eq_true, if_false,
          EStateM.run_bind, EStateM.run_get, hseen, if_true]
        rfl
      rw [hrun]
      exact of_fault h htest
    | false =>
      rw [hseen, if_neg Bool.false_ne_true] at htest
      -- the base image is noted before its reference is looked up
      have hrun : (visit l ⟨none, .base p r⟩).run pass
          = (bindReference l p r >>= fun _ => pure ()).run { pass with seenBase := true } := by
        simp [visit, actionOf, hseen]
      have hbound : Pass.Bound l s answer (references before) { pass with seenBase := true } :=
        h.toBound.of_eq rfl rfl
      rw [hrun]
      refine of_bindReference hbound rfl htells htest ?_ h.names
      simp [Declaration.isBase]

/-- A visit to a dependency ends with what the test finds. -/
theorem visit_dep (h : pass.Visited l s answer before) {group : Option String} {p : Position}
    {r : Reference} (htells : Tells l s answer (references before) r) :
    VisitEnds l s answer before ⟨group, .dep p r⟩ ((visit l ⟨group, .dep p r⟩).run pass) := by
  have hvisit : visit l ⟨group, .dep p r⟩
      = requireBase (.dep p r) >>= fun _ => bindReference l p r >>= fun _ => pure () := by
    cases group <;> simp [visit, actionOf]
  have htest : test answer before ⟨group, .dep p r⟩
      = Fresh.afterBase (before.any fun y => y.declaration.isBase) (.dep p r)
        ((Fresh.definition answer p r).map fun _ => ()) := by
    rw [test_eq_of_stepName?_eq_none rfl, Fresh.action, map_afterBase]
    cases Fresh.definition answer p r <;> rfl
  rw [hvisit]
  refine of_requireBase h htest fun _ houtcome => ?_
  refine of_bindReference h.toBound rfl htells houtcome ?_ h.names
  simp [h.seenBase, Declaration.isBase]

theorem visit_instruction (h : pass.Visited l s answer before) {group : Option String}
    {p : Position} {keyword : Keyword} {value : Value} :
    VisitEnds l s answer before ⟨group, .instruction p keyword value⟩
      ((visit l ⟨group, .instruction p keyword value⟩).run pass) := by
  -- the check says what is wrong, and the declaration where
  have hcheck : checked p (keyword.check value)
      = (checkedAt ((keyword.check value).mapError (⟨p, ·⟩)) : Realizing σ Action) := by
    cases keyword.check value <;> rfl
  have hvisit : visit l ⟨group, .instruction p keyword value⟩
      = requireBase (.instruction p keyword value) >>= fun _ =>
        checkedAt ((keyword.check value).mapError (⟨p, ·⟩)) >>= fun _ => pure () := by
    cases group <;> simp [visit, actionOf, hcheck]
  have htest : test answer before ⟨group, .instruction p keyword value⟩
      = Fresh.afterBase (before.any fun y => y.declaration.isBase) (.instruction p keyword value)
        ((((keyword.check value).mapError (⟨p, ·⟩)).mapError .semantic).map fun _ => ()) := by
    rw [test_eq_of_stepName?_eq_none rfl, Fresh.action, map_afterBase]
    cases keyword.check value <;> rfl
  rw [hvisit]
  exact of_requireBase h htest fun _ houtcome => of_check h rfl rfl rfl houtcome

theorem visit_block (h : pass.Visited l s answer before) {group : Option String} {p : Position}
    {keyword : BlockKeyword} {entries : List Entry} :
    VisitEnds l s answer before ⟨group, .block p keyword entries⟩
      ((visit l ⟨group, .block p keyword entries⟩).run pass) := by
  have hvisit : visit l ⟨group, .block p keyword entries⟩
      = requireBase (.block p keyword entries) >>= fun _ =>
        checkedAt (keyword.check p entries) >>= fun _ => pure () := by
    cases group <;> simp [visit, actionOf]
  have htest : test answer before ⟨group, .block p keyword entries⟩
      = Fresh.afterBase (before.any fun y => y.declaration.isBase) (.block p keyword entries)
        (((keyword.check p entries).mapError .semantic).map fun _ => ()) := by
    rw [test_eq_of_stepName?_eq_none rfl, Fresh.action, map_afterBase]
  rw [hvisit]
  exact of_requireBase h htest fun _ houtcome => of_check h rfl rfl rfl houtcome

theorem run_takeName_of_mem {p : Position} {name : String} (h : pass.names.contains name = true) :
    (takeName p name : Realizing σ Unit).run pass
      = .error (.semantic ⟨p, .duplicateStep name⟩) pass := by
  simp only [takeName, EStateM.run_bind, EStateM.run_get, h]
  rfl

theorem run_takeName_of_notMem {p : Position} {name : String}
    (h : pass.names.contains name = false) :
    (takeName p name : Realizing σ Unit).run pass
      = .ok () { pass with names := name :: pass.names } := by
  simp only [takeName, EStateM.run_bind, EStateM.run_get, h, Bool.false_eq_true, if_false,
    EStateM.run_modify]

/-- A step at the top level leaves its name; a step in a step is refused. -/
theorem visit_step (h : pass.Visited l s answer before) {group : Option String} {p : Position}
    {name : String} {after : List Prerequisite} {body : List Declaration} :
    VisitEnds l s answer before ⟨group, .step p name after body⟩
      ((visit l ⟨group, .step p name after body⟩).run pass) := by
  cases group with
  | some outer => exact of_fault h rfl
  | none =>
    refine of_requireBase h rfl fun _ houtcome => ?_
    rw [← h.names] at houtcome
    rw [EStateM.run_bind]
    cases hname : pass.names.contains name with
    | true =>
      rw [hname, if_pos rfl] at houtcome
      rw [run_takeName_of_mem hname]
      exact of_fault h houtcome
    | false =>
      rw [hname, if_neg Bool.false_ne_true] at houtcome
      rw [run_takeName_of_notMem hname]
      cases hbody : body.isEmpty with
      | true =>
        -- the name is taken already, but nothing comes after a failure
        rw [hbody, if_pos rfl] at houtcome
        exact ⟨houtcome, h.library, h.agrees⟩
      | false =>
        rw [hbody, if_neg Bool.false_ne_true] at houtcome
        refine of_ok h rfl houtcome ?_ ?_ ?_ ?_
        · rfl
        · rfl
        · simp [Declaration.isBase]
        · intro other
          rw [List.contains_cons, Bool.or_comm, BEq.comm]
          rfl

/-- **One visit.** A visit after visits that all went well ends as the test does. -/
protected theorem visit (h : pass.Visited l s answer before)
    (htells : ∀ r, x.declaration.reference? = some r → Tells l s answer (references before) r) :
    VisitEnds l s answer before x ((visit l x).run pass) := by
  obtain ⟨group, d⟩ := x
  cases d with
  | base p r => exact visit_base h (htells r rfl)
  | dep p r => exact visit_dep h (htells r rfl)
  | instruction p keyword value => exact visit_instruction h
  | block p keyword entries => exact visit_block h
  | step p name after body => exact visit_step h

end VisitEnds

/-! ### All visits -/

/-- How visits to `xs` end: all declarations pass, or one is the first to fail. -/
def VisitsEnd (l : Library σ) (s : σ) (answer : Answers) (xs : List Encounter) :
    EStateM.Result Error (Pass σ) Unit → Prop
  | .ok _ pass => AllPass answer xs ∧ pass.Visited l s answer xs
  | .error e pass => pass.Agrees answer ∧
    ∃ before x, StopsAt answer xs before x e ∧ pass.library = l.after s (asked before e)

/-- **All visits.** The invariant of a visit carries over to visits in turn. -/
theorem visitsEnd_visitAll {before rest : List Encounter} {pass : Pass σ}
    (hbefore : AllPass answer before) (h : pass.Visited l s answer before)
    (htells : ∀ done x after r, before ++ rest = done ++ x :: after →
      x.declaration.reference? = some r → Tells l s answer (references done) r) :
    VisitsEnd l s answer (before ++ rest) ((visitAll l rest).run pass) := by
  induction rest generalizing before pass with
  | nil =>
    rw [List.append_nil]
    exact ⟨hbefore, h⟩
  | cons x rest ih =>
    have hvisit : VisitEnds l s answer before x ((visit l x).run pass) :=
      .visit h fun r hr => htells before x rest r rfl hr
    rw [visitAll, EStateM.run_bind]
    cases hrun : (visit l x).run pass with
    | error e pass' =>
      rw [hrun] at hvisit
      obtain ⟨hfail, hlibrary, hagrees⟩ := hvisit
      exact ⟨hagrees, before, x, ⟨⟨rest, rfl⟩, hbefore, hfail⟩, hlibrary⟩
    | ok _ pass' =>
      -- this encounter joins those before
      rw [hrun] at hvisit
      rw [List.append_cons] at htells ⊢
      exact ih (hbefore.concat hvisit.1) hvisit.2 htells

/-- The answers along the distinct references are those which the library gives on the way. -/
theorem tells_answersAlong {xs done after : List Encounter} {x : Encounter} {r : Reference}
    (hxs : xs = done ++ x :: after) (hx : x.declaration.reference? = some r) :
    Tells l s (l.answersAlong s (references xs).eraseDups) (references done) r := by
  intro hr
  have hrefs : references xs = references done ++ r :: references after := by
    simp [hxs, references, hx]
  rw [Library.answersAlong, hrefs, takeWhile_eraseDups hr]

/-- How the units of a specification are realized, over any library. -/
theorem visitsEnd_unitsOf (l : Library σ) (s : σ) (spec : Specification) :
    VisitsEnd l s (l.answersAlong s spec.references.eraseDups) spec.encounters
      ((unitsOf l spec >>= fun _ => pure ()).run { library := s }) := by
  have hstart : Pass.Visited l s (l.answersAlong s spec.references.eraseDups) []
      { library := s } := ⟨⟨rfl, remembers_nil _, by simp⟩, rfl, by simp⟩
  rw [← visitAll_encounters, ← List.nil_append spec.encounters]
  exact visitsEnd_visitAll (allPass_nil _) hstart fun done x after r hxs hx =>
    tells_answersAlong hxs hx

/-! ### Whole realizations -/

/-- How a realization ends: with what its library was asked for, and what it was bound to. -/
def RealizingEnds (l : Library σ) (s : σ) (answer : Answers) (spec : Specification) :
    EStateM.Result Error (Pass σ) Realization → Prop
  | .ok _ pass => pass.Agrees answer ∧ AllPass answer spec.encounters ∧
    pass.library = l.after s spec.references.eraseDups
  | .error e pass => pass.Agrees answer ∧
    (AllPass answer spec.encounters ∧ pass.library = l.after s spec.references.eraseDups ∧
        (∃ fault, orderOf spec = .error fault ∧ e = .semantic fault) ∨
      ∃ before x, StopsAt answer spec.encounters before x e ∧
        pass.library = l.after s (asked before e))

/-- **Realizations.** A realization ends as its visits do, with the answers along the way. -/
theorem realizingEnds_realizing (l : Library σ) (s : σ) (spec : Specification) :
    RealizingEnds l s (l.answersAlong s spec.references.eraseDups) spec
      ((realizing l spec).run { library := s }) := by
  have hunits := visitsEnd_unitsOf l s spec
  rw [EStateM.run_bind] at hunits
  rw [realizing, EStateM.run_bind]
  cases hrun : (unitsOf l spec).run { library := s } with
  | error e pass =>
    rw [hrun] at hunits
    exact ⟨hunits.1, Or.inr hunits.2⟩
  | ok units pass =>
    rw [hrun] at hunits
    obtain ⟨hpass, hvisited⟩ := hunits
    dsimp only
    -- the order of the units is found without the library
    cases horder : orderOf spec with
    | error fault =>
      exact ⟨hvisited.agrees, Or.inl ⟨hpass, hvisited.library, fault, horder, rfl⟩⟩
    | ok order => exact ⟨hvisited.agrees, hpass, hvisited.library⟩

/-- Over any library a realization ends as fresh look-ups do that take the answers along the
    distinct references. -/
theorem realize_eq_fresh_answersAlong (l : Library σ) (s : σ) (spec : Specification) :
    (spec.realize l s).1 = Fresh.realize (l.answersAlong s spec.references.eraseDups) spec := by
  rw [realize_eq_outcome]
  apply (Follows.realizing spec s).same
  have hends := realizingEnds_realizing l s spec
  cases hrun : (realizing l spec).run { library := s } with
  | ok r pass =>
    rw [hrun] at hends
    exact hends.1
  | error e pass =>
    rw [hrun] at hends
    refine ⟨hends.1, ?_⟩
    rintro position r cause rfl
    rcases hends.2 with ⟨-, -, fault, -, he⟩ | ⟨before, x, hstop, -⟩
    · cases he
    · rcases cases_of_test_eq_error hstop.failed with ⟨_, _, -, hcause, he⟩ | ⟨fault, he, -⟩
      · cases he
        exact hcause
      · cases he

/-- A realization comes to the end of the declarations, or one of them is the first to fail. -/
theorem cases_of_realize {spec : Specification}
    (h : RealizingEnds l s answer spec ((realizing l spec).run { library := s })) :
    (AllPass answer spec.encounters ∧
        (spec.realize l s).2 = l.after s spec.references.eraseDups ∧
        ((∃ r, (spec.realize l s).1 = .ok r) ∨
          ∃ fault, orderOf spec = .error fault ∧
            (spec.realize l s).1 = .error (.semantic fault))) ∨
      ∃ before x e, StopsAt answer spec.encounters before x e ∧
        (spec.realize l s).2 = l.after s (asked before e) ∧ (spec.realize l s).1 = .error e := by
  unfold Specification.realize
  cases hrun : (realizing l spec).run { library := s } with
  | ok r pass =>
    rw [hrun] at h
    exact Or.inl ⟨h.2.1, h.2.2, Or.inl ⟨r, rfl⟩⟩
  | error e pass =>
    rw [hrun] at h
    rcases h.2 with ⟨hpass, hlibrary, fault, horder, rfl⟩ | ⟨before, x, hstop, hlibrary⟩
    · exact Or.inl ⟨hpass, hlibrary, Or.inr ⟨fault, horder, rfl⟩⟩
    · exact Or.inr ⟨before, x, e, hstop, hlibrary, rfl⟩

/-- What a realization does to its library is the look-ups that its answers lead to. -/
theorem realize_snd_eq_after (l : Library σ) (s : σ) (spec : Specification) :
    (spec.realize l s).2
      = l.after s (spec.lookups (l.answersAlong s spec.references.eraseDups)) := by
  rcases cases_of_realize (realizingEnds_realizing l s spec) with
    ⟨hpass, hstate, -⟩ | ⟨before, x, e, ⟨⟨after, hsplit⟩, hpass, hx⟩, hstate, -⟩
  · rw [hstate, Specification.lookups, lookups_of_allPass hpass]
    rfl
  · rw [hstate, Specification.lookups, hsplit, lookups_of_test_eq_error hpass hx]
    rfl

/-- **The look-ups of a realization.**  Over any library, no reference is looked up twice, and those
    that are looked up are the first of the distinct references in the order in which a realization
    comes to them.  They are all of them if every declaration passes, so that only the order of the
    units can fail, and else those up to the declaration that fails first.  If the answers depend
    only on the reference, the result is that of fresh look-ups at every mention. -/
theorem calls_of_realize (l : Library σ) (s : σ) (spec : Specification) :
    let run := spec.realize l.recorded ⟨s, []⟩
    let distinct := spec.references.eraseDups
    let along := l.answersAlong s distinct
    run.1 = (spec.realize l s).1 ∧ run.2.calls.Nodup ∧ run.2.calls <+: distinct ∧
      (AllPass along spec.encounters ∧ run.2.calls = distinct ∧
          ((∃ r, run.1 = .ok r) ∨
            ∃ fault, orderOf spec = .error fault ∧ run.1 = .error (.semantic fault)) ∨
        ∃ before x e, StopsAt along spec.encounters before x e ∧ run.1 = .error e ∧
          ((∃ r cause, x.declaration.reference? = some r ∧ r ∉ references before ∧
              e = .resolution x.declaration.position r cause ∧
              run.2.calls = (references before).eraseDups ++ [r]) ∨
            (∃ fault, e = .semantic fault) ∧ run.2.calls = (references before).eraseDups)) ∧
      (∀ d rest, spec = d :: rest → d.isBase = false → run.2.calls = []) ∧
      ∀ answer, l.AnswersWith s answer → run.1 = Fresh.realize answer spec := by
  intro run distinct along
  have hsame : run.1 = (spec.realize l s).1 := by
    rw [realize_eq_fresh_answersAlong, realize_eq_fresh_answersAlong,
      Library.answersAlong_recorded]
  have hfresh : ∀ answer, l.AnswersWith s answer → run.1 = Fresh.realize answer spec :=
    fun answer hl => hsame.trans (realize_eq_fresh hl spec)
  have hends : RealizingEnds l.recorded ⟨s, []⟩ along spec
      ((realizing l.recorded spec).run { library := ⟨s, []⟩ }) := by
    have h := realizingEnds_realizing l.recorded ⟨s, []⟩ spec
    rwa [Library.answersAlong_recorded] at h
  -- the record holds what the library was asked for
  have hcalls : ∀ refs, run.2 = l.recorded.after ⟨s, []⟩ refs → run.2.calls = refs := by
    intro refs h
    rw [h, Library.calls_after_recorded]
  rcases cases_of_realize hends with ⟨hpass, hstate, hresult⟩ | ⟨before, x, e, hstop, hstate, he⟩
  · have hall : run.2.calls = distinct := hcalls _ hstate
    refine ⟨hsame, ?_, ?_, Or.inl ⟨hpass, hall, hresult⟩, ?_, hfresh⟩
    · rw [hall]
      exact nodup_eraseDups _
    · exact hall ▸ List.prefix_refl distinct
    · rintro d rest rfl hd
      exact absurd hpass (not_allPass_of_not_isBase hd)
  · have hasked : run.2.calls = asked before e := hcalls _ hstate
    have hprefix : run.2.calls <+: distinct := hasked ▸ asked_isPrefix hstop
    refine ⟨hsame, ?_, hprefix, Or.inr ⟨before, x, e, hstop, he, ?_⟩, ?_, hfresh⟩
    · exact (nodup_eraseDups _).sublist hprefix.sublist
    · rw [hasked]
      exact cases_of_stopsAt hstop
    · rintro d rest rfl hd
      rw [hasked]
      exact asked_eq_nil_of_not_isBase hd hstop

end Realization

end ImageSpec

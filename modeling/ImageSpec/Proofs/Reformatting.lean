import ImageSpec.Proofs.Builds
import ImageSpec.Proofs.Grammar
import ImageSpec.Proofs.Legal

namespace ImageSpec

/-!
# Reformatting changes nothing

A build passes the positions of the text on, through declarations, units and steps into the errors.
No decision depends on one: with other positions a build asks its library the same, writes the same
and fails in the same way.

* `Error.Alike` — errors that differ in their positions only.
* `Realization.orderOf_relocate` — the order of the units does not depend on where they stand.
* `Realization.Relocates` — a part of a realization runs as another one does, positions aside;
  `Relocates.bind` puts parts together and `Relocates.realizing` is the whole.
* `Script.render_relocate` — scripts have no positions.
* `Service.build_reformatted` — texts with the same tokens are built alike.
-/

/-! ### Other positions -/

/-- The step at another position. -/
def Step.relocate (f : Position → Position) (s : Step) : Step := { s with position := f s.position }

/-- The broken rule at another position. -/
def SemanticError.relocate (f : Position → Position) (e : SemanticError) : SemanticError :=
  { e with position := f e.position }

/-- The step that cannot be written at another position. -/
def EmissionError.relocate (f : Position → Position) (e : EmissionError) : EmissionError :=
  { e with position := f e.position }

/-- The error at another position. -/
def Error.relocate (f : Position → Position) : Error → Error
  | malformed e => malformed (e.relocate f)
  | resolution position reference cause => resolution (f position) reference cause
  | semantic e => semantic (e.relocate f)
  | emission e => emission (e.relocate f)
  | e => e

/-- The realization with other positions. -/
def Realization.relocate (f : Position → Position) (r : Realization) : Realization :=
  ⟨r.steps.map (Step.relocate f)⟩

/-- A declaration that is moved stands at its new position. -/
@[simp] theorem Declaration.position_relocate (f : Position → Position) (d : Declaration) :
    (d.relocate f).position = f d.position := by
  cases d <;> rfl

/-- A declaration keeps its keyword when it is moved. -/
@[simp] theorem Declaration.keyword_relocate (f : Position → Position) (d : Declaration) :
    (d.relocate f).keyword = d.keyword := by
  cases d <;> rfl

/-! ### Errors without their positions -/

namespace Error

/-- The kind of an error. -/
def kind : Error → String
  | malformed _ => "syntax"
  | resolution _ _ _ => "resolution"
  | semantic _ => "semantic"
  | emission _ => "emission"
  | sink _ => "output-sink"
  | input _ => "input"
  | file _ _ => "io"
  | missingEntry _ => "not-found"
  | config _ => "config"
  | json => "serialization"
  | yaml => "yaml"

/-- The rule that is broken. -/
def rule? : Error → Option SemanticRule
  | semantic e => some e.fault.rule
  | _ => none

/-- The failed look-up behind an error. -/
def cause? : Error → Option LookupError
  | resolution _ _ cause => some cause
  | _ => none

/-- The error with its position forgotten. -/
def unplaced (e : Error) : Error := e.relocate fun _ => .start

/-- Errors that differ in their positions only: they are of one kind, and have the same rule and the
    same cause. -/
structure Alike (e₁ e₂ : Error) : Prop where
  unplaced_eq : e₁.unplaced = e₂.unplaced
  kind_eq : e₁.kind = e₂.kind
  rule_eq : e₁.rule? = e₂.rule?
  cause_eq : e₁.cause? = e₂.cause?

/-- The kind of an error does not depend on positions. -/
theorem kind_unplaced (e : Error) : e.unplaced.kind = e.kind := by cases e <;> rfl

/-- The rule that is broken does not depend on positions. -/
theorem rule?_unplaced (e : Error) : e.unplaced.rule? = e.rule? := by cases e <;> rfl

/-- The cause of an error does not depend on positions. -/
theorem cause?_unplaced (e : Error) : e.unplaced.cause? = e.cause? := by cases e <;> rfl

/-- Errors that differ in positions alone are alike. -/
theorem alike_of_unplaced_eq {e₁ e₂ : Error} (h : e₁.unplaced = e₂.unplaced) : e₁.Alike e₂ where
  unplaced_eq := h
  kind_eq := by rw [← kind_unplaced e₁, h, kind_unplaced]
  rule_eq := by rw [← rule?_unplaced e₁, h, rule?_unplaced]
  cause_eq := by rw [← cause?_unplaced e₁, h, cause?_unplaced]

end Error

/-- Results that are both a success, or errors that differ in their positions only. -/
inductive SameEnd : Except Error Unit → Except Error Unit → Prop where
  | ok : SameEnd (.ok ()) (.ok ())
  | error {e₁ e₂ : Error} (h : e₁.Alike e₂) : SameEnd (.error e₁) (.error e₂)

/-- Builds whose errors differ in positions alone end in the same way. -/
theorem sameEnd_of_unplaced_eq {x y : Except Error Unit}
    (h : x.mapError Error.unplaced = y.mapError Error.unplaced) : SameEnd x y := by
  cases x with
  | ok =>
    cases y with
    | ok => exact .ok
    | error e => cases h
  | error e₁ =>
    cases y with
    | ok => cases h
    | error e₂ => exact .error (Error.alike_of_unplaced_eq (Except.error.inj h))

variable (f : Position → Position)

/-! ### Checks -/

namespace BlockKeyword

/-- Entries pass or fail their check at their new positions. -/
theorem checkEntries_relocate (k : BlockKeyword) (entries : List Entry) :
    k.checkEntries (entries.map (Entry.relocate f))
      = (k.checkEntries entries).mapError (SemanticError.relocate f) := by
  induction entries with
  | nil => rfl
  | cons e rest ih =>
    have hentry : k.checkEntry (e.relocate f) = k.checkEntry e := rfl
    rw [List.map_cons, checkEntries, checkEntries, hentry, ih]
    cases k.checkEntry e with
    | error fault => rfl
    | ok pair => cases k.checkEntries rest <;> rfl

/-- A block is checked alike wherever it and its entries stand. -/
theorem check_relocate (k : BlockKeyword) (p : Position) (entries : List Entry) :
    k.check (f p) (entries.map (Entry.relocate f))
      = (k.check p entries).mapError (SemanticError.relocate f) := by
  rw [check, check, List.isEmpty_map, checkEntries_relocate]
  split
  · rfl
  · cases k.checkEntries entries <;> rfl

end BlockKeyword

/-! ### The order of units -/

/-- The edge between the same units, if these are counted in another way. -/
def Edge.cast {n m : Nat} (h : n = m) (e : Edge n) : Edge m :=
  ⟨e.dependent.cast h, e.prerequisite.cast h⟩

namespace UnitGraph

variable {n m : Nat}

/-- The graph of the same units, if these are counted in another way. -/
def cast (h : n = m) (g : UnitGraph n) : UnitGraph m where
  unit i := g.unit (i.cast h.symm)
  edges := g.edges.map (Edge.cast h)

/-- The graph with its units at other positions. -/
def relocate (g : UnitGraph n) : UnitGraph n where
  unit i := ⟨(g.unit i).label, f (g.unit i).position⟩
  edges := g.edges

/-- Another way of counting the units changes only their numbers in the order. -/
theorem order_cast (h : n = m) (g : UnitGraph n) :
    (g.cast h).order = g.order.map (List.map (Fin.cast h)) := by
  -- With the two numbers of units made one, neither cast does anything.
  subst h
  have hgraph : g.cast rfl = g := by
    have hedge : Edge.cast (rfl : n = n) = id := rfl
    rw [cast, hedge, List.map_id]
    rfl
  have hfin : Fin.cast (rfl : n = n) = id := rfl
  rw [hgraph, hfin, List.map_id_fun]
  cases g.order <;> rfl

/-- The order is that of the edges; positions are only reported. -/
theorem order_relocate (g : UnitGraph n) :
    (g.relocate f).order = g.order.mapError (SemanticError.relocate f) := by
  have hcycle : (g.relocate f).cycle? = g.cycle? := rfl
  have hprerequisites : (g.relocate f).prerequisites = g.prerequisites := rfl
  rw [order, order, hcycle, hprerequisites]
  cases g.cycle? <;> rfl

end UnitGraph

namespace Realization

/-- The numbers below two equal bounds are the same. -/
theorem finRange_cast {n m : Nat} (h : n = m) :
    List.finRange m = (List.finRange n).map (Fin.cast h) := by
  subst h
  exact (List.map_id _).symm

/-- The number of a unit among the relocated ones. -/
def sameUnit (spec : Specification) :
    Fin spec.length → Fin (spec.map (Declaration.relocate f)).length :=
  Fin.cast (List.length_map (Declaration.relocate f)).symm

/-- A step keeps its name when it is moved. -/
theorem isStepNamed_relocate (name : String) (d : Declaration) :
    isStepNamed name (d.relocate f) = isStepNamed name d := by
  cases d <;> rfl

/-- A unit keeps its label when it is moved. -/
theorem labelOf_relocate (d : Declaration) : labelOf (d.relocate f) = labelOf d := by
  cases d <;> rfl

/-- The unit at a place is the unit that was there, moved. -/
theorem get_relocate (spec : Specification) (i : Fin spec.length) :
    (spec.map (Declaration.relocate f)).get (sameUnit f spec i) = (spec.get i).relocate f := by
  simp [sameUnit]

/-- A step is found by its name at the place where it was. -/
theorem findFinIdx?_relocate (spec : Specification) (name : String) :
    (spec.map (Declaration.relocate f)).findFinIdx? (isStepNamed name)
      = (spec.findFinIdx? (isStepNamed name)).map (sameUnit f spec) := by
  have hnamed : isStepNamed name ∘ Declaration.relocate f = isStepNamed name :=
    funext (isStepNamed_relocate f name)
  -- The two searches end in indices of different types, so their values are compared.
  have hval : ((spec.map (Declaration.relocate f)).findFinIdx? (isStepNamed name)).map Fin.val
      = ((spec.findFinIdx? (isStepNamed name)).map (sameUnit f spec)).map Fin.val := by
    rw [← List.findIdx?_eq_map_findFinIdx?_val, List.findIdx?_map, hnamed,
      List.findIdx?_eq_map_findFinIdx?_val, Option.map_map]
    rfl
  exact Option.map_injective (fun _ _ => Fin.ext) hval

/-- The edges to a unit are the same, and so is the fault but for its position. -/
theorem edgesTo_relocate (spec : Specification) (i : Fin spec.length) (name : String)
    (after : List Prerequisite) :
    edgesTo (spec.map (Declaration.relocate f)) (sameUnit f spec i) name
        (after.map (Prerequisite.relocate f))
      = ((edgesTo spec i name after).mapError (SemanticError.relocate f)).map
          (List.map (Edge.cast (List.length_map _).symm)) := by
  induction after with
  | nil => rfl
  | cons p rest ih =>
    have hname : (p.relocate f).name = p.name := rfl
    rw [List.map_cons, edgesTo, edgesTo, hname, findFinIdx?_relocate, ih]
    cases spec.findFinIdx? (isStepNamed p.name) with
    | none => rfl
    | some j => cases edgesTo spec i name rest <;> rfl

/-- The edges to several units are the same, and so is the first fault but for its position. -/
theorem edgesOf_relocate (spec : Specification) (is : List (Fin spec.length)) :
    edgesOf (spec.map (Declaration.relocate f)) (is.map (sameUnit f spec))
      = ((edgesOf spec is).mapError (SemanticError.relocate f)).map
          (List.map (Edge.cast (List.length_map _).symm)) := by
  induction is with
  | nil => rfl
  | cons i rest ih =>
    rw [List.map_cons, edgesOf, edgesOf, get_relocate, ih]
    cases spec.get i with
    | step p name after body =>
      simp only [Declaration.relocate]
      rw [edgesTo_relocate]
      cases edgesTo spec i name after with
      | error e => rfl
      | ok edges => cases hrest : edgesOf spec rest <;> simp [Except.mapError, Except.map]
    | _ => rfl

/-- The same graph, with its units at other positions. -/
theorem graphOf_relocate (spec : Specification) :
    graphOf (spec.map (Declaration.relocate f))
      = ((graphOf spec).mapError (SemanticError.relocate f)).map
          fun g => (g.relocate f).cast (List.length_map _).symm := by
  rw [graphOf, graphOf, finRange_cast (List.length_map (Declaration.relocate f)).symm]
  have h := edgesOf_relocate f spec (List.finRange spec.length)
  rw [sameUnit] at h
  rw [h]
  cases edgesOf spec (List.finRange spec.length) with
  | error e => rfl
  | ok edges =>
    have hget : ∀ i, (spec.map (Declaration.relocate f)).get i
        = (spec.get (i.cast (List.length_map _))).relocate f :=
      fun i => get_relocate f spec (i.cast (List.length_map _))
    simp only [Except.mapError, Except.map, UnitGraph.cast, UnitGraph.relocate, hget,
      labelOf_relocate, Declaration.position_relocate]

/-- The same order, with its units at other positions. -/
theorem orderOf_relocate (spec : Specification) :
    orderOf (spec.map (Declaration.relocate f))
      = ((orderOf spec).mapError (SemanticError.relocate f)).map (List.map (sameUnit f spec)) := by
  rw [orderOf, orderOf, graphOf_relocate]
  cases graphOf spec with
  | error e => rfl
  | ok g =>
    show ((g.relocate f).cast (List.length_map _).symm).order = _
    rw [UnitGraph.order_cast, UnitGraph.order_relocate]
    rfl

/-! ### Declarations -/

variable {σ α β γ δ : Type}

/-- `Relocates f g m m'`: from every pass `m'` ends as `m` does and leaves the same pass, but with
    other positions in its error, and with `g` of its result. -/
def Relocates (g : α → β) (m : Realizing σ α) (m' : Realizing σ β) : Prop :=
  ∀ pass, m'.run pass = match m.run pass with
    | .ok a pass' => .ok (g a) pass'
    | .error e pass' => .error (e.relocate f) pass'

namespace Relocates

variable {f}

/-- A value is moved. -/
protected theorem pure (g : α → β) (a : α) :
    Relocates f g (pure a : Realizing σ α) (pure (g a)) := fun _ => rfl

/-- A failure stands at its new position. -/
protected theorem fail (g : α → β) (p : Position) (fault : SemanticFault) :
    Relocates f g (fail p fault : Realizing σ α) (fail (f p) fault) := fun _ => rfl

/-- The state has no positions. -/
protected theorem get : Relocates f id (get : Realizing σ (Pass σ)) get := fun _ => rfl

/-- A change of the state has no positions. -/
protected theorem modify (change : Pass σ → Pass σ) :
    Relocates f id (modify change : Realizing σ PUnit) (modify change) := fun _ => rfl

/-- **Sequencing.** Parts that run alike may be put in a row: the pass is the same in between. -/
protected theorem bind {g : α → β} {h : γ → δ} {m : Realizing σ α} {m' : Realizing σ β}
    {k : α → Realizing σ γ} {k' : β → Realizing σ δ} (hm : Relocates f g m m')
    (hk : ∀ a, Relocates f h (k a) (k' (g a))) : Relocates f h (m >>= k) (m' >>= k') := by
  intro pass
  have hfirst := hm pass
  rw [EStateM.run_bind, EStateM.run_bind, hfirst]
  cases m.run pass with
  | error e pass' => rfl
  | ok a pass' => exact hk a pass'

/-- The results may be put into another form, if this changes their positions as well. -/
protected theorem map {g : α → β} {h : γ → δ} {m : Realizing σ α} {m' : Realizing σ β}
    {k : α → γ} {k' : β → δ} (hm : Relocates f g m m') (hk : ∀ a, k' (g a) = h (k a)) :
    Relocates f h (m >>= fun a => pure (k a)) (m' >>= fun b => pure (k' b)) := by
  refine hm.bind ?_
  intro a
  rw [hk]
  exact Relocates.pure h (k a)

/-- A check passes or fails at its new position. -/
protected theorem checked (p : Position) (x : Except SemanticFault α) :
    Relocates f id (checked p x : Realizing σ α) (checked (f p) x) := by
  cases x with
  | ok a => exact Relocates.pure id a
  | error fault => exact Relocates.fail id p fault

/-- A check that gives its own positions. -/
protected theorem checkedAt {g : α → β} {x : Except SemanticError α} {y : Except SemanticError β}
    (h : y = (x.mapError (SemanticError.relocate f)).map g) :
    Relocates f g (checkedAt x : Realizing σ α) (checkedAt y) := by
  subst h
  cases x with
  | ok a => exact Relocates.pure g a
  | error e => exact Relocates.fail g e.position e.fault

/-- Whether there is a base image does not depend on positions. -/
protected theorem requireBase (d : Declaration) :
    Relocates f id (requireBase d : Realizing σ Unit) (requireBase (d.relocate f)) := by
  unfold requireBase
  refine Relocates.get.bind ?_
  intro pass
  rw [Declaration.position_relocate, Declaration.keyword_relocate, id]
  split
  · exact Relocates.pure id ()
  · exact Relocates.fail id _ _

/-- A name is taken, or refused at its new position. -/
protected theorem takeName (p : Position) (name : String) :
    Relocates f id (takeName p name : Realizing σ Unit) (takeName (f p) name) := by
  unfold takeName
  refine Relocates.get.bind ?_
  intro pass
  by_cases h : pass.names.contains name = true
  · simp only [id, h, if_true]
    exact fun _ => rfl
  · simp only [id, h]
    exact Relocates.modify _

variable {l : Library σ}

/-- A look-up has no position. -/
protected theorem lookUp (r : Reference) : Relocates f id (lookUp l r) (lookUp l r) := fun _ => rfl

/-- A reference is bound, or its failure stands at its new position. -/
protected theorem bindReference (p : Position) (r : Reference) :
    Relocates f id (bindReference l p r) (bindReference l (f p) r) := by
  unfold bindReference
  refine Relocates.get.bind ?_
  intro pass
  rw [id]
  cases pass.bound.lookup r with
  | some d => exact Relocates.pure id d
  | none =>
    refine (Relocates.lookUp r).bind ?_
    intro answer
    cases answer with
    | error cause => exact fun _ => rfl
    | ok d => exact (Relocates.modify _).bind fun _ => Relocates.pure id d

/-- An action has no position, and its failure stands at its new one. -/
protected theorem actionOf (group : Option String) (d : Declaration) :
    Relocates f id (actionOf l group d) (actionOf l group (d.relocate f)) := by
  cases d with
  | base p r =>
    cases group with
    | some name => exact fun _ => rfl
    | none =>
      simp only [Declaration.relocate, actionOf, Option.isSome_none, Bool.false_eq_true, if_false]
      refine Relocates.get.bind ?_
      intro pass
      by_cases h : pass.seenBase = true
      · simp only [id, h, if_true]
        exact fun _ => rfl
      · simp only [id, h]
        refine (Relocates.modify _).bind ?_
        intro _
        exact (Relocates.bindReference p r).map fun _ => rfl
  | dep p r =>
    refine (Relocates.requireBase (.dep p r)).bind ?_
    intro _
    exact (Relocates.bindReference p r).map fun _ => rfl
  | instruction p keyword value =>
    refine (Relocates.requireBase (.instruction p keyword value)).bind ?_
    intro _
    exact Relocates.checked p (keyword.check value)
  | block p keyword entries =>
    refine (Relocates.requireBase (.block p keyword entries)).bind ?_
    intro _
    apply Relocates.checkedAt
    rw [BlockKeyword.check_relocate, Except.map_id]
    rfl
  | step p name after body => exact Relocates.fail id p (.nestedStep name)

/-- A step is made at its new position. -/
protected theorem stepOf (group : Option String) (d : Declaration) :
    Relocates f (Step.relocate f) (stepOf l group d) (stepOf l group (d.relocate f)) := by
  refine (Relocates.actionOf group d).map ?_
  intro action
  rw [Declaration.position_relocate]
  rfl

/-- Steps are made at their new positions. -/
protected theorem stepsOf (group : Option String) (ds : List Declaration) :
    Relocates f (List.map (Step.relocate f)) (stepsOf l group ds)
      (stepsOf l group (ds.map (Declaration.relocate f))) := by
  induction ds with
  | nil => exact Relocates.pure _ []
  | cons d ds ih =>
    refine (Relocates.stepOf group d).bind ?_
    intro step
    exact ih.map fun _ => rfl

/-- A unit is made of steps at their new positions. -/
protected theorem unitOf (d : Declaration) :
    Relocates f (List.map (Step.relocate f)) (unitOf l d) (unitOf l (d.relocate f)) := by
  cases d with
  | step p name after body =>
    simp only [Declaration.relocate, unitOf, Declaration.relocateAll_eq_map, List.isEmpty_map]
    refine (Relocates.requireBase (.step p name after body)).bind ?_
    intro _
    refine (Relocates.takeName p name).bind ?_
    intro _
    by_cases h : body.isEmpty = true
    · simp only [h, if_true]
      exact fun _ => rfl
    · simp only [h]
      exact Relocates.stepsOf (some name) body
  | base p r => exact Relocates.stepsOf none [.base p r]
  | dep p r => exact Relocates.stepsOf none [.dep p r]
  | instruction p keyword value => exact Relocates.stepsOf none [.instruction p keyword value]
  | block p keyword entries => exact Relocates.stepsOf none [.block p keyword entries]

/-- Units are made of steps at their new positions. -/
protected theorem unitsOf (ds : List Declaration) :
    Relocates f (List.map (List.map (Step.relocate f))) (unitsOf l ds)
      (unitsOf l (ds.map (Declaration.relocate f))) := by
  induction ds with
  | nil => exact Relocates.pure _ []
  | cons d ds ih =>
    refine (Relocates.unitOf d).bind ?_
    intro unit
    exact ih.map fun _ => rfl

/-- A whole realization. -/
protected theorem realizing (spec : Specification) :
    Relocates f (Realization.relocate f) (realizing l spec)
      (realizing l (spec.map (Declaration.relocate f))) := by
  refine (Relocates.unitsOf spec).bind ?_
  intro units
  refine (Relocates.checkedAt (orderOf_relocate f spec)).map ?_
  intro order
  -- The order picks a unit by its number, and numbers are kept.
  have hunit : ∀ i, (units.map (List.map (Step.relocate f))).getD i []
      = (units.getD i []).map (Step.relocate f) := by
    intro i
    rw [List.getD_eq_getElem?_getD, List.getD_eq_getElem?_getD, List.getElem?_map]
    cases units[i]? <;> rfl
  simp only [Realization.relocate, List.map_flatMap, List.flatMap_map, sameUnit, Fin.val_cast,
    hunit]

end Relocates

end Realization

/-- **Realization.** The library is asked the same and answers the same, wherever the declarations
    stand. -/
theorem Specification.realize_relocate {σ : Type} (l : Library σ) (spec : Specification) (s : σ) :
    Specification.realize l (spec.map (Declaration.relocate f)) s
      = ((((spec.realize l s).1.mapError (Error.relocate f)).map (Realization.relocate f)),
          (spec.realize l s).2) := by
  have h := Realization.Relocates.realizing (f := f) (l := l) spec { library := s }
  unfold Specification.realize
  rw [h]
  cases (Realization.realizing l spec).run { library := s } <;> rfl

/-! ### Scripts -/

namespace Script

/-- Lines have no positions, and a step that cannot be written is reported at its new one. -/
theorem linesAfter_relocate (naming : Naming) (previous : Option String) (steps : List Step) :
    linesAfter naming previous (steps.map (Step.relocate f))
      = (linesAfter naming previous steps).mapError (EmissionError.relocate f) := by
  induction steps generalizing previous with
  | nil => rfl
  | cons step rest ih =>
    have haction : (step.relocate f).action = step.action := rfl
    have hgroup : (step.relocate f).group = step.group := rfl
    rw [List.map_cons, linesAfter, linesAfter, haction, hgroup, ih]
    cases actionLines naming step.action with
    | error fault => rfl
    | ok lines => cases linesAfter naming step.group rest <;> rfl

/-- A script has no positions, and a step that cannot be written is reported at its new one. -/
theorem render_relocate (naming : Naming) (steps : List Step) :
    render naming (steps.map (Step.relocate f))
      = (render naming steps).mapError (EmissionError.relocate f) := by
  rw [render, render, ofSteps, ofSteps, linesAfter_relocate]
  cases linesAfter naming none steps <;> rfl

end Script

namespace Service

/-- The same script goes to the sink, and a failure is reported at its new position. -/
theorem emitScript_relocate (naming : Script.Naming) (r : Realization) (sink : Sink) :
    emitScript naming (r.relocate f) sink
      = ((emitScript naming r sink).1.mapError (Error.relocate f),
          (emitScript naming r sink).2) := by
  rw [emitScript, emitScript, Realization.relocate, Script.render_relocate]
  cases Script.render naming r.steps with
  | error e => rfl
  | ok script =>
    simp only [Except.mapError]
    cases sink.write script with
    | error fault => rfl
    | ok written =>
      dsimp only
      cases written.flush <;> rfl

variable {σ : Type}

/-- How a build ended, with other positions in its error. -/
def relocateBuild (f : Position → Position) (x : (Except Error Unit × Sink) × σ) :
    (Except Error Unit × Sink) × σ := ((x.1.1.mapError (Error.relocate f), x.1.2), x.2)

/-- **Building.** Other positions in what was read give other positions in the error, if there is
    one, and nothing else. -/
theorem buildRead_relocate (l : Library σ) (sink : Sink) (s : σ)
    (read : Except SyntaxError Specification) :
    buildRead l sink s (Declaration.relocateResult f read)
      = relocateBuild f (buildRead l sink s read) := by
  cases read with
  | error e => rfl
  | ok spec =>
    rw [Declaration.relocateResult, buildRead, buildRead, Specification.realize_relocate]
    rcases spec.realize l s with ⟨e | r, s'⟩
    · rfl
    · simp only [Except.mapError, Except.map, emitScript_relocate, relocateBuild]

/-- What is read from a text, positions aside, depends only on its tokens, positions aside. -/
theorem ofBytes_unplaced {text : String} {tokens : List (Placed Token)}
    (h : Lexer.tokenize text = .ok tokens) :
    Declaration.relocateResult (fun _ => .start) (Specification.ofBytes text.toUTF8)
      = Declaration.read .start (Declaration.unread (tokens.map Placed.value)) := by
  have hread : Specification.ofBytes text.toUTF8
      = Declaration.read (.after text.toList) tokens := by
    rw [Lexer.tokenize] at h
    rw [Specification.ofBytes_toUTF8, Specification.ofChars, h]
  rw [hread, ← Declaration.read_relocate, Declaration.map_relocate_eq_unread]
  rfl

/-- Texts with the same tokens are built alike, positions aside. -/
theorem build_unplaced (l : Library σ) (sink : Sink) (s : σ) {t₁ t₂ : String}
    {tokens₁ tokens₂ : List (Placed Token)} (h₁ : Lexer.tokenize t₁ = .ok tokens₁)
    (h₂ : Lexer.tokenize t₂ = .ok tokens₂)
    (hsame : tokens₁.map Placed.value = tokens₂.map Placed.value) :
    relocateBuild (fun _ => .start) ((ofLibrary l).build (.ok t₁.toUTF8) sink s)
      = relocateBuild (fun _ => .start) ((ofLibrary l).build (.ok t₂.toUTF8) sink s) := by
  rw [build_eq_buildRead, build_eq_buildRead, ← buildRead_relocate, ← buildRead_relocate,
    ofBytes_unplaced h₁, ofBytes_unplaced h₂, hsame]

/-- **Reformatting.** Two texts whose tokens differ in their positions only are built alike over
    every library: the same look-ups are made in the same order, the same script is written, and
    either both builds succeed or they fail with errors of the same kind, rule and cause. -/
theorem build_reformatted (l : Library σ) (s : σ) (sink : Sink) {t₁ t₂ : String}
    {tokens₁ tokens₂ : List (Placed Token)} (h₁ : Lexer.tokenize t₁ = .ok tokens₁)
    (h₂ : Lexer.tokenize t₂ = .ok tokens₂)
    (hsame : tokens₁.map Placed.value = tokens₂.map Placed.value) :
    let run (t : String) := (ofLibrary l.recorded).build (.ok t.toUTF8) sink ⟨s, []⟩
    (run t₁).2.calls = (run t₂).2.calls ∧ (run t₁).1.2.received = (run t₂).1.2.received ∧
      SameEnd (run t₁).1.1 (run t₂).1.1 := by
  intro run
  -- With all positions forgotten the two runs are equal; only the errors had any.
  have h : relocateBuild (fun _ => .start) (run t₁) = relocateBuild (fun _ => .start) (run t₂) :=
    build_unplaced l.recorded sink ⟨s, []⟩ h₁ h₂ hsame
  simp only [relocateBuild, Prod.mk.injEq] at h
  obtain ⟨⟨hresult, hsink⟩, hstate⟩ := h
  exact ⟨by rw [hstate], by rw [hsink], sameEnd_of_unplaced_eq hresult⟩

/-- A specification on one line. -/
def compactText : String := "base=\"debian\" dep=\"node\" # image"

/-- The same on several lines. -/
def spreadText : String := "# image\r\nbase = // \"it\"\n  \"debian\"\n\tdep =\n\"node\"\n"

/-- Both texts are built alike over the sample catalog. -/
theorem build_spreadText :
    let run (t : String) :=
      (ofLibrary Catalog.library.recorded).build (.ok t.toUTF8) {} ⟨Realization.sampleCatalog, []⟩
    (run compactText).2.calls = (run spreadText).2.calls ∧
      (run compactText).1.2.received = (run spreadText).1.2.received ∧
      SameEnd (run compactText).1.1 (run spreadText).1.1 := by
  have h₁ : Lexer.tokenize compactText = .ok [⟨⟨1, 1⟩, .word "base"⟩, ⟨⟨1, 5⟩, .equals⟩,
      ⟨⟨1, 6⟩, .literal "debian"⟩, ⟨⟨1, 15⟩, .word "dep"⟩, ⟨⟨1, 18⟩, .equals⟩,
      ⟨⟨1, 19⟩, .literal "node"⟩] := by
    with_unfolding_all rfl
  have h₂ : Lexer.tokenize spreadText = .ok [⟨⟨2, 1⟩, .word "base"⟩, ⟨⟨2, 6⟩, .equals⟩,
      ⟨⟨3, 3⟩, .literal "debian"⟩, ⟨⟨4, 2⟩, .word "dep"⟩, ⟨⟨4, 6⟩, .equals⟩,
      ⟨⟨5, 1⟩, .literal "node"⟩] := by
    with_unfolding_all rfl
  exact build_reformatted Catalog.library Realization.sampleCatalog {} h₁ h₂ rfl

end Service

end ImageSpec

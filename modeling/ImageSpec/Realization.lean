import ImageSpec.Error
import ImageSpec.Library
import ImageSpec.Specification
import ImageSpec.UnitGraph.Walk

namespace ImageSpec

/-!
# Realizing a specification

Realization goes through the declarations in order, and into steps when it meets them.  It binds
references through a library, checks values and the rules of the language, and stops at the first
fault.  A reference is looked up once, however often it is mentioned.  At the end the units are put
into the order that their prerequisites ask for.
-/

/-- The steps of a build in the order in which they are run. -/
structure Realization where
  steps : List Step := []
deriving DecidableEq

namespace Realization

/-- The definition of the base image. -/
def base? (r : Realization) : Option Definition := r.steps.findSome? fun s => s.action.base?

/-! ### Declarations -/

/-- What a realization remembers: the library's state, the references that are bound, whether the
    base image has been seen, and the names of the steps. -/
structure Pass (σ : Type) where
  library : σ
  bound : List (Reference × Definition) := []
  seenBase : Bool := false
  names : List String := []

variable {σ : Type}

/-- A part of a realization over a library with states in `σ`. -/
abbrev Realizing (σ : Type) : Type → Type := EStateM Error (Pass σ)

/-- Breaks off with a fault. -/
def fail {α : Type} (position : Position) (fault : SemanticFault) : Realizing σ α :=
  throw (.semantic ⟨position, fault⟩)

/-- The result of a check, or its fault at a position. -/
def checked {α : Type} (position : Position) : Except SemanticFault α → Realizing σ α
  | .ok a => pure a
  | .error fault => fail position fault

/-- The result of a check that gives its own positions. -/
def checkedAt {α : Type} : Except SemanticError α → Realizing σ α
  | .ok a => pure a
  | .error e => throw (.semantic e)

/-- Breaks off unless the base image has been seen. -/
def requireBase (d : Declaration) : Realizing σ Unit := do
  if (← get).seenBase then pure () else fail d.position (.missingBase d.keyword)

/-- Asks the library for a reference. -/
def lookUp (l : Library σ) (r : Reference) : Realizing σ (Except LookupError Definition) :=
  modifyGet fun pass =>
    let (answer, state) := l.lookup r pass.library
    (answer, { pass with library := state })

/-- Binds a reference; one that is bound already is not looked up again. -/
def bindReference (l : Library σ) (position : Position) (r : Reference) :
    Realizing σ Definition := do
  match (← get).bound.lookup r with
  | some d => return d
  | none =>
    match ← lookUp l r with
    | .error cause => throw (.resolution position r cause)
    | .ok d =>
      modify fun pass => { pass with bound := (r, d) :: pass.bound }
      return d

/-- The action of a declaration at the top level or in a step. -/
def actionOf (l : Library σ) (group : Option String) (d : Declaration) : Realizing σ Action :=
  match d with
  | .base position reference => do
    if group.isSome then fail position .baseInStep
    if (← get).seenBase then fail position .duplicateBase
    modify fun pass => { pass with seenBase := true }
    return .base (← bindReference l position reference)
  | .dep position reference => do
    requireBase d
    return .dep (← bindReference l position reference)
  | .instruction position keyword value => do
    requireBase d
    checked position (keyword.check value)
  | .block position keyword entries => do
    requireBase d
    checkedAt (keyword.check position entries)
  | .step position name _ _ => fail position (.nestedStep name)

/-- The step of a declaration. -/
def stepOf (l : Library σ) (group : Option String) (d : Declaration) : Realizing σ Step := do
  return ⟨d.position, group, ← actionOf l group d⟩

/-- The steps of declarations in one group. -/
def stepsOf (l : Library σ) (group : Option String) : List Declaration → Realizing σ (List Step)
  | [] => return []
  | d :: rest => do
    let step ← stepOf l group d
    let steps ← stepsOf l group rest
    return step :: steps

/-- Notes the name of a step, which may come only once. -/
def takeName (position : Position) (name : String) : Realizing σ Unit := do
  if (← get).names.contains name then fail position (.duplicateStep name)
  modify fun pass => { pass with names := name :: pass.names }

/-- The steps of a unit. -/
def unitOf (l : Library σ) (d : Declaration) : Realizing σ (List Step) :=
  match d with
  | .step position name _ body => do
    requireBase d
    takeName position name
    if body.isEmpty then fail position (.emptyStep name)
    stepsOf l (some name) body
  | _ => stepsOf l none [d]

/-- The steps of all units. -/
def unitsOf (l : Library σ) : List Declaration → Realizing σ (List (List Step))
  | [] => return []
  | d :: rest => do
    let unit ← unitOf l d
    let units ← unitsOf l rest
    return unit :: units

/-! ### Order -/

/-- The name that messages give a unit. -/
def labelOf : Declaration → String
  | .step _ name _ _ => name
  | d => d.keyword

/-- Whether a declaration is the step with a name. -/
def isStepNamed (name : String) : Declaration → Bool
  | .step _ other _ _ => other == name
  | _ => false

/-- The edges to the prerequisites that a step lists. -/
def edgesTo (spec : Specification) (i : Fin spec.length) (name : String) :
    List Prerequisite → Except SemanticError (List (Edge spec.length))
  | [] => .ok []
  | p :: rest =>
    match spec.findFinIdx? (isStepNamed p.name) with
    | none => .error ⟨p.position, .undeclaredPrerequisite name p.name⟩
    | some j => (edgesTo spec i name rest).map (⟨i, j⟩ :: ·)

/-- The edges to the prerequisites of some of the units. -/
def edgesOf (spec : Specification) :
    List (Fin spec.length) → Except SemanticError (List (Edge spec.length))
  | [] => .ok []
  | i :: rest =>
    match spec.get i with
    | .step _ name after _ =>
      match edgesTo spec i name after with
      | .error e => .error e
      | .ok edges => (edgesOf spec rest).map (edges ++ ·)
    | _ => edgesOf spec rest

/-- The units of a specification and their prerequisites. -/
def graphOf (spec : Specification) : Except SemanticError (UnitGraph spec.length) :=
  (edgesOf spec (List.finRange spec.length)).map fun edges =>
    { unit := fun i => ⟨labelOf (spec.get i), (spec.get i).position⟩, edges }

/-- The order in which the units of a specification are built. -/
def orderOf (spec : Specification) : Except SemanticError (List (Fin spec.length)) :=
  match graphOf spec with
  | .error e => .error e
  | .ok graph => graph.order

/-- The realization of a specification. -/
def realizing (l : Library σ) (spec : Specification) : Realizing σ Realization := do
  let units ← unitsOf l spec
  let order ← checkedAt (orderOf spec)
  return ⟨order.flatMap fun i => units.getD i.val []⟩

end Realization

/-- Realizes a specification over a library in a given state. -/
def Specification.realize {σ : Type} (l : Library σ) (spec : Specification) (s : σ) :
    Except Error Realization × σ :=
  match (Realization.realizing l spec).run { library := s } with
  | .ok r pass => (.ok r, pass.library)
  | .error e pass => (.error e, pass.library)

end ImageSpec

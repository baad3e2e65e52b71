import ImageSpec.Reference
import ImageSpec.Version

namespace ImageSpec.Version

/-!
# Constraints on versions

`*`, `latest` and no constraint at all admit every version, `=V` the versions equal to `V`, `>=V`
those not before `V`, and any other text `V` those that begin with the components of `V`.  `select`
picks the highest admitted candidate; of several equal ones the last.
-/

/-- Which versions are admitted. -/
inductive Constraint where
  | any
  | exact (version : String)
  | atLeast (version : String)
  | leading (version : String)
deriving DecidableEq, Repr

/-- Reads a constraint; none written admits every version. -/
def Constraint.parse (written : Option String) : Constraint :=
  match written with
  | none => .any
  | some c =>
    if c = "*" ∨ c = "latest" then .any
    else match c.toList with
      | '>' :: '=' :: version => .atLeast (String.ofList version)
      | '=' :: version => .exact (String.ofList version)
      | _ => .leading c

/-- The version that a constraint names. -/
def Constraint.version? : Constraint → Option String
  | any => none
  | exact v => some v
  | atLeast v => some v
  | leading v => some v

/-- Whether a version is admitted. -/
def Constraint.admits (c : Constraint) (version : String) : Bool :=
  match c with
  | any => true
  | exact v => compare version v == .eq
  | atLeast v => compare version v != .lt
  | leading v => (components v).isPrefixOf (components version)

/-- The highest of the candidates; of several equal ones the last. -/
def highest? {α : Type} (versionOf : α → String) : List α → Option α
  | [] => none
  | a :: rest =>
    some (rest.foldl (fun best c =>
      if compare (versionOf best) (versionOf c) == .gt then best else c) a)

/-- Versions in ascending order; equal ones keep their order. -/
def sort (versions : List String) : List String :=
  versions.mergeSort fun a b => compare a b != .gt

/-- Picks the highest candidate that the constraint admits. -/
def select {α : Type} (name : String) (constraint : Option String) (candidates : List α)
    (versionOf : α → String) : Except LookupError α :=
  if candidates.isEmpty then .error (.unknownName name)
  else
    match highest? versionOf (candidates.filter fun c =>
        (Constraint.parse constraint).admits (versionOf c)) with
    | some best => .ok best
    | none => .error (.noMatch name (constraint.getD "*") (sort (candidates.map versionOf)))

end ImageSpec.Version

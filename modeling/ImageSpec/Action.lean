import ImageSpec.Definition
import ImageSpec.Position

namespace ImageSpec

/-!
# Steps of a build

A step is what is left of a declaration once its reference is bound and its value is checked: an
action, with the position and the group it comes from.
-/

/-- How a command is given: as a line for the shell, or as a program with its arguments. -/
inductive Command where
  | shell (line : String)
  | exec (arguments : List String)
deriving DecidableEq, Repr

/-- What a step does. -/
inductive Action where
  | base (definition : Definition)
  | dep (definition : Definition)
  | run (command : Command)
  | cmd (command : Command)
  | entrypoint (command : Command)
  | env (pairs : List (String × String))
  | label (pairs : List (String × String))
  | workdir (path : String)
  | copy (sources : List String) (destination : String)
  | expose (port : Nat)
  | user (name : String)
deriving DecidableEq

namespace Action

/-- The kind of an action, as plans show it. -/
def kind : Action → String
  | base _ => "base"
  | dep _ => "dep"
  | run _ => "run"
  | cmd _ => "cmd"
  | entrypoint _ => "entrypoint"
  | env _ => "env"
  | label _ => "label"
  | workdir _ => "workdir"
  | copy _ _ => "copy"
  | expose _ => "expose"
  | user _ => "user"

/-- The definition behind a base image or a dependency. -/
def definition? : Action → Option Definition
  | base d => some d
  | dep d => some d
  | _ => none

/-- The definition of a base image. -/
def base? : Action → Option Definition
  | base d => some d
  | _ => none

end Action

/-- An action, with the position of its declaration and the name of the step it belongs to. -/
structure Step where
  position : Position
  group : Option String
  action : Action
deriving DecidableEq

end ImageSpec

import ImageSpec.Position
import ImageSpec.Reference

namespace ImageSpec

/-!
# Declarations

A specification is a list of declarations.  A declaration names the base image or a dependency, gives
an instruction its value, sets variables or labels, or groups declarations into a named step.
-/

/-- The keywords that take one value. -/
inductive Keyword where
  | run
  | cmd
  | entrypoint
  | workdir
  | copy
  | expose
  | user
deriving DecidableEq, Repr

namespace Keyword

/-- A keyword as it is written. -/
def text : Keyword → String
  | run => "run"
  | cmd => "cmd"
  | entrypoint => "entrypoint"
  | workdir => "workdir"
  | copy => "copy"
  | expose => "expose"
  | user => "user"

/-- The keyword that a word stands for. -/
def ofWord? (word : String) : Option Keyword :=
  [run, cmd, entrypoint, workdir, copy, expose, user].find? fun k => k.text == word

end Keyword

/-- The keywords that take a block of entries. -/
inductive BlockKeyword where
  | env
  | label
deriving DecidableEq, Repr

namespace BlockKeyword

/-- A keyword as it is written. -/
def text : BlockKeyword → String
  | env => "env"
  | label => "label"

/-- The keyword that a word stands for. -/
def ofWord? (word : String) : Option BlockKeyword :=
  [env, label].find? fun k => k.text == word

end BlockKeyword

/-- The value of an instruction. -/
inductive Value where
  | text (s : String)
  | integer (n : Int)
  | list (items : List String)
deriving DecidableEq, Repr

/-- The shape of a value, in words. -/
def Value.shape : Value → String
  | text _ => "a string"
  | integer _ => "an integer"
  | list _ => "a list"

/-- An entry of a block. -/
structure Entry where
  position : Position
  key : String
  value : String
deriving DecidableEq, Repr

/-- The name of a step that has to come first. -/
structure Prerequisite where
  position : Position
  name : String
deriving DecidableEq, Repr

/-- A declaration, with the position of its keyword. -/
inductive Declaration where
  | base (position : Position) (reference : Reference)
  | dep (position : Position) (reference : Reference)
  | instruction (position : Position) (keyword : Keyword) (value : Value)
  | block (position : Position) (keyword : BlockKeyword) (entries : List Entry)
  | step (position : Position) (name : String) (after : List Prerequisite) (body : List Declaration)

namespace Declaration

/-- The position of a declaration's keyword. -/
def position : Declaration → Position
  | base p _ => p
  | dep p _ => p
  | instruction p _ _ => p
  | block p _ _ => p
  | step p _ _ _ => p

/-- A declaration's keyword as it is written. -/
def keyword : Declaration → String
  | base _ _ => "base"
  | dep _ _ => "dep"
  | instruction _ k _ => k.text
  | block _ k _ => k.text
  | step _ _ _ _ => "step"

end Declaration

end ImageSpec

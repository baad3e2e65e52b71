import ImageSpec.Declaration

namespace ImageSpec

/-!
# Broken rules

A specification that can be read may still break a rule of the language.  `SemanticFault` says which
one and on what, `SemanticFault.rule` is the rule's name and `SemanticFault.message` its wording.
-/

/-- The rules that a specification has to keep. -/
inductive SemanticRule where
  | missingBase
  | duplicateBase
  | baseInStep
  | nestedStep
  | duplicateStep
  | undeclaredPrerequisite
  | dependencyCycle
  | missingArgument
  | invalidArgument
deriving DecidableEq, Repr

/-- The name of a rule. -/
def SemanticRule.text : SemanticRule → String
  | missingBase => "missing-base"
  | duplicateBase => "duplicate-base"
  | baseInStep => "base-in-step"
  | nestedStep => "nested-step"
  | duplicateStep => "duplicate-step"
  | undeclaredPrerequisite => "undeclared-prerequisite"
  | dependencyCycle => "dependency-cycle"
  | missingArgument => "missing-argument"
  | invalidArgument => "invalid-argument"

/-- The shape of value that a keyword takes, in words. -/
def Keyword.expects : Keyword → String
  | run => "a string or a list"
  | cmd => "a string or a list"
  | entrypoint => "a string or a list"
  | workdir => "a string"
  | user => "a string"
  | copy => "a list of paths"
  | expose => "an integer port"

/-- How a specification breaks a rule. -/
inductive SemanticFault where
  | missingBase (keyword : String)
  | duplicateBase
  | baseInStep
  | nestedStep (name : String)
  | duplicateStep (name : String)
  | undeclaredPrerequisite (name prerequisite : String)
  | dependencyCycle (label : String)
  | emptyStep (name : String)
  | emptyCommand (keyword : Keyword)
  | longCommand (keyword : Keyword)
  | noProgram (keyword : Keyword)
  | wrongShape (keyword : Keyword) (value : Value)
  | emptyText (keyword : Keyword)
  | longText (keyword : Keyword)
  | fewPaths
  | emptyPath
  | longPath
  | badPort (port : Int)
  | emptyBlock (keyword : BlockKeyword)
  | badVariable (key : String)
  | emptyLabel
  | longEntry (keyword : BlockKeyword) (key : String)
deriving DecidableEq, Repr

namespace SemanticFault

/-- The rule that is broken. -/
def rule : SemanticFault → SemanticRule
  | missingBase _ => .missingBase
  | duplicateBase => .duplicateBase
  | baseInStep => .baseInStep
  | nestedStep _ => .nestedStep
  | duplicateStep _ => .duplicateStep
  | undeclaredPrerequisite _ _ => .undeclaredPrerequisite
  | dependencyCycle _ => .dependencyCycle
  | emptyStep _ => .missingArgument
  | emptyCommand _ => .missingArgument
  | longCommand _ => .invalidArgument
  | noProgram _ => .missingArgument
  | wrongShape _ _ => .invalidArgument
  | emptyText _ => .missingArgument
  | longText _ => .invalidArgument
  | fewPaths => .missingArgument
  | emptyPath => .missingArgument
  | longPath => .invalidArgument
  | badPort _ => .invalidArgument
  | emptyBlock _ => .missingArgument
  | badVariable _ => .invalidArgument
  | emptyLabel => .missingArgument
  | longEntry _ _ => .invalidArgument

/-- What is wrong, in words. -/
def message : SemanticFault → String
  | missingBase keyword => "`" ++ keyword ++ "` appears before any `base`"
  | duplicateBase => "only one `base` may be declared"
  | baseInStep => "`base` must be declared at the top level"
  | nestedStep name => "step `" ++ name ++ "` is nested inside another step"
  | duplicateStep name => "step `" ++ name ++ "` is declared more than once"
  | undeclaredPrerequisite name prerequisite =>
    "step `" ++ name ++ "` runs after `" ++ prerequisite ++ "`, which is not declared"
  | dependencyCycle label => "step `" ++ label ++ "` is part of a dependency cycle"
  | emptyStep name => "step `" ++ name ++ "` has no declarations"
  | emptyCommand keyword => "`" ++ keyword.text ++ "` command is empty"
  | longCommand keyword => "`" ++ keyword.text ++ "` command must fit on one line"
  | noProgram keyword => "`" ++ keyword.text ++ "` exec form needs a program"
  | wrongShape keyword value =>
    "`" ++ keyword.text ++ "` expects " ++ keyword.expects ++ ", found " ++ value.shape
  | emptyText keyword => "`" ++ keyword.text ++ "` is empty"
  | longText keyword => "`" ++ keyword.text ++ "` must fit on one line"
  | fewPaths => "`copy` needs a source and a destination"
  | emptyPath => "`copy` path is empty"
  | longPath => "`copy` path must fit on one line"
  | badPort port => "port " ++ port.repr ++ " is outside 1-65535"
  | emptyBlock keyword => "`" ++ keyword.text ++ "` block has no entries"
  | badVariable key => "`" ++ key ++ "` is not a valid environment variable name"
  | emptyLabel => "label key is empty"
  | longEntry keyword key => "`" ++ keyword.text ++ "` entry `" ++ key ++ "` spans several lines"

end SemanticFault

/-- A broken rule and the place where it is broken. -/
structure SemanticError where
  position : Position
  fault : SemanticFault
deriving DecidableEq, Repr

/-- The message for a broken rule. -/
def SemanticError.message (e : SemanticError) : String :=
  "semantic error at " ++ e.position.text ++ ": [" ++ e.fault.rule.text ++ "] " ++ e.fault.message

end ImageSpec

import ImageSpec.Action.Check
import ImageSpec.Script.Quoting
import ImageSpec.Text.Quoted

namespace ImageSpec

/-!
# Build scripts

A script is what an image builder runs: a line for each instruction, with the lines of a command of
several lines joined by continuation marks.  `Script.ofSteps` gives the lines of all steps, with a
comment before the first step of each group, and `Script.render` the text.
-/

/-- Why a step cannot be written into a script. -/
inductive EmissionFault where
  | noArguments (instruction : String)
  | emptyCommand (instruction : String)
  | notOneLine (value : String)
  | uncanonical (name : String) (cause : LookupError)
  | emptyInstall (name : String)
  | badVariable (name key : String)
  | longVariable (name key : String)
deriving DecidableEq, Repr

/-- What is wrong with a step, in words. -/
def EmissionFault.message : EmissionFault → String
  | noArguments instruction => instruction ++ " has no arguments"
  | emptyCommand instruction => instruction ++ " command is empty"
  | notOneLine value => Text.quoteText value ++ " cannot be written on one line"
  | uncanonical name cause => "cannot canonicalize `" ++ name ++ "`: " ++ cause.message
  | emptyInstall name => "install command of `" ++ name ++ "` is empty"
  | badVariable name key =>
    "`" ++ name ++ "` exports invalid environment variable name " ++ Text.quoteText key
  | longVariable name key =>
    "`" ++ name ++ "` exports " ++ key ++ " with a value that spans several lines"

/-- A step that cannot be written into a script. -/
structure EmissionError where
  position : Position
  fault : EmissionFault
deriving DecidableEq, Repr

/-- The message for a step that cannot be written. -/
def EmissionError.message (e : EmissionError) : String :=
  "emission error at " ++ e.position.text ++ ": " ++ e.fault.message

namespace Script

/-- An instruction with its arguments, without the line feed that ends it. -/
abbrev Line : Type := List Char

/-- The name under which a script mentions a definition. -/
abbrev Naming : Type := Definition → Except LookupError String

/-- An instruction and what follows it. -/
def line (instruction : String) (arguments : List Char) : Line :=
  instruction.toList ++ [' '] ++ arguments

/-! ### Actions -/

/-- The line of a command. -/
def commandLine (instruction : String) : Command → Except EmissionFault Line
  | .shell command =>
    if isBlankText command then .error (.emptyCommand instruction)
    else .ok (line instruction (shellContinued command.toList))
  | .exec arguments =>
    if arguments.isEmpty then .error (.noArguments instruction)
    else .ok (line instruction (execForm arguments))

/-- The line of a text that has to stand on one line. -/
def textLine (instruction : String) (value : String) : Except EmissionFault Line :=
  if value.isEmpty || hasLineBreak value then .error (.notOneLine value)
  else .ok (line instruction value.toList)

/-- The line that sets an environment variable. -/
def envLine (key value : String) : Line :=
  line "ENV" (key.toList ++ ['='] ++ doubleQuoted value.toList)

/-- The line that sets a label. -/
def labelLine (key value : String) : Line :=
  line "LABEL" (doubleQuoted key.toList ++ ['='] ++ doubleQuoted value.toList)

/-- The line of a copy. -/
def copyLine (sources : List String) (destination : String) : Except EmissionFault Line :=
  let paths := sources ++ [destination]
  if sources.isEmpty then .error (.noArguments "COPY")
  else if paths.any needsExecForm then .ok (line "COPY" (execForm paths))
  else .ok (line "COPY" (Text.joinWith [' '] (paths.map String.toList)))

/-- The name of a definition in a script, or the fault that it has none. -/
def nameOf (naming : Naming) (d : Definition) : Except EmissionFault (List Char) :=
  match naming d with
  | .ok name => .ok name.toList
  | .error cause => .error (.uncanonical d.name cause)

/-- The command that a template stands for: the name, the version and the digest are put in for
    their placeholders, one after the other. -/
def installCommand (template : String) (d : Definition) : List Char :=
  replaceAll '\x7b' "digest\x7d".toList d.digest.text.toList
    (replaceAll '\x7b' "version\x7d".toList d.version.toList
      (replaceAll '\x7b' "name\x7d".toList d.name.toList template.toList))

/-- The line that brings a dependency into the image. -/
def installLine (naming : Naming) (d : Definition) : Except EmissionFault Line :=
  match d.installTemplate with
  | some template =>
    let command := installCommand template d
    if Text.allBlank command then .error (.emptyInstall d.name)
    else .ok (line "RUN" (shellContinued command))
  | none =>
    (nameOf naming d).map fun name => line "COPY" ("--from=".toList ++ name ++ " / /".toList)

/-- Whether a text has a line feed or a carriage return. -/
def hasAnyBreak (s : String) : Bool := s.toList.any fun c => c == '\n' || c == '\r'

/-- The lines of the variables that a dependency sets. -/
def exportLines (name : String) : List (String × String) → Except EmissionFault (List Line)
  | [] => .ok []
  | (key, value) :: rest =>
    if !isVariableName key then .error (.badVariable name key)
    else if hasAnyBreak value then .error (.longVariable name key)
    else (exportLines name rest).map (envLine key value :: ·)

/-- The lines of a dependency. -/
def dependencyLines (naming : Naming) (d : Definition) : Except EmissionFault (List Line) :=
  match installLine naming d with
  | .error fault => .error fault
  | .ok first => (exportLines d.name d.exports).map (first :: ·)

/-- The lines of an action. -/
def actionLines (naming : Naming) : Action → Except EmissionFault (List Line)
  | .base d => (nameOf naming d).map fun name => [line "FROM" name]
  | .dep d => dependencyLines naming d
  | .run command => (commandLine "RUN" command).map ([·])
  | .cmd command => (commandLine "CMD" command).map ([·])
  | .entrypoint command => (commandLine "ENTRYPOINT" command).map ([·])
  | .env pairs =>
    if pairs.isEmpty then .error (.noArguments "ENV")
    else .ok (pairs.map fun (key, value) => envLine key value)
  | .label pairs =>
    if pairs.isEmpty then .error (.noArguments "LABEL")
    else .ok (pairs.map fun (key, value) => labelLine key value)
  | .workdir path => (textLine "WORKDIR" path).map ([·])
  | .user name => (textLine "USER" name).map ([·])
  | .expose port => .ok [line "EXPOSE" port.repr.toList]
  | .copy sources destination => (copyLine sources destination).map ([·])

/-! ### Steps -/

/-- The comment before the first step of a group; `previous` is the group of the step before. -/
def groupComment (previous group : Option String) : List Line :=
  match group with
  | some name => if previous = group then [] else ["# step ".toList ++ name.toList]
  | none => []

/-- The lines of steps that follow a step of the group `previous`. -/
def linesAfter (naming : Naming) (previous : Option String) :
    List Step → Except EmissionError (List Line)
  | [] => .ok []
  | step :: rest =>
    match actionLines naming step.action with
    | .error fault => .error ⟨step.position, fault⟩
    | .ok lines =>
      (linesAfter naming step.group rest).map
        (groupComment previous step.group ++ lines ++ ·)

/-- The lines of all steps. -/
def ofSteps (naming : Naming) (steps : List Step) : Except EmissionError (List Line) :=
  linesAfter naming none steps

/-- The text of lines, each with a line feed at its end. -/
def text (lines : List Line) : String := String.ofList (lines.flatMap (· ++ ['\n']))

/-- The script for a list of steps. -/
def render (naming : Naming) (steps : List Step) : Except EmissionError String :=
  (ofSteps naming steps).map text

end Script

end ImageSpec

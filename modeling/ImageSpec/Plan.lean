import ImageSpec.Action
import ImageSpec.Text.Segments

namespace ImageSpec

/-!
# Plans

A plan lists the steps of a build for a reader: a row for each step with its number, its position,
its kind, what it does in short, and the step group it belongs to.
-/

/-- A digest with the first twelve characters of its encoded part. -/
def Digest.short (d : Digest) : String :=
  d.algorithm ++ ":" ++ String.ofList (d.encoded.toList.take 12)

namespace Plan

/-- The number of characters that a command may take in a row. -/
def commandWidth : Nat := 60

/-- The text, cut to `width` characters of which the last one then shows the cut. -/
def shorten (width : Nat) (cs : List Char) : List Char :=
  if cs.length ≤ width then cs else cs.take (width - 1) ++ ['…']

/-- The first line of a command, and a mark if there are more. -/
def firstLine (command : List Char) : List Char :=
  match Text.lines (Text.trim command) with
  | [] => []
  | [only] => only
  | first :: _ => first ++ " ...".toList

/-- A command in short. -/
def describeCommand : Command → List Char
  | .shell command => shorten commandWidth (firstLine command.toList)
  | .exec arguments =>
    shorten commandWidth
      (['['] ++ Text.joinWith [',', ' '] (arguments.map String.toList) ++ [']'])

/-- A definition in short. -/
def describeDefinition (d : Definition) : String :=
  d.name ++ ":" ++ d.version ++ " (" ++ d.digest.short ++ ")"

/-- Keys and values in short. -/
def describePairs (pairs : List (String × String)) : String :=
  ", ".intercalate (pairs.map fun (key, value) => key ++ "=" ++ value)

/-- An action in short. -/
def describe : Action → String
  | .base d => describeDefinition d
  | .dep d => describeDefinition d
  | .run command => String.ofList (describeCommand command)
  | .cmd command => String.ofList (describeCommand command)
  | .entrypoint command => String.ofList (describeCommand command)
  | .env pairs => describePairs pairs
  | .label pairs => describePairs pairs
  | .workdir path => path
  | .user name => name
  | .copy sources destination => " ".intercalate sources ++ " -> " ++ destination
  | .expose port => port.repr

/-- The text with spaces in front of it up to a width. -/
def alignRight (width : Nat) (s : String) : String :=
  String.ofList (List.replicate (width - s.length) ' ') ++ s

/-- The text with spaces behind it up to a width. -/
def alignLeft (width : Nat) (s : String) : String :=
  s ++ String.ofList (List.replicate (width - s.length) ' ')

/-- The row of a step. -/
def row (index : Nat) (step : Step) : String :=
  alignRight 4 index.repr ++ "  " ++ alignLeft 8 step.position.text ++ " "
    ++ alignLeft 10 step.action.kind ++ " " ++ describe step.action
    ++ (match step.group with
      | some name => "  [step " ++ name ++ "]"
      | none => "")

/-- The row under a base image or a dependency, with its name in a script. -/
def canonicalRow (canonical : String) : String := "      -> " ++ canonical

/-- A rule as wide as a heading. -/
def rule (heading : String) : String := String.ofList (List.replicate heading.length '═')

end Plan

end ImageSpec

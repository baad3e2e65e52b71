import ImageSpec.Text.Segments

namespace ImageSpec

/-!
# References

A reference names an artifact and may constrain its version: `name` or `name:constraint`.  The name
may hold a registry host with a port and a path, so the separator is looked for after the last `/`.
`Reference.parse` reads a reference and `Reference.text` writes it.

A library answers a reference with a definition or with one of four reasons (`LookupError`).
Libraries are open to new kinds of sources, so the last two carry the source's own words.
-/

/-- A name with an optional version constraint, not yet bound to an artifact. -/
structure Reference where
  name : String
  constraint : Option String
deriving DecidableEq, Repr

namespace Reference

/-- Why a text is no reference. -/
inductive Fault where
  | empty
  | blank
  | emptyConstraint
  | emptyName
  | emptySegment
  | badCharacter
deriving DecidableEq, Repr

/-- What is wrong, in words. -/
def Fault.reason : Fault → String
  | .empty => "reference is empty"
  | .blank => "reference contains whitespace"
  | .emptyConstraint => "version constraint is empty"
  | .emptyName => "name is empty"
  | .emptySegment => "name has an empty path segment"
  | .badCharacter => "name contains an unsupported character"

/-- The message for a text that is no reference. -/
def Fault.message (written : String) (f : Fault) : String :=
  "invalid reference `" ++ written ++ "`: " ++ f.reason

/-- The characters of a name. -/
def isNameChar (c : Char) : Bool :=
  c.isAlphanum || c == '.' || c == '_' || c == '-' || c == '/' || c == ':'

/-- Cuts a text after its last `/`; the second part holds none. -/
def cutPath (cs : List Char) : List Char × List Char :=
  ((cs.reverse.dropWhile (· != '/')).reverse, (cs.reverse.takeWhile (· != '/')).reverse)

/-- Cuts a text into a name and a constraint at the first `:` after the last `/`. -/
def cutConstraint (cs : List Char) : List Char × Option (List Char) :=
  let (path, last) := cutPath cs
  match Text.cutAt ':' last with
  | some (before, constraint) => (path ++ before, some constraint)
  | none => (cs, none)

/-- Checks a name: it is not empty, has no empty segment and no unsupported character. -/
def checkName (name : List Char) : Except Fault Unit :=
  if name.isEmpty then .error .emptyName
  else if (Text.splitAt '/' name).any (·.isEmpty) then .error .emptySegment
  else if name.all isNameChar then .ok ()
  else .error .badCharacter

/-- Reads a reference. -/
def parse (written : String) : Except Fault Reference :=
  let cs := written.toList
  if cs.isEmpty then .error .empty
  else if cs.any Text.isBlank then .error .blank
  else
    let (name, constraint) := cutConstraint cs
    if constraint = some [] then .error .emptyConstraint
    else match checkName name with
      | .error fault => .error fault
      | .ok () => .ok ⟨String.ofList name, constraint.map String.ofList⟩

/-- A reference as it is written. -/
def text (r : Reference) : String :=
  match r.constraint with
  | some constraint => r.name ++ ":" ++ constraint
  | none => r.name

end Reference

/-- Why a library has no definition for a reference. -/
inductive LookupError where
  | unknownName (name : String)
  | noMatch (name constraint : String) (available : List String)
  | unavailable (message : String)
  | malformed (name message : String)
deriving DecidableEq, Repr

namespace LookupError

/-- The message for a failed look-up. -/
def message : LookupError → String
  | unknownName name => "unknown name `" ++ name ++ "`"
  | noMatch name constraint available =>
    "no version of `" ++ name ++ "` satisfies `" ++ constraint ++ "` (available: "
      ++ ", ".intercalate available ++ ")"
  | unavailable message => "library backend unavailable: " ++ message
  | malformed name message => "malformed definition for `" ++ name ++ "`: " ++ message

end LookupError

end ImageSpec

import ImageSpec.Digest
import ImageSpec.Reference
import ImageSpec.Text.Segments

namespace ImageSpec

/-!
# Definitions

A definition is what a library knows about one version of an artifact.  Its metadata may name a
registry, an installation command and variables for the environment.  `Definition.canonical` is the
fully qualified name under which an image is written into a script.
-/

/-- One version of an artifact. -/
structure Definition where
  name : String
  version : String
  digest : Digest
  metadata : Metadata
deriving DecidableEq

namespace Definition

/-- The template of the command that installs the artifact. -/
def installTemplate (d : Definition) : Option String := d.metadata.get? "install"

/-- The registry that holds the artifact. -/
def registry (d : Definition) : Option String := d.metadata.get? "registry"

/-- The name of the variable that a metadata key sets: what follows `env.`, if anything does. -/
def exportedName? (key : String) : Option String :=
  match key.toList with
  | 'e' :: 'n' :: 'v' :: '.' :: c :: name => some (String.ofList (c :: name))
  | _ => none

/-- The variables that the artifact sets, in the order of the metadata. -/
def exports (d : Definition) : List (String × String) :=
  d.metadata.entries.filterMap fun (key, value) =>
    (exportedName? key).map fun name => (name, value)

/-- Whether a text can stand in the name of an image: it is not empty and holds no white space. -/
def isPrintable (s : String) : Bool := !s.toList.isEmpty && !s.toList.any Text.isBlank

/-- A registry without the slashes at its end. -/
def dropSlashes (cs : List Char) : List Char := (cs.reverse.dropWhile (· == '/')).reverse

/-- Whether a name starts with a registry and a slash. -/
def isQualified (registry name : List Char) : Bool := (registry ++ ['/']).isPrefixOf name

/-- What stands in front of the name: the registry, unless the name starts with it. -/
def qualifier (registry name : String) : String :=
  if isQualified registry.toList name.toList then ""
  else String.ofList (dropSlashes registry.toList) ++ "/"

/-- The fully qualified name of a definition: `[registry/]name:version@digest`. -/
def canonical (d : Definition) : Except LookupError String :=
  if !isPrintable d.name then
    .error (.malformed d.name "name cannot be printed as an image reference")
  else if !isPrintable d.version then
    .error (.malformed d.name "version cannot be printed as an image tag")
  else
    let identity := d.name ++ ":" ++ d.version ++ "@" ++ d.digest.text
    match d.registry with
    | none => .ok identity
    | some registry =>
      if isPrintable registry then .ok (qualifier registry d.name ++ identity)
      else .error (.malformed d.name "registry cannot be printed as an image reference")

end Definition

end ImageSpec

import ImageSpec.Files
import ImageSpec.Script
import ImageSpec.SyntaxError

namespace ImageSpec

/-!
# Everything that can go wrong

`Error` joins the faults of all parts of a build, of the catalog and of the settings.
`Error.message` is the wording of an error and `Error.causes` the messages of what lies behind it.
-/

/-- A value that is no good as a setting. -/
inductive ConfigFault where
  | digest (fault : Digest.Fault)
  | duplicateEntry (name version : String)
  | zeroTimeout
  | registryScheme (url : String)
  | invalidRegistry (url reason : String)
  | unsupportedRegistry (url : String)
  | other (message : String)
deriving DecidableEq, Repr

/-- What is wrong with a setting, in words. -/
def ConfigFault.message : ConfigFault → String
  | digest fault => fault.message
  | duplicateEntry name version => "catalog already contains " ++ name ++ ":" ++ version
  | zeroTimeout => "timeout_secs must be greater than zero"
  | registryScheme url => "unsupported registry URL scheme: " ++ url
  | invalidRegistry url reason => "invalid registry URL `" ++ url ++ "`: " ++ reason
  | unsupportedRegistry url => "unsupported registry URL: " ++ url
  | other message => message

/-- What went wrong. -/
inductive Error where
  | malformed (e : SyntaxError)
  | resolution (position : Position) (reference : Reference) (cause : LookupError)
  | semantic (e : SemanticError)
  | emission (e : EmissionError)
  | sink (fault : IoFault)
  | input (fault : IoFault)
  | file (path : String) (fault : IoFault)
  | missingEntry (id : String)
  | config (fault : ConfigFault)
  | json
  | yaml
deriving DecidableEq, Repr

namespace Error

/-- The message for an error. -/
def message : Error → String
  | malformed e => e.message
  | resolution position reference cause =>
    "cannot resolve `" ++ reference.text ++ "` at " ++ position.text ++ ": " ++ cause.message
  | semantic e => e.message
  | emission e => e.message
  | sink fault => "emission error: output sink rejected write: " ++ fault.message
  | input fault => "failed to read specification input: " ++ fault.message
  | file path fault => "I/O error at " ++ path ++ ": " ++ fault.message
  | missingEntry id => "catalog entry not found: " ++ id
  | config fault => "invalid configuration: " ++ fault.message
  | json => "serialization error"
  | yaml => "YAML error"

/-- The position in the specification that an error is about. -/
def position? : Error → Option Position
  | malformed e => some e.position
  | resolution position _ _ => some position
  | semantic e => some e.position
  | emission e => some e.position
  | _ => none

/-- The messages of what lies behind an error. -/
def causes : Error → List String
  | resolution _ _ cause => [cause.message]
  | sink fault => [fault.message]
  | input fault => [fault.message]
  | file _ fault => [fault.message]
  | _ => []

end Error

end ImageSpec

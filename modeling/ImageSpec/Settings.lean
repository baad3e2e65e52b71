import ImageSpec.Error
import ImageSpec.Files
import ImageSpec.Json.Fields
import ImageSpec.Json.Reader
import ImageSpec.Text.Numerals

namespace ImageSpec

/-!
# Settings

The settings are read from a JSON file; what the file does not say keeps its default, and without a
file all settings do.
-/

/-- The settings of a run. -/
structure Settings where
  /-- The path of the catalog. -/
  catalog : String
  /-- The address of a library on a server, which comes before the catalog. -/
  registryUrl : Option String := none
  /-- Whether servers may not be asked. -/
  offline : Bool := false
  /-- How long a server may take for an answer, in seconds. -/
  timeout : Nat := 10
  /-- Whether the answers of the library are remembered. -/
  cache : Bool := true
deriving DecidableEq, Repr

namespace Settings

/-- The directory of the program's own files, below the home directory if there is one. -/
def dataDirectory : Option String → String
  | some home => Path.join home ".quokka"
  | none => "/var/lib/quokka"

/-- The settings without a file. -/
def ofHome (home : Option String) : Settings where
  catalog := Path.join (dataDirectory home) "library.json"

/-- The path of the settings file, if none is given. -/
def defaultPath (home : Option String) : String := Path.join (dataDirectory home) "config.json"

/-! ### Reading -/

/-- The value of a field that keeps its default when it is missing. -/
def valueOr {α : Type} (default : α) (read : Json → Option α) : Option Json → Option α
  | none => some default
  | some v => read v

/-- Reads an address or nothing. -/
def url? : Json → Option (Option String)
  | .null => some none
  | v => v.string?.map some

/-- Reads a number of seconds, which fits in 64 bits. -/
def seconds? : Json → Option Nat
  | .number written => Text.word? written.toList
  | _ => none

/-- Reads settings from a JSON value. -/
def ofJson? (default : Settings) (v : Json) : Option Settings := do
  match ← v.fields? ["catalog", "registry_url", "offline", "timeout_secs", "cache"] with
  | [catalog, registryUrl, offline, timeout, cache] =>
    let catalog ← valueOr default.catalog Json.string? catalog
    let registryUrl ← valueOr default.registryUrl url? registryUrl
    let offline ← valueOr default.offline Json.bool? offline
    let timeout ← valueOr default.timeout seconds? timeout
    let cache ← valueOr default.cache Json.bool? cache
    return { catalog, registryUrl, offline, timeout, cache }
  | _ => none

/-- Whether an address has one of the two schemes that are supported. -/
def hasWebScheme (url : String) : Bool :=
  "https://".toList.isPrefixOf url.toList || "http://".toList.isPrefixOf url.toList

/-- Checks that settings make sense. -/
def validate (s : Settings) : Except ConfigFault Unit :=
  if s.timeout = 0 then .error .zeroTimeout
  else match s.registryUrl with
    | some url => if hasWebScheme url then .ok () else .error (.registryScheme url)
    | none => .ok ()

/-- Reads and checks settings from the text of a file. -/
def parse (default : Settings) (text : String) : Except Error Settings :=
  match (Json.ofChars? text.toList).bind (ofJson? default) with
  | none => .error .json
  | some s => (s.validate.map fun () => s).mapError .config

/-- Reads settings from a file, if it exists. -/
def load (default : Settings) (fs : Files) (path : String) : Except Error Settings :=
  if fs.contains path then
    match fs.readText path with
    | .error fault => .error (.file path fault)
    | .ok text => parse default text
  else .ok default

end Settings

end ImageSpec

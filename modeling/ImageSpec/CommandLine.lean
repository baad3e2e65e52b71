import ImageSpec.Catalog.File
import ImageSpec.CommandLine.Invocation
import ImageSpec.Library.Remote
import ImageSpec.Plan
import ImageSpec.Service
import ImageSpec.Settings

namespace ImageSpec

/-!
# Running jobs

A job reads and changes files, prints a text, and may fail.  What it has printed and changed before
it fails stays.
-/

/-- The messages for a failure, the outermost first. -/
abbrev Failure : Type := List String

/-- The messages for an error: its own, and those of what lies behind it. -/
def Error.chain (e : Error) : Failure := e.message :: e.causes

/-- The lines that tell a reader of a failure. -/
def Failure.report : Failure → List String
  | [] => []
  | [message] => ["Error: " ++ message]
  | [message, cause] => ["Error: " ++ message, "", "Caused by:", "    " ++ cause]
  | message :: causes => ["Error: " ++ message, "", "Caused by:"]
      ++ causes.zipIdx.map fun (cause, i) => "    " ++ i.repr ++ ": " ++ cause

/-- What surrounds a run: the home directory, the input, and what servers reply to requests. -/
structure Environment where
  home : Option String
  input : ByteArray
  server : Url → Reply

/-- What a run leaves behind. -/
structure Outcome where
  files : Files
  output : String := ""
  failure : Option Failure := none

namespace CommandLine

/-- The outcome of a run that fails. -/
def failed (fs : Files) (failure : Failure) : Outcome := { files := fs, failure := some failure }

/-- The outcome of a run that prints lines. -/
def printed (fs : Files) (lines : List String) : Outcome where
  files := fs
  output := String.join (lines.map (· ++ "\n"))

/-! ### What jobs need -/

/-- The path of the settings. -/
def settingsPath (env : Environment) (i : Invocation) : String :=
  i.config.getD (Settings.defaultPath env.home)

/-- The settings of a run: those of the file, with what the arguments say instead. -/
def settings (env : Environment) (i : Invocation) (fs : Files) : Except Failure Settings := do
  let path := settingsPath env i
  let stored ← (Settings.load (.ofHome env.home) fs path).mapError fun e =>
    ("loading configuration from " ++ path) :: e.chain
  let s := { stored with
    catalog := i.catalog.getD stored.catalog
    registryUrl := i.registryUrl.or stored.registryUrl
    offline := stored.offline || i.offline }
  s.validate.mapError fun fault => (Error.config fault).chain
  return s

/-- Uses a library with answers remembered if the settings ask for it. -/
def withCache {σ : Type} (s : Settings) (l : Library σ) (state : σ)
    (use : (τ : Type) → Library τ → τ → Outcome) : Outcome :=
  if s.cache then use _ l.cached { inner := state } else use _ l state

/-- Uses the library of the settings: the remote one if there is one, and else the catalog. -/
def withLibrary (env : Environment) (s : Settings) (fs : Files)
    (use : Files → (τ : Type) → Library τ → τ → Outcome) : Outcome :=
  match s.registryUrl with
  | some url =>
    match Remote.ofAddress url with
    | .error fault => failed fs (Error.config fault).chain
    | .ok remote =>
      let remote := { remote with offline := s.offline }
      withCache s (remote.library fun u (state : Unit) => (env.server u, state)) () (use fs)
  | none =>
    let file : Catalog.File := ⟨s.catalog⟩
    match file.prepare fs with
    | (.error e, fs) => failed fs e.chain
    | (.ok (), fs) =>
      match file.load fs with
      | .error e => failed fs e.chain
      | .ok catalog => withCache s Catalog.library catalog (use fs)

/-- Opens a specification; a single dash stands for the input of the program. -/
def openSource (env : Environment) (fs : Files) (file : String) : Except Failure Source :=
  if file = "-" then .ok (.ok env.input)
  else match fs.locate file with
    | .error fault => .error ["opening " ++ file, fault.message]
    | .ok _ => .ok (fs.read file)

/-! ### Building and planning -/

/-- Writes a script to a file, or prints it. -/
def deliver (fs : Files) (output : Option String) (script : String) : Outcome :=
  match output with
  | none => { files := fs, output := script }
  | some path =>
    match fs.write path script.toUTF8 with
    | (.ok (), fs) => { files := fs }
    | (.error fault, fs) => failed fs ["writing " ++ path, fault.message]

/-- Builds a specification. -/
def build (env : Environment) (s : Settings) (fs : Files) (file : String)
    (output : Option String) : Outcome :=
  withLibrary env s fs fun fs _ l state =>
    match openSource env fs file with
    | .error failure => failed fs failure
    | .ok source =>
      match ((Service.ofLibrary l).build source {} state).1 with
      | (.error e, _) => failed fs (("building " ++ file) :: e.chain)
      | (.ok (), sink) => deliver fs output sink.received

/-- The rows of a plan, up to a definition without a name for scripts. -/
def planRows (naming : Script.Naming) (index : Nat) : List Step → List String × Option LookupError
  | [] => ([], none)
  | step :: rest =>
    let row := Plan.row index step
    match (step.action.definition?).map naming with
    | none =>
      let (rows, failure) := planRows naming (index + 1) rest
      (row :: rows, failure)
    | some (.ok canonical) =>
      let (rows, failure) := planRows naming (index + 1) rest
      (row :: Plan.canonicalRow canonical :: rows, failure)
    | some (.error e) => ([row], some e)

/-- Shows the steps of a specification. -/
def plan (env : Environment) (s : Settings) (fs : Files) (file : String) : Outcome :=
  withLibrary env s fs fun fs _ l state =>
    match openSource env fs file with
    | .error failure => failed fs failure
    | .ok source =>
      match ((Service.ofLibrary l).plan source state).1 with
      | .error e => failed fs (("planning " ++ file) :: e.chain)
      | .ok r =>
        let heading := "Build plan for: " ++ file
        let top := [heading, Plan.rule heading, ""]
        match planRows l.canonical 1 r.steps with
        | (rows, some e) => { printed fs (top ++ rows) with failure := some [e.message] }
        | (rows, none) =>
          printed fs (top ++ rows
            ++ ["", "  " ++ r.steps.length.repr ++ " step(s) will be emitted."])

/-! ### Looking up -/

/-- What is shown of a definition. -/
def describeDefinition (d : Definition) (canonical : String) : List String :=
  [ "name:      " ++ d.name, "version:   " ++ d.version, "digest:    " ++ d.digest.text,
    "canonical: " ++ canonical ]
  ++ (if d.metadata.isEmpty then []
    else "metadata:" :: d.metadata.entries.map fun (key, value) => "  " ++ key ++ " = " ++ value)

/-- Looks up a reference. -/
def resolve (env : Environment) (s : Settings) (fs : Files) (written : String) (json : Bool) :
    Outcome :=
  match Reference.parse written with
  | .error fault => failed fs [fault.message written]
  | .ok r =>
    withLibrary env s fs fun fs _ l state =>
      match (l.lookup r state).1 with
      | .error e => failed fs ["cannot resolve `" ++ r.text ++ "`: " ++ e.message]
      | .ok d =>
        match l.canonical d with
        | .error e => failed fs [e.message]
        | .ok canonical =>
          printed fs (if json then [d.toJson.render] else describeDefinition d canonical)

/-! ### The catalog -/

/-- Shows the entries of the catalog. -/
def list (f : Catalog.File) (fs : Files) : Outcome :=
  match f.list fs with
  | .error e => failed fs e.chain
  | .ok es => printed fs ("NAME\tVERSION\tDIGEST" :: es.map fun e =>
      e.name ++ "\t" ++ e.version ++ "\t" ++ e.toDefinition.digest.short)

/-- Adds an entry to the catalog. -/
def add (f : Catalog.File) (fs : Files) (name version : String) (digest : Option String)
    (metadata : List (String × String)) : Outcome :=
  match digest.mapM Digest.parse with
  | .error fault => failed fs ("invalid --digest" :: (Error.config (.digest fault)).chain)
  | .ok digest =>
    match f.register fs { name, version, digest, metadata := .ofList metadata } with
    | (.error e, fs) => failed fs e.chain
    | (.ok (), fs) => printed fs ["Registered " ++ name ++ ":" ++ version ++ " in " ++ f.path]

/-- Removes entries from the catalog. -/
def remove (f : Catalog.File) (fs : Files) (name : String) (version : Option String) : Outcome :=
  match f.remove fs name version with
  | (.error e, fs) => failed fs e.chain
  | (.ok (), fs) => printed fs ["Removed " ++ name ++ (match version with
      | some v => ":" ++ v
      | none => "")]

/-- Uses the catalog of the settings. -/
def withCatalog (s : Settings) (fs : Files) (use : Catalog.File → Files → Outcome) : Outcome :=
  let file : Catalog.File := ⟨s.catalog⟩
  match file.prepare fs with
  | (.error e, fs) => failed fs e.chain
  | (.ok (), fs) => use file fs

/-! ### Jobs -/

/-- Does a job. -/
def perform (env : Environment) (s : Settings) (fs : Files) : Job → Outcome
  | .build file output => build env s fs file output
  | .plan file => plan env s fs file
  | .resolve reference json => resolve env s fs reference json
  | .list => withCatalog s fs list
  | .add name version digest metadata =>
    withCatalog s fs fun f fs => add f fs name version digest metadata
  | .remove name version => withCatalog s fs fun f fs => remove f fs name version

/-- Does what the program is asked to do. -/
def run (env : Environment) (fs : Files) (i : Invocation) : Outcome :=
  match settings env i fs with
  | .error failure => failed fs failure
  | .ok s => perform env s fs i.job

end CommandLine

end ImageSpec

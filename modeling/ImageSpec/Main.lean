import ImageSpec.CommandLine

namespace ImageSpec

/-!
# The program

Takes the files that a run may touch into a tree, runs, and writes back what has changed.

The program has no network.  It asks no server: a run with a remote library is given `Reply.failed`
for every request, as one is whose server cannot be reached, and only what needs no server succeeds.
-/

/-- The path from the root to a place. -/
def Place.text (place : Place) : String := "/" ++ "/".intercalate place.reverse

/-- What stands at a place on the disk. -/
def Place.probe (place : Place) : IO (Option Node) := do
  let path := (← IO.currentDir) / place.text
  if ← path.isDir then return some .directory
  else if ← path.pathExists then return some (.file (← IO.FS.readBinFile path))
  else return none

/-- Takes what stands at places into a tree. -/
def Files.takePlaces (fs : Files) : List Place → IO Files
  | [] => return fs
  | place :: rest => do
    match ← place.probe with
    | some node => (fs.put place node).takePlaces rest
    | none => fs.takePlaces rest

/-- Takes all that paths lead through into a tree. -/
def Files.takePaths (fs : Files) (paths : List String) : IO Files :=
  fs.takePlaces ((Files.trail [] fs.workingDirectory.reverse ++ paths.flatMap fs.places).filter
    (!·.isEmpty))

/-- Writes changes to the disk. -/
def writeChanges : List (Place × Node) → IO Unit
  | [] => return ()
  | (place, .directory) :: rest => do
    IO.FS.createDirAll place.text
    writeChanges rest
  | (place, .file content) :: rest => do
    IO.FS.writeBinFile place.text content
    writeChanges rest

/-- Reads a stream to its end. -/
partial def readAll (stream : IO.FS.Stream) (before : ByteArray) : IO ByteArray := do
  let next ← stream.read 65536
  if next.isEmpty then return before else readAll stream (before ++ next)

/-- Carries out an invocation. -/
def Invocation.carryOut (i : Invocation) : IO UInt32 := do
  let input ← if i.job.readsInput then readAll (← IO.getStdin) .empty else pure .empty
  let env : Environment := { home := ← IO.getEnv "HOME", input, server := fun _ => .failed }
  let names := (← IO.currentDir).components.filter (!·.isEmpty)
  let known ← Files.takePaths { workingDirectory := names.reverse } [CommandLine.settingsPath env i]
  let known ← match CommandLine.settings env i known with
    | .ok s => known.takePaths (s.catalog :: i.job.paths)
    | .error _ => pure known
  let outcome := CommandLine.run env known i
  writeChanges (outcome.files.changes known)
  IO.print outcome.output
  match outcome.failure with
  | none => return 0
  | some failure =>
    failure.report.forM IO.eprintln
    return 1

end ImageSpec

/-- The program. -/
def main (args : List String) : IO UInt32 :=
  match ImageSpec.Invocation.parse args with
  | .ok i => i.carryOut
  | .error e => do
    if e.isRequest then IO.println e.message else IO.eprintln ("error: " ++ e.message)
    return if e.isRequest then 0 else 2

import ImageSpec.Path
import ImageSpec.Text.Utf8

namespace ImageSpec

/-!
# Files

A tree of files and directories.  Paths are followed from the working directory, or from the root if
they start with a slash.  A fault (`IoFault`) says at which kind of obstacle the way ended, in the
words that the system has for it; streams have the same faults.
-/

/-- Why a file or a stream cannot be used. -/
inductive IoFault where
  | notFound
  | alreadyExists
  | notDirectory
  | isDirectory
  | nameTooLong
  | notUtf8
  | zeroInName
  | other (message : String)
deriving DecidableEq, Repr

/-- The wording of a fault. -/
def IoFault.message : IoFault → String
  | notFound => "No such file or directory (os error 2)"
  | alreadyExists => "File exists (os error 17)"
  | notDirectory => "Not a directory (os error 20)"
  | isDirectory => "Is a directory (os error 21)"
  | nameTooLong => "File name too long (os error 36)"
  | notUtf8 => "stream did not contain valid UTF-8"
  | zeroInName => "file name contained an unexpected NUL byte"
  | other message => message

/-- The names from the root to a place in the tree, the innermost first. -/
abbrev Place : Type := List String

/-- What stands at a place. -/
inductive Node where
  | directory
  | file (content : ByteArray)

/-- Whether two places hold the same. -/
def Node.isSame : Node → Node → Bool
  | directory, directory => true
  | file a, file b => a.toList == b.toList
  | _, _ => false

/-- A tree of files and directories, and the working directory. -/
structure Files where
  workingDirectory : Place := []
  nodes : List (Place × Node) := []

namespace Files

/-! ### Places -/

/-- What stands at a place; the root is always a directory. -/
def node? (fs : Files) (place : Place) : Option Node :=
  if place.isEmpty then some .directory else fs.nodes.lookup place

/-- Whether a directory stands at a place. -/
def isDirectoryAt (fs : Files) (place : Place) : Bool :=
  match fs.node? place with
  | some .directory => true
  | _ => false

/-- The tree with something at a place. -/
def put (fs : Files) (place : Place) (n : Node) : Files :=
  { fs with nodes := (place, n) :: fs.nodes.filter (fun (p, _) => p != place) }

/-- The tree without what stands at a place. -/
def erase (fs : Files) (place : Place) : Files :=
  { fs with nodes := fs.nodes.filter (fun (p, _) => p != place) }

/-- What stands in a tree and does not stand at the same place in another one, the oldest first. -/
def changes (fs other : Files) : List (Place × Node) :=
  fs.nodes.reverse.filter fun (place, n) => !(other.node? place).any n.isSame

/-! ### Following a path -/

/-- The longest name, in bytes. -/
def maxName : Nat := 255

/-- The longest path, in bytes. -/
def maxPath : Nat := 4095

/-- The place that a segment leads to from a place, which has to be a directory. -/
def follow (fs : Files) (start : Place) (segment : String) : Except IoFault Place :=
  if !fs.isDirectoryAt start then .error .notDirectory
  else if segment = "." then .ok start
  else if segment = ".." then .ok start.tail
  else if maxName < segment.utf8ByteSize then .error .nameTooLong
  else .ok (segment :: start)

/-- Follows segments to places that exist. -/
def walk (fs : Files) (start : Place) : List String → Except IoFault Place
  | [] => .ok start
  | segment :: rest =>
    match fs.follow start segment with
    | .error fault => .error fault
    | .ok place => if (fs.node? place).isSome then fs.walk place rest else .error .notFound

/-- The segments of a path that lead somewhere. -/
def segments (path : String) : List String :=
  ((Text.splitAt '/' path.toList).filter (!·.isEmpty)).map String.ofList

/-- Where a path starts. -/
def origin (fs : Files) (path : String) : Place :=
  if path.toList.head? = some '/' then [] else fs.workingDirectory

/-- Whether a path ends in a slash, so that it can only name a directory. -/
def endsInSlash (path : String) : Bool := path.toList.getLast? = some '/'

/-- Refuses texts that are no path at all. -/
def checkPath (path : String) : Except IoFault Unit :=
  if path.toList.contains '\x00' then .error .zeroInName
  else if path.isEmpty then .error .notFound
  else if maxPath < path.utf8ByteSize then .error .nameTooLong
  else .ok ()

/-- The places that segments lead through, whether they exist or not. -/
def trail (start : Place) : List String → List Place
  | [] => [start]
  | segment :: rest =>
    let next := if segment = "." then start else if segment = ".." then start.tail
      else segment :: start
    start :: trail next rest

/-- The places that a path leads through. -/
def places (fs : Files) (path : String) : List Place := trail (fs.origin path) (segments path)

/-- The place that a path names, at which something stands. -/
def locate (fs : Files) (path : String) : Except IoFault Place := do
  checkPath path
  let place ← fs.walk (fs.origin path) (segments path)
  if endsInSlash path && !fs.isDirectoryAt place then .error .notDirectory else .ok place

/-- The place where the last segment of a path is looked for, and that segment. -/
def locateHolder (fs : Files) (path : String) : Except IoFault (Place × String) := do
  checkPath path
  let names := segments path
  let holder ← fs.walk (fs.origin path) names.dropLast
  return (holder, names.getLastD ".")

/-! ### Operations -/

/-- Whether a path names something that exists. -/
def contains (fs : Files) (path : String) : Bool := (fs.locate path).toBool

/-- Whether a path names a directory. -/
def isDirectory (fs : Files) (path : String) : Bool :=
  match fs.locate path with
  | .ok place => fs.isDirectoryAt place
  | .error _ => false

/-- The bytes of a file. -/
def read (fs : Files) (path : String) : Except IoFault ByteArray :=
  match fs.locate path with
  | .error fault => .error fault
  | .ok place =>
    match fs.node? place with
    | some (.file content) => .ok content
    | some .directory => .error .isDirectory
    | none => .error .notFound

/-- The text of a file. -/
def readText (fs : Files) (path : String) : Except IoFault String :=
  match fs.read path with
  | .error fault => .error fault
  | .ok content =>
    match Text.ofUtf8? content with
    | some text => .ok text
    | none => .error .notUtf8

/-- Writes a file, which may be new. -/
def write (fs : Files) (path : String) (content : ByteArray) : Except IoFault Unit × Files :=
  match fs.locateHolder path with
  | .error fault => (.error fault, fs)
  | .ok (holder, last) =>
    if fs.isDirectoryAt holder && endsInSlash path then (.error .isDirectory, fs)
    else match fs.follow holder last with
      | .error fault => (.error fault, fs)
      | .ok place =>
        if fs.isDirectoryAt place then (.error .isDirectory, fs)
        else (.ok (), fs.put place (.file content))

/-- Makes a directory in a directory that exists. -/
def makeDirectory (fs : Files) (path : String) : Except IoFault Unit × Files :=
  match fs.locateHolder path with
  | .error fault => (.error fault, fs)
  | .ok (holder, last) =>
    match fs.follow holder last with
    | .error fault => (.error fault, fs)
    | .ok place =>
      if (fs.node? place).isSome then (.error .alreadyExists, fs)
      else (.ok (), fs.put place .directory)

/-- Makes a directory, unless it is there. -/
def ensureDirectory (fs : Files) (path : String) : Except IoFault Unit × Files :=
  match fs.makeDirectory path with
  | (.ok (), fs) => (.ok (), fs)
  | (.error fault, fs) => (if fs.isDirectory path then .ok () else .error fault, fs)

/-- Makes a directory and, as far as the fuel lasts, the directories that hold it. -/
def makeDirectoriesWith (fs : Files) (path : String) : Nat → Except IoFault Unit × Files
  | 0 => (.error .notFound, fs)
  | fuel + 1 =>
    if path.isEmpty then (.ok (), fs)
    else match fs.ensureDirectory path, Path.parent? path with
      | (.error .notFound, _), some directory =>
        match fs.makeDirectoriesWith directory fuel with
        | (.ok (), fs) => fs.ensureDirectory path
        | (.error fault, fs) => (.error fault, fs)
      | outcome, _ => outcome

/-- Makes a directory and the directories that hold it, as far as they are missing.  What has been
    made before a fault stays.  A path has fewer parts than characters. -/
def makeDirectories (fs : Files) (path : String) : Except IoFault Unit × Files :=
  fs.makeDirectoriesWith path (path.length + 1)

/-- Removes a file. -/
def remove (fs : Files) (path : String) : Except IoFault Unit × Files :=
  match fs.locate path with
  | .error fault => (.error fault, fs)
  | .ok place =>
    if fs.isDirectoryAt place then (.error .isDirectory, fs) else (.ok (), fs.erase place)

end Files

end ImageSpec

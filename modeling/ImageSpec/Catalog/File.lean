import ImageSpec.Catalog
import ImageSpec.Catalog.Format
import ImageSpec.Error
import ImageSpec.Files

namespace ImageSpec.Catalog

/-!
# Catalog files

A catalog is kept in a file.  A file that does not exist holds no entries and is written with the
first one.  A name and a version stand in a catalog at most once.  Whatever changes files gives them
back, also when it fails.
-/

/-- A catalog in a file. -/
structure File where
  path : String
deriving DecidableEq, Repr

namespace File

/-- The format of a catalog, which the extension of its path decides. -/
def format (f : File) : Format :=
  match Path.extension? f.path with
  | some "yaml" => .yaml
  | some "yml" => .yaml
  | _ => .json

/-- Makes sure that the directory of a catalog exists. -/
def prepare (f : File) (fs : Files) : Except Error Unit × Files :=
  match Path.parent? f.path with
  | none => (.ok (), fs)
  | some directory =>
    let (made, fs) := fs.makeDirectories directory
    (made.mapError (.file directory), fs)

/-- The entries of a catalog in the order of the file. -/
def list (f : File) (fs : Files) : Except Error (List Entry) :=
  if fs.contains f.path then
    match fs.readText f.path with
    | .error fault => .error (.file f.path fault)
    | .ok text =>
      match f.format.decode? text with
      | some entries => .ok entries
      | none => .error (match f.format with
        | .json => .json
        | .yaml => .yaml)
  else .ok []

/-- The catalog as a library. -/
def load (f : File) (fs : Files) : Except Error Catalog := (f.list fs).map ofEntries

/-- Writes entries in the place of all others. -/
def save (f : File) (fs : Files) (es : List Entry) : Except Error Unit × Files :=
  let (written, fs) := fs.write f.path (f.format.encode es).toUTF8
  (written.mapError (.file f.path), fs)

/-- Adds an entry at the end, unless its name and version are there. -/
def register (f : File) (fs : Files) (e : Entry) : Except Error Unit × Files :=
  match f.list fs with
  | .error error => (.error error, fs)
  | .ok es =>
    if es.any fun other => other.name == e.name && other.version == e.version then
      (.error (.config (.duplicateEntry e.name e.version)), fs)
    else f.save fs (es ++ [e])

/-- Whether an entry has a name and, if one is given, a version. -/
def isNamed (name : String) (version : Option String) (e : Entry) : Bool :=
  e.name == name && version.all (e.version == ·)

/-- Removes the entries with a name and, if one is given, a version; it is a fault if there are
    none. -/
def remove (f : File) (fs : Files) (name : String) (version : Option String) :
    Except Error Unit × Files :=
  match f.list fs with
  | .error error => (.error error, fs)
  | .ok es =>
    let kept := es.filter fun e => !isNamed name version e
    if kept.length = es.length then
      (.error (.missingEntry (match version with
        | some v => name ++ ":" ++ v
        | none => name)), fs)
    else f.save fs kept

end File

end ImageSpec.Catalog

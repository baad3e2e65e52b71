import ImageSpec.Text.Segments

namespace ImageSpec.Path

/-!
# Paths

A path is a text of segments between slashes.  Empty segments count for nothing, and neither does a
`.` that is not the first segment of a relative path.
-/

/-- Whether a segment is a part of a path, at the start of the path or behind it. -/
def isPart (atStart : Bool) (segment : List Char) : Bool :=
  !segment.isEmpty && (segment != ['.'] || atStart)

/-- Segments without those at their end that are no parts. -/
def dropIdle : List (List Char) → List (List Char)
  | [] => []
  | first :: rest =>
    first :: (rest.reverse.dropWhile fun s => !isPart false s).reverse

/-- Segments in front of the last part, and the last part itself. -/
def splitLast (segments : List (List Char)) : Option (List (List Char) × List Char) :=
  match dropIdle segments with
  | [] => none
  | [first] => if isPart true first then some ([], first) else none
  | first :: rest => rest.getLast?.map fun last => (first :: rest.dropLast, last)

/-- The directory that holds what a path names: `none` for the root and the empty path, and the
    empty path for a name alone. -/
def parent? (path : String) : Option String :=
  (splitLast (Text.splitAt '/' path.toList)).map fun (before, _) =>
    match dropIdle before with
    | [[]] => "/"
    | segments => String.ofList (Text.joinWith ['/'] segments)

/-- The name at the end of a path, if it is one. -/
def name? (path : String) : Option (List Char) :=
  match splitLast (Text.splitAt '/' path.toList) with
  | some (_, last) => if last = ['.'] ∨ last = ['.', '.'] then none else some last
  | none => none

/-- What follows the last dot of the name at the end of a path; a dot at the start of the name does
    not count. -/
def extension? (path : String) : Option String := do
  let name ← name? path
  let after := (name.reverse.takeWhile (· != '.')).reverse
  if after.length + 1 < name.length then some (String.ofList after) else none

/-- A path below a directory. -/
def join (directory name : String) : String :=
  if directory.isEmpty || directory.toList.getLast? = some '/' then directory ++ name
  else directory ++ "/" ++ name

end ImageSpec.Path

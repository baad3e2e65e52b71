import ImageSpec.Text.Numerals
import ImageSpec.Url.Host

namespace ImageSpec

/-!
# URLs

A URL has a scheme, an authority, a path, a query and a fragment.  A few schemes are special: their
URLs have a host, a path of one or more segments, and a port that need not be written.
`Url.parse` reads a URL and brings it into its normal form, and `Url.text` writes it.
-/

namespace Url

/-- Who answers for a URL. -/
structure Authority where
  user : String := ""
  password : String := ""
  host : Host
  port : Option Nat := none
deriving DecidableEq, Repr

/-- A path: segments, or a text without structure. -/
inductive Path where
  | segments (segments : List String)
  | rootless (text : String)
deriving DecidableEq, Repr

end Url

/-- A URL in its normal form. -/
structure Url where
  scheme : String
  authority : Option Url.Authority
  path : Url.Path
  query : Option String
  fragment : Option String
deriving DecidableEq, Repr

namespace Url

/-! ### Writing -/

/-- The user and the password in front of a host. -/
def Authority.credentials (a : Authority) : List Char :=
  if a.user.isEmpty && a.password.isEmpty then []
  else a.user.toList ++ (if a.password.isEmpty then [] else ':' :: a.password.toList) ++ ['@']

/-- The text of an authority. -/
def Authority.text (a : Authority) : List Char :=
  ['/', '/'] ++ a.credentials ++ a.host.text
    ++ (match a.port with
      | some port => ':' :: port.repr.toList
      | none => [])

/-- The text of a path. -/
def Path.text : Path → List Char
  | segments names => names.flatMap fun name => '/' :: name.toList
  | rootless text => text.toList

/-- What keeps a path without authority from being read as one. -/
def Path.guardText : Path → List Char
  | segments ("" :: _ :: _) => ['/', '.']
  | _ => []

/-- A part that follows a mark, if there is one. -/
def markedText (mark : Char) : Option String → List Char
  | some text => mark :: text.toList
  | none => []

/-- The characters of a URL. -/
def chars (u : Url) : List Char :=
  u.scheme.toList ++ [':']
    ++ (match u.authority with
      | some a => a.text
      | none => u.path.guardText)
    ++ u.path.text ++ markedText '?' u.query ++ markedText '#' u.fragment

/-- The text of a URL. -/
def text (u : Url) : String := String.ofList u.chars

/-- What a request for a URL names: its path and query. -/
def target (u : Url) : String := String.ofList (u.path.text ++ markedText '?' u.query)

/-! ### Schemes -/

/-- The port of a scheme that need not be written. -/
def defaultPort : String → Option Nat
  | "http" => some 80
  | "ws" => some 80
  | "https" => some 443
  | "wss" => some 443
  | "ftp" => some 21
  | _ => none

/-- Whether URLs with a scheme have a host and a path. -/
def isSpecial (scheme : String) : Bool := (defaultPort scheme).isSome || scheme == "file"

/-- Whether a character belongs into a scheme. -/
def isSchemeChar (c : Char) : Bool := c.isAlphanum || c == '+' || c == '-' || c == '.'

/-- Reads a scheme, which is in lower case, and the colon behind it. -/
def scheme? (cs : List Char) : Option (String × List Char) :=
  match cs.head?.filter Char.isAlpha, Text.cutAt ':' cs with
  | some _, some (name, rest) =>
    if name.all isSchemeChar then some (String.ofList (name.map Char.toLower), rest) else none
  | _, _ => none

/-! ### Paths -/

/-- Whether a character stands between segments. -/
def isSlash (special : Bool) (c : Char) : Bool := c == '/' || (special && c == '\\')

/-- The segments of a path. -/
def splitPath (special : Bool) (cs : List Char) : List (List Char) :=
  Text.splitAt '/' (cs.map fun c => if isSlash special c then '/' else c)

/-- A segment with its encoded dots as dots, if it has nothing else. -/
def dots (segment : List Char) : List Char :=
  match segment with
  | [] => []
  | '.' :: rest => '.' :: dots rest
  | '%' :: '2' :: e :: rest => if e = 'e' ∨ e = 'E' then '.' :: dots rest else segment
  | _ => segment

/-- Adds a segment to a path: one dot stays, and two dots go back by one segment.  At the end of a
    path such a segment leaves an empty one. -/
def appendSegment (path : List String) (segment : List Char) (isLast : Bool) : List String :=
  let left := if isLast then [""] else []
  match dots segment with
  | ['.'] => path ++ left
  | ['.', '.'] => path.dropLast ++ left
  | _ => path ++ [String.ofList segment]

/-- Adds segments to a path. -/
def appendSegments (path : List String) : List (List Char) → List String
  | [] => path
  | segment :: rest => appendSegments (appendSegment path segment rest.isEmpty) rest

/-- Reads the segments of a path from behind its first slash. -/
def readSegments (special : Bool) (cs : List Char) : List String :=
  appendSegments [] ((splitPath special cs).map (percentEncode isEncodedInPath))

/-- Reads the path behind an authority. -/
def readPath (special : Bool) (cs : List Char) : List String :=
  match cs with
  | [] => if special then [""] else []
  | c :: rest => readSegments special (if isSlash special c then rest else cs)

/-! ### Authorities -/

/-- Cuts at the last occurrence of a character. -/
def cutAtLast (mark : Char) (cs : List Char) : Option (List Char × List Char) :=
  (Text.cutAt mark cs.reverse).map fun (after, before) => (before.reverse, after.reverse)

/-- The user and the password, of which the colon is the first. -/
def readCredentials (cs : List Char) : String × String :=
  let encoded (part : List Char) : String := String.ofList (percentEncode isEncodedInUser part)
  match Text.cutAt ':' cs with
  | none => (encoded cs, "")
  | some (user, password) => (encoded user, encoded password)

/-- Cuts a host from a port at the first colon that is not in brackets. -/
def cutPort : Bool → List Char → List Char × Option (List Char)
  | _, [] => ([], none)
  | inBrackets, c :: rest =>
    if c = ':' ∧ !inBrackets then ([], some rest)
    else
      let (host, port) :=
        cutPort (if c = '[' then true else if c = ']' then false else inBrackets) rest
      (c :: host, port)

/-- Reads a port up to the end or a backslash, and what follows it. -/
def readPort (scheme : String) (cs : List Char) : Except Fault (Option Nat × List Char) :=
  let written := cs.takeWhile (· != '\\')
  let port := Text.decimal written
  if written.isEmpty then .ok (none, cs)
  else if !written.all Char.isDigit || 65535 < port then .error .port
  else .ok (if defaultPort scheme = some port then none else some port, cs.drop written.length)

/-- Reads an authority and what follows it before the path. -/
def readAuthority (scheme : String) (cs : List Char) : Except Fault (Authority × List Char) := do
  let special := isSpecial scheme
  let (credentials, location) := match cutAtLast '@' cs with
    | some (before, after) => (some before, after)
    | none => (none, cs)
  let (hostText, portText) := cutPort false location
  if hostText.isEmpty && (special || credentials.isSome || portText.isSome) then
    .error .emptyHost
  else
    let host ← if special then Host.parse hostText else Host.parsePlain hostText
    let (port, rest) ← match portText with
      | some written => readPort scheme written
      | none => .ok (none, [])
    let (user, password) := readCredentials (credentials.getD [])
    return ({ user, password, host, port }, rest)

/-! ### URLs -/

/-- A text without control characters and spaces at its ends and without line breaks and tabs. -/
def clean (cs : List Char) : List Char :=
  let trimmed := ((cs.dropWhile (· ≤ ' ')).reverse.dropWhile (· ≤ ' ')).reverse
  trimmed.filter fun c => c != '\t' && c != '\n' && c != '\r'

/-- Cuts off what follows a mark. -/
def cutMarked (mark : Char) (cs : List Char) : List Char × Option (List Char) :=
  match Text.cutAt mark cs with
  | some (before, after) => (before, some after)
  | none => (cs, none)

/-- Reads an authority and the path behind it. -/
def readLocation (scheme : String) (cs : List Char) : Except Fault (Authority × Path) := do
  let isEnd := isSlash (isSpecial scheme)
  let (authority, rest) ← readAuthority scheme (cs.takeWhile (!isEnd ·))
  return (authority, .segments (readPath (isSpecial scheme) (rest ++ cs.dropWhile (!isEnd ·))))

/-- Reads the host of a file and its path, which has no empty segments at its start. -/
def readFileLocation (cs : List Char) : Except Fault (Authority × Path) := do
  let slashes := cs.takeWhile (isSlash true)
  let hostText := if slashes.length = 2 then
      (cs.drop 2).takeWhile (!isSlash true ·) else []
  let host ← if hostText.isEmpty then .ok (.domain "") else Host.parse hostText
  let path := readSegments true (cs.drop (if hostText.isEmpty then 0 else 2 + hostText.length))
  let kept := path.dropWhile String.isEmpty
  return ({ host := if host = .domain "localhost" then .domain "" else host },
    .segments (if kept.isEmpty then [""] else kept))

/-- Reads what stands between the scheme and the query. -/
def readHierarchy (scheme : String) (cs : List Char) : Except Fault (Option Authority × Path) := do
  if scheme = "file" then
    let (authority, path) ← readFileLocation cs
    return (some authority, path)
  else if isSpecial scheme then
    let (authority, path) ← readLocation scheme (cs.dropWhile (isSlash true))
    return (some authority, path)
  else match cs with
    | '/' :: '/' :: rest => do
      let (authority, path) ← readLocation scheme rest
      return (some authority, path)
    | '/' :: rest => return (none, .segments (readSegments false rest))
    | _ => return (none, .rootless (String.ofList (percentEncode isUnprinted cs)))

/-- Reads a URL. -/
def parse (written : String) : Except Fault Url := do
  match scheme? (clean written.toList) with
  | none => .error .relative
  | some (scheme, rest) =>
    let (rest, fragment) := cutMarked '#' rest
    let (rest, query) := cutMarked '?' rest
    let (authority, path) ← readHierarchy scheme rest
    return {
      scheme, authority, path
      query := query.map fun q =>
        String.ofList (percentEncode (isEncodedInQuery (isSpecial scheme)) q)
      fragment := fragment.map fun f => String.ofList (percentEncode isEncodedInFragment f) }

/-! ### Adding names to a path -/

/-- A path without its last segment, if it is empty and not the only one. -/
def dropEmptyLast (path : List String) : List String :=
  if 1 < path.length && path.getLast? = some "" then path.dropLast else path

/-- Adds a name to a path as one segment.  Names of one or two dots are left out, and a path that
    holds only an empty segment counts as empty. -/
def appendName (path : List String) (name : String) : List String :=
  if name = "." ∨ name = ".." then path
  else
    let kept := name.toList.filter fun c => c != '\t' && c != '\n' && c != '\r'
    appendSegment (if path = [""] then [] else path) (percentEncode isEncodedInSegment kept) true

/-- The URL with names added to its path. -/
def appendNames (u : Url) (names : List String) : Url :=
  match u.path with
  | .segments path => { u with path := .segments (names.foldl appendName (dropEmptyLast path)) }
  | .rootless _ => u

end Url

end ImageSpec

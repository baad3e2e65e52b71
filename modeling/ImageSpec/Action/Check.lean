import ImageSpec.Action
import ImageSpec.SemanticError

namespace ImageSpec

/-!
# Checking instructions

Every keyword has its own idea of a good value.  `Keyword.check` and `BlockKeyword.check` turn a
value into the action it stands for, or say what is wrong with it.  No library is asked here.
-/

/-- Whether a text is empty or white space. -/
def isBlankText (s : String) : Bool := Text.allBlank s.toList

/-- Whether a text has a line feed. -/
def hasLineBreak (s : String) : Bool := s.toList.contains '\n'

/-- The names of environment variables: a letter or `_`, then letters, digits and `_`. -/
def isVariableName (s : String) : Bool :=
  match s.toList with
  | [] => false
  | c :: cs => (c.isAlpha || c == '_') && cs.all fun c => c.isAlphanum || c == '_'

namespace Keyword

/-- Checks a command; only some keywords take one of several lines. -/
def checkCommand (k : Keyword) (manyLines : Bool) : Value → Except SemanticFault Command
  | .text line =>
    if isBlankText line then .error (.emptyCommand k)
    else if !manyLines && hasLineBreak line then .error (.longCommand k)
    else .ok (.shell line)
  | .list [] => .error (.noProgram k)
  | .list (program :: arguments) =>
    if isBlankText program then .error (.noProgram k) else .ok (.exec (program :: arguments))
  | .integer n => .error (.wrongShape k (.integer n))

/-- Checks a text that has to stand on one line. -/
def checkLine (k : Keyword) : Value → Except SemanticFault String
  | .text s =>
    if isBlankText s then .error (.emptyText k)
    else if hasLineBreak s then .error (.longText k)
    else .ok s
  | value => .error (.wrongShape k value)

/-- Checks the name or number of a user. -/
def checkUser : Value → Except SemanticFault String
  | .integer n => if 0 ≤ n then .ok n.repr else .error (.wrongShape user (.integer n))
  | value => checkLine user value

/-- Checks the paths of a copy: at least one source, and the destination last. -/
def checkCopy : Value → Except SemanticFault Action
  | .list paths =>
    match paths.dropLast, paths.getLast? with
    | source :: sources, some destination =>
      if paths.any isBlankText then .error .emptyPath
      else if paths.any hasLineBreak then .error .longPath
      else .ok (.copy (source :: sources) destination)
    | _, _ => .error .fewPaths
  | value => .error (.wrongShape copy value)

/-- Checks a port. -/
def checkPort : Value → Except SemanticFault Nat
  | .integer n => if 1 ≤ n ∧ n ≤ 65535 then .ok n.toNat else .error (.badPort n)
  | value => .error (.wrongShape expose value)

/-- The action that a keyword and its value stand for. -/
def check (k : Keyword) (value : Value) : Except SemanticFault Action :=
  match k with
  | run => (checkCommand run true value).map .run
  | cmd => (checkCommand cmd false value).map .cmd
  | entrypoint => (checkCommand entrypoint false value).map .entrypoint
  | workdir => (checkLine workdir value).map .workdir
  | user => (checkUser value).map .user
  | copy => checkCopy value
  | expose => (checkPort value).map .expose

end Keyword

namespace BlockKeyword

/-- Checks the key of an entry. -/
def checkKey (k : BlockKeyword) (key : String) : Except SemanticFault Unit :=
  match k with
  | env => if isVariableName key then .ok () else .error (.badVariable key)
  | label => if key.isEmpty then .error .emptyLabel else .ok ()

/-- Checks an entry. -/
def checkEntry (k : BlockKeyword) (e : Entry) : Except SemanticFault (String × String) :=
  match k.checkKey e.key with
  | .error fault => .error fault
  | .ok () =>
    if hasLineBreak e.key || hasLineBreak e.value then .error (.longEntry k e.key)
    else .ok (e.key, e.value)

/-- Checks entries in order; the first fault is reported at its entry. -/
def checkEntries (k : BlockKeyword) : List Entry → Except SemanticError (List (String × String))
  | [] => .ok []
  | e :: rest =>
    match k.checkEntry e with
    | .error fault => .error ⟨e.position, fault⟩
    | .ok pair => (k.checkEntries rest).map (pair :: ·)

/-- The action that entries stand for. -/
def action (k : BlockKeyword) (pairs : List (String × String)) : Action :=
  match k with
  | env => .env pairs
  | label => .label pairs

/-- The action that a block at a position stands for. -/
def check (k : BlockKeyword) (position : Position) (entries : List Entry) :
    Except SemanticError Action :=
  if entries.isEmpty then .error ⟨position, .emptyBlock k⟩
  else (k.checkEntries entries).map k.action

end BlockKeyword

end ImageSpec

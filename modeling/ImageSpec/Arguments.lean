import ImageSpec.Text.Segments

namespace ImageSpec

/-!
# Arguments of a command

A grammar says which arguments a command takes: flags, which start with dashes, and operands, which
come in a fixed order.  Commands stand in groups, and the flags of a group may be given in front of
the command's name.  `Arguments.run` reads arguments by a grammar.

The value of a flag is checked only when the next argument has been recognised, so an unknown
argument is reported rather than a bad value in front of it.
-/

/-- Why arguments are not carried out. -/
inductive UsageError where
  | helpWanted
  | versionWanted
  | nothingGiven
  | missingCommand
  | unknownCommand
  | unknownArgument
  | missingOperand
  | missingValue
  | needlessValue
  | repeated
  | badValue
deriving DecidableEq, Repr

namespace UsageError

/-- The message for arguments that are not carried out. -/
def message : UsageError → String
  | helpWanted => "usage: [OPTIONS] COMMAND [ARGUMENTS]"
  | versionWanted => "0.1.0"
  | nothingGiven => "a command is required"
  | missingCommand => "a command is required"
  | unknownCommand => "unrecognized command"
  | unknownArgument => "unexpected argument"
  | missingOperand => "a required argument is missing"
  | missingValue => "an argument has no value"
  | needlessValue => "an argument takes no value"
  | repeated => "an argument is given twice"
  | badValue => "an argument has an invalid value"

/-- Whether only information is asked for. -/
def isRequest : UsageError → Bool
  | helpWanted => true
  | versionWanted => true
  | _ => false

end UsageError

namespace Arguments

/-! ### Grammars -/

/-- What a value has to look like. -/
inductive ValueKind where
  | text
  | path
  | assignment
deriving DecidableEq, Repr

/-- What a flag does. -/
inductive Effect where
  | help
  | version
  | switch
  | value (kind : ValueKind) (repeatable : Bool)
deriving DecidableEq, Repr

/-- An argument that starts with dashes: a name behind two, or a letter behind one. -/
structure Flag where
  name : String
  letter : Option Char := none
  effect : Effect

/-- An argument that is told by its place. -/
structure Operand where
  name : String
  kind : ValueKind
  isRequired : Bool := true

/-- The names and values of arguments, in order; a switch has an empty value. -/
abbrev Given : Type := List (String × String)

/-- The arguments of a command, which make an `α`, or of a group of commands. -/
inductive Grammar (α : Type) where
  | command (flags : List Flag) (operands : List Operand) (result : Given → α)
  | group (flags : List Flag) (children : List (String × Grammar α))

namespace Grammar

variable {α : Type}

/-- The flags of a command or group. -/
def flags : Grammar α → List Flag
  | command fs _ _ => fs
  | group fs _ => fs

/-- The operands of a command; a group has none. -/
def operands : Grammar α → List Operand
  | command _ os _ => os
  | group _ _ => []

/-- A command or group in a group. -/
def child? : Grammar α → String → Option (Grammar α)
  | command _ _ _, _ => none
  | group _ children, name => children.lookup name

/-- Whether an argument is the name by which a group gives help. -/
def isHelpName : Grammar α → String → Bool
  | command _ _ _, _ => false
  | group _ _, name => name == "help"

/-- Whether names lead to something that there is help for. -/
def isTopic : Grammar α → List String → Bool
  | _, [] => true
  | g, name :: rest =>
    match g.child? name with
    | some child => isTopic child rest
    | none => g.isHelpName name && rest.isEmpty

end Grammar

/-! ### Values -/

/-- The last value of an argument. -/
def Given.value? (given : Given) (name : String) : Option String := given.reverse.lookup name

/-- Whether an argument is given. -/
def Given.has (given : Given) (name : String) : Bool := given.any fun (n, _) => n == name

/-- All values of an argument. -/
def Given.values (given : Given) (name : String) : List String :=
  (given.filter fun (n, _) => n == name).map (·.2)

/-- Cuts an assignment at its first equals sign; the key may not be empty. -/
def assignment? (value : String) : Option (String × String) :=
  match Text.cutAt '=' value.toList with
  | some (key, rest) =>
    if key.isEmpty then none else some (String.ofList key, String.ofList rest)
  | none => none

/-- Checks a value. -/
def ValueKind.check : ValueKind → String → Except UsageError Unit
  | text, _ => .ok ()
  | path, value => if value.isEmpty then .error .missingValue else .ok ()
  | assignment, value => if (assignment? value).isSome then .ok () else .error .badValue

/-! ### Reading -/

/-- An argument whose value is still to come or to be checked. -/
structure Pending where
  name : String
  kind : ValueKind
  repeatable : Bool
  value : Option String

/-- What has been read for one command or group. -/
structure Scan where
  given : Given := []
  pending : Option Pending := none
  /-- The number of operands that have been read. -/
  operands : Nat := 0
  /-- Whether the flags have ended. -/
  flagsEnded : Bool := false

namespace Scan

variable {α : Type}

/-- Whether a flag waits for its value. -/
def isWaiting (s : Scan) : Bool :=
  match s.pending with
  | some p => p.value.isNone
  | none => false

/-- Adds an argument, which may not have been given before unless it is repeatable. -/
def add (s : Scan) (name : String) (repeatable : Bool) (kind : ValueKind) (value : String) :
    Except UsageError Scan :=
  if !repeatable && s.given.has name then .error .repeated
  else match kind.check value with
    | .error e => .error e
    | .ok () => .ok { s with given := s.given ++ [(name, value)] }

/-- Checks and adds the argument that is pending. -/
def resolve (s : Scan) : Except UsageError Scan :=
  match s.pending with
  | none => .ok s
  | some p =>
    match p.value with
    | none => .error .missingValue
    | some value => add { s with pending := none } p.name p.repeatable p.kind value

/-- Reads a flag, which may have a value attached. -/
def takeFlag (s : Scan) (f : Flag) (attached : Option String) : Except UsageError Scan :=
  match f.effect, attached with
  | .value kind repeatable, some value => do (← s.resolve).add f.name repeatable kind value
  | .value kind repeatable, none => do
    return { ← s.resolve with pending := some ⟨f.name, kind, repeatable, none⟩ }
  | _, some _ => .error .needlessValue
  | .switch, none => do (← s.resolve).add f.name false .text ""
  | .help, none => do
    let _ ← s.resolve
    .error .helpWanted
  | .version, none => do
    let _ ← s.resolve
    .error .versionWanted

/-- Reads what follows two dashes: a name, and a value behind an equals sign. -/
def readLong (s : Scan) (flags : List Flag) (body : List Char) : Except UsageError Scan :=
  let (name, attached) := match Text.cutAt '=' body with
    | some (name, value) => (name, some (String.ofList value))
    | none => (body, none)
  match flags.find? fun f => f.name == String.ofList name with
  | some f => s.takeFlag f attached
  | none => .error .unknownArgument

/-- Reads what follows one dash: letters, of which the first with a value takes the rest. -/
def readLetters (flags : List Flag) (s : Scan) : List Char → Except UsageError Scan
  | [] => .ok s
  | c :: rest =>
    match flags.find? fun f => f.letter == some c with
    | none => .error .unknownArgument
    | some f =>
      match f.effect, rest with
      | .value _ _, [] => s.takeFlag f none
      | .value _ _, '=' :: value => s.takeFlag f (some (String.ofList value))
      | .value _ _, value => s.takeFlag f (some (String.ofList value))
      | _, rest =>
        match s.takeFlag f none with
        | .error e => .error e
        | .ok s => readLetters flags s rest

/-- Reads an operand. -/
def readOperand (s : Scan) (g : Grammar α) (arg : String) : Except UsageError Scan :=
  match g, g.operands[s.operands]? with
  | _, some o => do
    return { ← s.resolve with
      operands := s.operands + 1
      pending := some ⟨o.name, o.kind, false, some arg⟩ }
  | .command _ _ _, none => .error .unknownArgument
  | .group _ _, none =>
    let isName := (g.child? arg).isSome || g.isHelpName arg
    .error (if s.flagsEnded && isName then .unknownArgument else .unknownCommand)

/-- Reads an argument that names no command. -/
def read (s : Scan) (g : Grammar α) (arg : String) : Except UsageError Scan :=
  if s.flagsEnded then s.readOperand g arg
  else match arg.toList, s.pending with
    | ['-', '-'], _ => .ok { s with flagsEnded := true }
    | '-' :: '-' :: body, _ => s.readLong g.flags body
    | '-' :: c :: rest, _ => readLetters g.flags s (c :: rest)
    | _, some ⟨name, kind, repeatable, none⟩ =>
      .ok { s with pending := some ⟨name, kind, repeatable, some arg⟩ }
    | _, _ => s.readOperand g arg

/-- What a command or group makes of its arguments. -/
def finish (s : Scan) : Grammar α → Except UsageError (Given × α)
  | .command _ operands result =>
    if operands.all fun o => !o.isRequired || s.given.has o.name then
      .ok (s.given, result s.given)
    else .error .missingOperand
  | .group _ _ => .error (if s.given.isEmpty then .nothingGiven else .missingCommand)

end Scan

/-- Reads arguments by a grammar: what is given on all levels, and the command's result. -/
def run {α : Type} (g : Grammar α) (s : Scan) : List String → Except UsageError (Given × α)
  | [] => do (← s.resolve).finish g
  | arg :: rest =>
    if s.flagsEnded || s.isWaiting then do run g (← s.read g arg) rest
    else match g.child? arg with
      | some child => do
        let (inner, result) ← run child {} rest
        return ((← s.resolve).given ++ inner, result)
      | none =>
        if g.isHelpName arg then
          .error (if g.isTopic rest then .helpWanted else .unknownCommand)
        else do run g (← s.read g arg) rest

end Arguments

end ImageSpec

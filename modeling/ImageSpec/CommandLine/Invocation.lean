import ImageSpec.Arguments

namespace ImageSpec

/-!
# Invocations

What the program is asked to do: a job, with the options that every job has.
-/

/-- What there is to do. -/
inductive Job where
  | build (file : String) (output : Option String)
  | plan (file : String)
  | resolve (reference : String) (json : Bool)
  | list
  | add (name version : String) (digest : Option String) (metadata : List (String × String))
  | remove (name : String) (version : Option String)
deriving DecidableEq, Repr

/-- The paths that a job itself names; a single dash is none. -/
def Job.paths : Job → List String
  | build file output => (file :: output.toList).filter (· != "-")
  | plan file => [file].filter (· != "-")
  | _ => []

/-- Whether a job reads the input of the program. -/
def Job.readsInput : Job → Bool
  | build file _ => file == "-"
  | plan file => file == "-"
  | _ => false

/-- A job and the options that every job has. -/
structure Invocation where
  job : Job
  config : Option String := none
  catalog : Option String := none
  registryUrl : Option String := none
  offline : Bool := false
deriving DecidableEq, Repr

namespace Invocation

open Arguments (Flag Given Grammar Operand)

/-- The specification that is read if none is named. -/
def defaultFile : String := "Quokkafile"

/-! ### Grammar -/

/-- The flags of every command and group.  `verbose` asks for a log; there is none, so that the flag
    is accepted and changes nothing. -/
def commonFlags : List Flag := [
  { name := "config", effect := .value .path false },
  { name := "catalog", effect := .value .path false },
  { name := "registry-url", effect := .value .text false },
  { name := "offline", effect := .switch },
  { name := "verbose", letter := some 'v', effect := .switch },
  { name := "help", letter := some 'h', effect := .help }]

/-- The operand that names a specification. -/
def fileOperand : Operand := { name := "FILE", kind := .path, isRequired := false }

/-- Writing the script of a specification. -/
def buildGrammar : Grammar Job :=
  .command (commonFlags ++ [{ name := "output", letter := some 'o', effect := .value .path false }])
    [fileOperand]
    fun given => .build ((given.value? "FILE").getD defaultFile) (given.value? "output")

/-- Showing the steps of a specification. -/
def planGrammar : Grammar Job :=
  .command commonFlags [fileOperand] fun given => .plan ((given.value? "FILE").getD defaultFile)

/-- Looking up a reference. -/
def resolveGrammar : Grammar Job :=
  .command (commonFlags ++ [{ name := "json", effect := .switch }])
    [{ name := "REFERENCE", kind := .text }]
    fun given => .resolve ((given.value? "REFERENCE").getD "") (given.has "json")

/-- Adding an entry to the catalog. -/
def addGrammar : Grammar Job :=
  .command
    (commonFlags ++ [
      { name := "digest", effect := .value .text false },
      { name := "meta", effect := .value .assignment true }])
    [{ name := "NAME", kind := .text }, { name := "VERSION", kind := .text }]
    fun given => .add ((given.value? "NAME").getD "") ((given.value? "VERSION").getD "")
      (given.value? "digest") ((given.values "meta").filterMap Arguments.assignment?)

/-- Removing entries from the catalog. -/
def removeGrammar : Grammar Job :=
  .command (commonFlags ++ [{ name := "version", effect := .value .text false }])
    [{ name := "NAME", kind := .text }]
    fun given => .remove ((given.value? "NAME").getD "") (given.value? "version")

/-- All that can be asked for. -/
def grammar : Grammar Job :=
  .group (commonFlags ++ [{ name := "version", letter := some 'V', effect := .version }]) [
    ("build", buildGrammar),
    ("plan", planGrammar),
    ("resolve", resolveGrammar),
    ("library", .group commonFlags [
      ("list", .command commonFlags [] fun _ => .list),
      ("add", addGrammar),
      ("remove", removeGrammar)])]

/-- Reads the arguments of the program. -/
def parse (args : List String) : Except UsageError Invocation := do
  let (given, job) ← Arguments.run grammar {} args
  return {
    job
    config := given.value? "config"
    catalog := given.value? "catalog"
    registryUrl := given.value? "registry-url"
    offline := given.has "offline" }

end Invocation

end ImageSpec

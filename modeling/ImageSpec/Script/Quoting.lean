import ImageSpec.Json.Printer
import ImageSpec.Text.Segments

namespace ImageSpec.Script

/-!
# Quoting in scripts

How texts that may hold anything are written as arguments of a script's instructions: values between
double quotes, lists of arguments as a JSON array, and commands of several lines with a continuation
mark at the end of each line but the last.
-/

/-- A value between double quotes; quotes and backslashes in it are escaped. -/
def doubleQuoted (cs : List Char) : List Char :=
  ['"'] ++ cs.flatMap (fun c => if c = '"' ∨ c = '\\' then ['\\', c] else [c]) ++ ['"']

/-- A list of arguments as a JSON array on one line. -/
def execForm (arguments : List String) : List Char :=
  ['['] ++ Text.joinWith [','] (arguments.map fun a => Json.quoted a.toList) ++ [']']

/-- Whether a path of a copy has to be written as an item of a JSON array. -/
def needsExecForm (path : String) : Bool :=
  path.toList.any fun c => Text.isBlank c || c == '"' || c == '\''

/-- A line of a command without the blanks and the one backslash that may end it. -/
def bareLine (line : List Char) : List Char :=
  let trimmed := Text.trimEnd line
  if trimmed.getLast? = some '\\' then Text.trimEnd trimmed.dropLast else trimmed

/-- The lines of a command as one instruction. -/
def shellContinued (command : List Char) : List Char :=
  Text.joinWith [' ', '\\', '\n'] ((Text.splitAt '\n' (Text.trim command)).map bareLine)

/-! ### Placeholders -/

/-- The text with `replacement` for every occurrence of the pattern `first :: others`, from the left
    and without overlaps. -/
def replaceAll (first : Char) (others replacement : List Char) (cs : List Char) : List Char :=
  match cs with
  | [] => []
  | c :: rest =>
    if (first :: others).isPrefixOf (c :: rest) then
      replacement ++ replaceAll first others replacement (rest.drop others.length)
    else c :: replaceAll first others replacement rest
termination_by cs.length
decreasing_by
  · simp only [List.length_drop, List.length_cons]
    omega
  · simp

end ImageSpec.Script

import ImageSpec.Json.Token
import ImageSpec.Text.Utf8

namespace ImageSpec.Json

/-!
# From tokens to values

The reader goes once through the tokens and keeps the arrays and objects that are still open.  What
may come next depends on where it stands, which is its `State`.  `ofChars?` reads one value from a
text and `ofBytes?` from bytes; nothing but blanks may follow the value.
-/

/-- An array or object that is still open; its parts come latest first, and the last one is not yet
    complete. -/
inductive Frame where
  | items (latestFirst : List Json)
  | members (latestFirst : List (Option String × Json)) (key : Option String)

/-- Where a reader stands inside the open arrays and objects, the innermost first. -/
inductive State where
  /-- A value has to come. -/
  | value (frames : List Frame)
  /-- An array has been opened: a value or its closing bracket has to come. -/
  | opened (frames : List Frame)
  /-- The name of a member has to come, or the closing brace if there is no member yet. -/
  | name (latestFirst : List (Option String × Json)) (frames : List Frame)
  /-- The colon after the name of a member has to come. -/
  | colon (latestFirst : List (Option String × Json)) (key : Option String) (frames : List Frame)
  /-- A value is complete. -/
  | complete (v : Json) (frames : List Frame)

/-- Starts a value with its first token. -/
def start (frames : List Frame) : Token → Option State
  | .null => some (.complete .null frames)
  | .bool b => some (.complete (.bool b) frames)
  | .number written => some (.complete (.number written) frames)
  | .string value => some (.complete (.string value) frames)
  | .openBracket => some (.opened frames)
  | .openBrace => some (.name [] frames)
  | _ => none

/-- Goes on behind a complete value. -/
def proceed (v : Json) : List Frame → Token → Option State
  | .items vs :: frames, .comma => some (.value (.items (v :: vs) :: frames))
  | .items vs :: frames, .closeBracket => some (.complete (.array (v :: vs).reverse) frames)
  | .members ms key :: frames, .comma => some (.name ((key, v) :: ms) frames)
  | .members ms key :: frames, .closeBrace =>
    some (.complete (.object ((key, v) :: ms).reverse) frames)
  | _, _ => none

/-- Reads one token. -/
def step (s : State) (t : Token) : Option State :=
  match s with
  | .value frames => start frames t
  | .opened frames =>
    match t with
    | .closeBracket => some (.complete (.array []) frames)
    | _ => start (.items [] :: frames) t
  | .name ms frames =>
    match t with
    | .string key => some (.colon ms key frames)
    | .closeBrace => if ms.isEmpty then some (.complete (.object []) frames) else none
    | _ => none
  | .colon ms key frames =>
    match t with
    | .colon => some (.value (.members ms key :: frames))
    | _ => none
  | .complete v frames => proceed v frames t

/-- Reads one value from tokens. -/
def ofTokens? (ts : List Token) : Option Json :=
  match ts.foldlM step (.value []) with
  | some (.complete v []) => some v
  | _ => none

/-- Reads one value from symbols. -/
def ofSymbols? (cs : List Symbol) : Option Json := tokens cs >>= ofTokens?

/-- Reads one value from a text. -/
def ofChars? (cs : List Char) : Option Json := ofSymbols? (cs.map some)

/-- Reads one value from bytes. -/
def ofBytes? (bytes : ByteArray) : Option Json := ofSymbols? (Text.symbols bytes)

end ImageSpec.Json

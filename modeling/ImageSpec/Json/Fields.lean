import ImageSpec.Json
import ImageSpec.KeyMap

namespace ImageSpec.Json

/-!
# Records in JSON

A record with fixed fields is written as an object with its fields by name, or as an array of them
in their order.  In an object unknown names do not count and no field may come twice; in an array
the last fields may be left out.
-/

/-- The names of all members, if every one of them is a string. -/
def namedMembers? (members : List (Option String × Json)) : Option (List (String × Json)) :=
  members.mapM fun (key, v) => key.map (·, v)

/-- The value of a field: `some none` if it is missing, and `none` if it comes twice. -/
def single? (members : List (String × Json)) (name : String) : Option (Option Json) :=
  match members.filter (fun (key, _) => key == name) with
  | [] => some none
  | [(_, v)] => some (some v)
  | _ => none

/-- The fields of a record in the order of `names`. -/
def fields? (names : List String) : Json → Option (List (Option Json))
  | object members => do
    let members ← namedMembers? members
    names.mapM (single? members)
  | array items =>
    if items.length ≤ names.length then
      some (items.map some ++ List.replicate (names.length - items.length) none)
    else none
  | _ => none

/-- The map that an object with strings as values is; of members with one name the last counts. -/
def strings? : Json → Option (KeyMap String)
  | object members => do
    let members ← namedMembers? members
    let pairs ← members.mapM fun (key, v) => v.string?.map (key, ·)
    return KeyMap.ofList pairs
  | _ => none

end ImageSpec.Json

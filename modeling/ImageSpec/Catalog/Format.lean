import ImageSpec.Catalog.Entry
import ImageSpec.Json.Printer
import ImageSpec.Json.Reader
import ImageSpec.Yaml.Printer
import ImageSpec.Yaml.Reader

namespace ImageSpec.Catalog

/-!
# The text of a catalog

The entries of a catalog are written as a list, in JSON or in YAML.  `Format.decode?` reads what
`Format.encode` writes, and more: other spellings of the list, fields in another order and fields
that it does not know.
-/

/-! ### YAML -/

/-- The scalar keys of a mapping with their values; another key is a fault. -/
def namedPairs? (pairs : List (Yaml × Yaml)) : Option (List (String × Yaml)) :=
  pairs.mapM fun (key, v) => key.text?.map (·, v)

/-- The value of a field: `some none` if it is missing, and `none` if it comes twice. -/
def singlePair? (pairs : List (String × Yaml)) (name : String) : Option (Option Yaml) :=
  match pairs.filter (fun (key, _) => key == name) with
  | [] => some none
  | [(_, v)] => some (some v)
  | _ => none

/-- The fields of a record in the order of `names`, from a mapping or from a sequence. -/
def yamlFields? (names : List String) : Yaml → Option (List (Option Yaml))
  | .mapping pairs => do
    let pairs ← namedPairs? pairs
    names.mapM (singlePair? pairs)
  | .sequence items =>
    if items.length ≤ names.length then
      some (items.map some ++ List.replicate (names.length - items.length) none)
    else none
  | .scalar _ _ => none

/-- Reads metadata. -/
def metadataOfYaml? : Option Yaml → Option Metadata
  | none => some .empty
  | some (.mapping pairs) => do
    let pairs ← namedPairs? pairs
    let pairs ← pairs.mapM fun (key, v) => v.text?.map (key, ·)
    return KeyMap.ofList pairs
  | some node => if node.isNothing then some .empty else none

/-- Reads a digest that may be left out. -/
def digestOfYaml? : Option Yaml → Option (Option Digest)
  | none => some none
  | some node =>
    if node.isNull then some none
    else do
      let digest ← (Digest.parse (← node.text?)).toOption
      return some digest

/-- Reads an entry from a YAML node. -/
def Entry.ofYaml? (node : Yaml) : Option Entry := do
  match ← yamlFields? ["name", "version", "digest", "metadata"] node with
  | [some name, some version, digest, metadata] =>
    let name ← name.text?
    let version ← version.text?
    let digest ← digestOfYaml? digest
    let metadata ← metadataOfYaml? metadata
    return { name, version, digest, metadata }
  | _ => none

/-- The metadata of an entry, if there are any. -/
def metadataText (m : Metadata) : List Char :=
  if m.isEmpty then []
  else "  metadata:\n".toList
    ++ m.entries.flatMap fun (key, value) => List.replicate 4 ' ' ++ Yaml.pairText 4 key value

/-- An entry as an item of a YAML sequence. -/
def Entry.yamlText (e : Entry) : List Char :=
  ['-', ' '] ++ Yaml.pairText 2 "name" e.name
    ++ [' ', ' '] ++ Yaml.pairText 2 "version" e.version
    ++ (match e.digest with
      | some d => [' ', ' '] ++ Yaml.pairText 2 "digest" d.text
      | none => [])
    ++ metadataText e.metadata

/-- A list of entries in YAML. -/
def yamlText (es : List Entry) : List Char :=
  if es.isEmpty then "[]\n".toList else es.flatMap Entry.yamlText

/-! ### Formats -/

/-- The two ways of writing a catalog. -/
inductive Format where
  | json
  | yaml
deriving DecidableEq, Repr

namespace Format

/-- The text of a list of entries. -/
def encode (f : Format) (es : List Entry) : String :=
  match f with
  | json => (Json.array (es.map Entry.toJson)).render
  | yaml => String.ofList (yamlText es)

/-- Reads a list of entries from a text. -/
def decode? (f : Format) (text : String) : Option (List Entry) :=
  match f with
  | json => do
    let v ← Json.ofChars? text.toList
    (← v.items?).mapM Entry.ofJson?
  | yaml => do
    let root ← Yaml.document? text.toList
    (← root.items?).mapM Entry.ofYaml?

end Format

end ImageSpec.Catalog

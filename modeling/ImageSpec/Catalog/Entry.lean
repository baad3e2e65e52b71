import ImageSpec.Definition
import ImageSpec.Json.Fields

namespace ImageSpec

namespace Catalog

/-!
# Catalog entries

An entry is a published version of an artifact as a catalog file holds it.  It may leave its digest
out; the definition it stands for has then the digest of its content.
-/

/-- A published version of an artifact. -/
structure Entry where
  name : String
  version : String
  digest : Option Digest := none
  metadata : Metadata := .empty
deriving DecidableEq

namespace Entry

/-- The definition that an entry stands for. -/
def toDefinition (e : Entry) : Definition where
  name := e.name
  version := e.version
  digest := e.digest.getD (Digest.ofContent e.name e.version e.metadata)
  metadata := e.metadata

/-- An entry as a JSON value: a digest that is left out and empty metadata are not written. -/
def toJson (e : Entry) : Json :=
  .object <|
    [(some "name", .string (some e.name)), (some "version", .string (some e.version))]
    ++ (match e.digest with
      | some d => [(some "digest", .string (some d.text))]
      | none => [])
    ++ (if e.metadata.isEmpty then []
      else [(some "metadata", .object (e.metadata.entries.map fun (k, v) =>
        (some k, .string (some v))))])

end Entry

/-- Reads a digest from a JSON value. -/
def digestOfJson? (v : Json) : Option Digest := do
  let written ← v.string?
  (Digest.parse written).toOption

/-- Reads metadata; none are written for empty ones. -/
def metadataOfJson? : Option Json → Option Metadata
  | none => some .empty
  | some v => v.strings?

/-- Reads an entry from a JSON value. -/
def Entry.ofJson? (v : Json) : Option Entry := do
  match ← v.fields? ["name", "version", "digest", "metadata"] with
  | [some name, some version, digest, metadata] =>
    let name ← name.string?
    let version ← version.string?
    let digest ← match digest with
      | none => some none
      | some .null => some none
      | some v => (digestOfJson? v).map some
    let metadata ← metadataOfJson? metadata
    return { name, version, digest, metadata }
  | _ => none

end Catalog

namespace Definition

/-- Reads a definition from a JSON value; its digest has to be written. -/
def ofJson? (v : Json) : Option Definition := do
  match ← v.fields? ["name", "version", "digest", "metadata"] with
  | [some name, some version, some digest, metadata] =>
    let name ← name.string?
    let version ← version.string?
    let digest ← Catalog.digestOfJson? digest
    let metadata ← Catalog.metadataOfJson? metadata
    return { name, version, digest, metadata }
  | _ => none

/-- A definition as a JSON value. -/
def toJson (d : Definition) : Json :=
  .object
    [ (some "name", .string (some d.name)), (some "version", .string (some d.version)),
      (some "digest", .string (some d.digest.text)),
      (some "metadata", .object (d.metadata.entries.map fun (k, v) =>
        (some k, .string (some v)))) ]

end Definition

end ImageSpec

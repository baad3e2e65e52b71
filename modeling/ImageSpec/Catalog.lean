import ImageSpec.Catalog.Entry
import ImageSpec.Library
import ImageSpec.Version.Constraint

namespace ImageSpec

/-!
# Catalogs

A catalog holds definitions in groups by name.  A group holds each version once, in the order in
which the versions came; a later definition with the name and version of an earlier one takes its
place at the end.  A catalog is a library that never changes by being asked.
-/

/-- Definitions in groups by name. -/
structure Catalog where
  groups : KeyMap (List Definition) := .empty
deriving DecidableEq

namespace Catalog

/-- The definitions with a name. -/
def named (c : Catalog) (name : String) : List Definition := (c.groups.get? name).getD []

/-- The catalog with one more definition. -/
def insert (c : Catalog) (d : Definition) : Catalog where
  groups := c.groups.insert d.name
    ((c.named d.name).filter (fun other => other.version != d.version) ++ [d])

/-- The catalog of a list of definitions. -/
def ofDefinitions (ds : List Definition) : Catalog := ds.foldl insert {}

/-- The catalog of a list of entries. -/
def ofEntries (es : List Entry) : Catalog := ofDefinitions (es.map Entry.toDefinition)

/-- All definitions, by name and then in the order of their group. -/
def definitions (c : Catalog) : List Definition := c.groups.entries.flatMap (·.2)

/-- The number of names. -/
def size (c : Catalog) : Nat := c.groups.size

/-- Whether there is no definition. -/
def isEmpty (c : Catalog) : Bool := c.groups.isEmpty

/-- Binds a reference to the highest version that its constraint admits. -/
def resolve (c : Catalog) (r : Reference) : Except LookupError Definition :=
  Version.select r.name r.constraint (c.named r.name) Definition.version

/-- The library that answers from a catalog. -/
def library : Library Catalog where
  lookup r c := (c.resolve r, c)

end Catalog

/-- Picks the definition for a reference among those a server gave; all of them have to have the
    name that was asked for. -/
def chooseAmong (r : Reference) (ds : List Definition) : Except LookupError Definition :=
  match ds.find? (fun d => d.name != r.name) with
  | some stray =>
    .error (.malformed r.name ("server answered with a definition for `" ++ stray.name ++ "`"))
  | none => Version.select r.name r.constraint ds Definition.version

end ImageSpec

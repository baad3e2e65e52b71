import ImageSpec.Yaml
import ImageSpec.Yaml.Token

namespace ImageSpec.Yaml

/-!
# From tokens to documents

Nodes are read from the front of the tokens.  `document?` reads a whole text, which holds one
document or none.
-/

/-- The tokens that are still to be read. -/
abbrev Tokens : Type := List Token

/-- Whether the first token is one of some. -/
def next (ts : Tokens) (among : List Token) : Bool := ts.head?.any among.contains

mutual

/-- Reads a node.  In a block node a collection in block style may stand; in an indentless one also
    the entries of a sequence that is not indented. -/
def node (block indentless : Bool) (ts : Tokens) : Option (Yaml × Tokens) :=
  match ts with
  | .scalar text plain :: rest => some (.scalar text plain, rest)
  | .flowSequence :: rest =>
    (flowItems true rest).map fun (items, rest) => (.sequence items, rest)
  | .flowMapping :: rest =>
    (flowPairs true rest).map fun (pairs, rest) => (.mapping pairs, rest)
  | .blockSequence :: rest =>
    if block then (blockItems rest).map fun (items, rest) => (.sequence items, rest) else none
  | .blockMapping :: rest =>
    if block then (blockPairs rest).map fun (pairs, rest) => (.mapping pairs, rest) else none
  | .blockEntry :: rest =>
    if indentless then
      (looseItems (.blockEntry :: rest)).map fun (items, rest) => (.sequence items, rest)
    else none
  | _ => none
termination_by (ts.length, 2)

/-- Reads a node unless one of some tokens comes next: nothing is written then. -/
def nodeUnless (among : List Token) (block indentless : Bool) (ts : Tokens) :
    Option (Yaml × Tokens) :=
  if next ts among then some (nothing, ts) else node block indentless ts
termination_by (ts.length, 3)

/-- Reads the items of a block sequence and its end. -/
def blockItems (ts : Tokens) : Option (List Yaml × Tokens) :=
  match ts with
  | .blockEnd :: rest => some ([], rest)
  | .blockEntry :: rest =>
    match nodeUnless [.blockEntry, .blockEnd] true false rest with
    | none => none
    | some (item, after) =>
      if _h : after.length ≤ rest.length then
        (blockItems after).map fun (items, last) => (item :: items, last)
      else none
  | _ => none
termination_by (ts.length, 1)

/-- Reads the items of a block sequence that is not indented deeper than the mapping around it. -/
def looseItems (ts : Tokens) : Option (List Yaml × Tokens) :=
  match ts with
  | .blockEntry :: rest =>
    match nodeUnless [.blockEntry, .key, .value, .blockEnd] true false rest with
    | none => none
    | some (item, after) =>
      if _h : after.length ≤ rest.length then
        (looseItems after).map fun (items, last) => (item :: items, last)
      else none
  | _ => some ([], ts)
termination_by (ts.length, 1)

/-- Reads the pairs of a block mapping and its end. -/
def blockPairs (ts : Tokens) : Option (List (Yaml × Yaml) × Tokens) :=
  match ts with
  | .blockEnd :: rest => some ([], rest)
  | .key :: rest =>
    match nodeUnless [.key, .value, .blockEnd] true true rest with
    | none => none
    | some (key, after) =>
      if _h : after.length ≤ rest.length then
        match blockValue after with
        | none => none
        | some (value, last) =>
          if _h' : last.length ≤ rest.length then
            (blockPairs last).map fun (pairs, last) => ((key, value) :: pairs, last)
          else none
      else none
  | _ => none
termination_by (ts.length, 1)

/-- Reads the value behind a key of a block mapping. -/
def blockValue (ts : Tokens) : Option (Yaml × Tokens) :=
  match ts with
  | .value :: rest => nodeUnless [.key, .value, .blockEnd] true true rest
  | _ => some (nothing, ts)
termination_by (ts.length, 1)

/-- Reads the items of a flow sequence and its end.  A comma stands before each item but the
    first. -/
def flowItems (first : Bool) (ts : Tokens) : Option (List Yaml × Tokens) :=
  match ts with
  | .flowSequenceEnd :: rest => some ([], rest)
  | .flowEntry :: rest => if first then none else flowItem rest
  | t :: rest => if first then flowItem (t :: rest) else none
  | [] => none
termination_by (ts.length, 6)

/-- Reads an item of a flow sequence and what follows it.  A key makes it a mapping of one pair. -/
def flowItem (ts : Tokens) : Option (List Yaml × Tokens) :=
  match ts with
  | .flowSequenceEnd :: rest => some ([], rest)
  | .key :: rest =>
    match nodeUnless [.value, .flowEntry, .flowSequenceEnd] false false rest with
    | none => none
    | some (key, after) =>
      if _h : after.length ≤ rest.length then
        match flowValue after with
        | none => none
        | some (value, last) =>
          if _h' : last.length ≤ rest.length then
            (flowItems false last).map fun (items, last) => (.mapping [(key, value)] :: items, last)
          else none
      else none
  | t :: rest =>
    match node false false (t :: rest) with
    | none => none
    | some (item, after) =>
      if _h : after.length ≤ rest.length then
        (flowItems false after).map fun (items, last) => (item :: items, last)
      else none
  | [] => none
termination_by (ts.length, 5)

/-- Reads the pairs of a flow mapping and its end.  A comma stands before each pair but the
    first. -/
def flowPairs (first : Bool) (ts : Tokens) : Option (List (Yaml × Yaml) × Tokens) :=
  match ts with
  | .flowMappingEnd :: rest => some ([], rest)
  | .flowEntry :: rest => if first then none else flowPair rest
  | t :: rest => if first then flowPair (t :: rest) else none
  | [] => none
termination_by (ts.length, 6)

/-- Reads a pair of a flow mapping and what follows it; a node alone is a key without a value. -/
def flowPair (ts : Tokens) : Option (List (Yaml × Yaml) × Tokens) :=
  match ts with
  | .flowMappingEnd :: rest => some ([], rest)
  | .key :: rest =>
    match nodeUnless [.value, .flowEntry, .flowMappingEnd] false false rest with
    | none => none
    | some (key, after) =>
      if _h : after.length ≤ rest.length then
        match flowValue after with
        | none => none
        | some (value, last) =>
          if _h' : last.length ≤ rest.length then
            (flowPairs false last).map fun (pairs, last) => ((key, value) :: pairs, last)
          else none
      else none
  | t :: rest =>
    match node false false (t :: rest) with
    | none => none
    | some (key, after) =>
      if _h : after.length ≤ rest.length then
        (flowPairs false after).map fun (pairs, last) => ((key, nothing) :: pairs, last)
      else none
  | [] => none
termination_by (ts.length, 5)

/-- Reads the value behind a key of a flow collection. -/
def flowValue (ts : Tokens) : Option (Yaml × Tokens) :=
  match ts with
  | .value :: rest =>
    nodeUnless [.flowEntry, .flowMappingEnd, .flowSequenceEnd] false false rest
  | _ => some (nothing, ts)
termination_by (ts.length, 1)

end

/-- Whether nothing but the end of a document follows; another document is a fault. -/
def atEnd (ts : Tokens) : Bool :=
  match ts with
  | .documentEnd :: rest => rest.all (· == .documentEnd)
  | _ => ts.isEmpty

/-- Reads a document that has been opened by its mark. -/
def opened? (ts : Tokens) : Option Yaml :=
  if ts.isEmpty || next ts [.documentStart, .documentEnd] then
    if atEnd ts then some nothing else none
  else
    match node true false ts with
    | some (root, rest) => if atEnd rest then some root else none
    | none => none

/-- Reads the document of a text; a text without any token holds nothing. -/
def document? (cs : List Char) : Option Yaml := do
  match ← tokens? cs with
  | [] => some nothing
  | .documentStart :: rest => opened? rest
  | ts =>
    match node true false ts with
    | some (root, rest) => if atEnd rest then some root else none
    | none => none

end ImageSpec.Yaml

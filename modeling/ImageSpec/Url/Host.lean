import ImageSpec.Text.Segments
import ImageSpec.Text.Utf8
import ImageSpec.Url.Percent
import ImageSpec.Url.Punycode

namespace ImageSpec.Url

/-!
# Hosts

A host is a domain or an address of one of the two versions.  What ends in a number is an address,
however it is written: with one to four numbers, each decimal, octal or hexadecimal.
-/

/-- Why a text is no URL. -/
inductive Fault where
  | relative
  | emptyHost
  | port
  | ipv4
  | ipv6
  | domain
  | hostCharacter
deriving DecidableEq, Repr

/-- What is wrong with a URL, in words. -/
def Fault.message : Fault → String
  | relative => "relative URL without a base"
  | emptyHost => "empty host"
  | port => "invalid port number"
  | ipv4 => "invalid IPv4 address"
  | ipv6 => "invalid IPv6 address"
  | domain => "invalid international domain name"
  | hostCharacter => "invalid domain character"

/-- Where a URL leads to. -/
inductive Host where
  | domain (name : String)
  | ipv4 (address : Nat)
  | ipv6 (pieces : List Nat)
deriving DecidableEq, Repr

/-! ### Numbers -/

/-- The value of digits in a base. -/
def digits? (base : Nat) (cs : List Char) : Option Nat :=
  cs.foldlM (fun n c => do
    let d ← Text.hexValue? c
    if d < base then some (base * n + d) else none) 0

/-- The value of a number whose base its beginning shows. -/
def addressNumber? : List Char → Option Nat
  | [] => none
  | '0' :: 'x' :: rest => digits? 16 rest
  | '0' :: 'X' :: rest => digits? 16 rest
  | '0' :: d :: rest => digits? 8 (d :: rest)
  | cs => digits? 10 cs

/-! ### Addresses of version 4 -/

/-- The parts of an address between its dots; one dot may stand at the end. -/
def addressParts (cs : List Char) : List (List Char) :=
  let parts := Text.splitAt '.' cs
  if 1 < parts.length && parts.getLast? = some [] then parts.dropLast else parts

/-- Whether the last part of a domain is a number, so that it has to be an address. -/
def endsInNumber (cs : List Char) : Bool :=
  match (addressParts cs).getLast? with
  | none => false
  | some last => (!last.isEmpty && last.all Char.isDigit) || (addressNumber? last).isSome

/-- Reads an address: the last number fills all bytes that the others leave. -/
def ipv4? (cs : List Char) : Option Nat := do
  let numbers ← (addressParts cs).mapM addressNumber?
  let last ← numbers.getLast?
  let leading := numbers.dropLast
  let room := Nat.pow 256 (4 - leading.length)
  if 3 < leading.length then none
  else if leading.all (· ≤ 255) && last < room then
    some (leading.foldl (fun n b => 256 * n + b) 0 * room + last)
  else none

/-! ### Addresses of version 6 -/

/-- Reads a number of an address of version 4 that stands at the end of one of version 6. -/
def tailByte? (cs : List Char) : Option Nat :=
  match cs with
  | [] => none
  | ['0'] => some 0
  | '0' :: _ => none
  | _ => if cs.all Char.isDigit then (digits? 10 cs).filter (· ≤ 255) else none

/-- Reads the last group of an address: one piece, or four bytes that make two. -/
def lastGroup? (cs : List Char) : Option (List Nat) :=
  if cs.contains '.' then
    match (Text.splitAt '.' cs).mapM tailByte? with
    | some [a, b, c, d] => some [256 * a + b, 256 * c + d]
    | _ => none
  else if cs.isEmpty || 4 < cs.length then none
  else (digits? 16 cs).map ([·])

/-- Reads a group that is not the last one. -/
def group? (cs : List Char) : Option Nat :=
  if cs.isEmpty || 4 < cs.length then none else digits? 16 cs

/-- Reads groups between colons. -/
def groups? (cs : List Char) : Option (List Nat) :=
  if cs.isEmpty then some []
  else do
    let groups := Text.splitAt ':' cs
    let leading ← groups.dropLast.mapM group?
    let last ← groups.getLast?.bind lastGroup?
    return leading ++ last

/-- Reads groups in front of the gap. -/
def groupsBefore? (cs : List Char) : Option (List Nat) :=
  if cs.isEmpty then some [] else (Text.splitAt ':' cs).mapM group?

/-- Cuts at the first two colons in a row. -/
def cutGap : List Char → Option (List Char × List Char)
  | ':' :: ':' :: rest => some ([], rest)
  | [] => none
  | c :: rest => (cutGap rest).map fun (before, after) => (c :: before, after)

/-- Reads an address of eight pieces, of which a gap stands for one or more zeros. -/
def ipv6? (cs : List Char) : Option (List Nat) :=
  match cutGap cs with
  | none => (groups? cs).filter (·.length = 8)
  | some (before, after) => do
    let left ← groupsBefore? before
    let right ← groups? after
    if left.length + right.length ≤ 7 then
      some (left ++ List.replicate (8 - left.length - right.length) 0 ++ right)
    else none

/-! ### Hosts -/

/-- Characters that no domain has. -/
def isForbiddenInDomain (c : Char) : Bool :=
  c ≤ ' ' || c == '\x7f' || "#/:<>?@[\\]^|%".toList.contains c

/-- A label of a domain in lower case and in ASCII. -/
def asciiLabel (label : List Char) : List Char :=
  let label := label.map Char.toLower
  if label.all (· < '\x80') then label else "xn--".toList ++ Punycode.encode label

/-- A domain in lower case and in ASCII. -/
def asciiDomain (cs : List Char) : List Char :=
  Text.joinWith ['.'] ((Text.splitAt '.' cs).map asciiLabel)

/-- Reads an address of version 6 in brackets. -/
def bracketed (cs : List Char) : Except Fault Host :=
  if cs.getLast? = some ']' then
    match ipv6? cs.dropLast with
    | some pieces => .ok (.ipv6 pieces)
    | none => .error .ipv6
  else .error .ipv6

/-- Reads the host of a URL with a special scheme. -/
def Host.parse (cs : List Char) : Except Fault Host :=
  match cs with
  | '[' :: rest => bracketed rest
  | _ =>
    match Text.ofUtf8? ⟨(percentDecode cs).toArray⟩ with
    | none => .error .domain
    | some decoded =>
      let name := asciiDomain decoded.toList
      if name.any isForbiddenInDomain then .error .domain
      else if name.isEmpty then .error .emptyHost
      else if endsInNumber name then
        match ipv4? name with
        | some address => .ok (.ipv4 address)
        | none => .error .ipv4
      else .ok (.domain (String.ofList name))

/-- Reads the host of a URL with another scheme, which is kept as it is. -/
def Host.parsePlain (cs : List Char) : Except Fault Host :=
  match cs with
  | '[' :: rest => bracketed rest
  | _ =>
    if cs.any "\x00\t\n\r #/:<>?@[\\]^|".toList.contains then .error .hostCharacter
    else .ok (.domain (String.ofList (percentEncode isUnprinted cs)))

/-! ### Writing -/

/-- The lengths of the runs of zeros that start at each piece. -/
def zeroRuns : List Nat → List Nat
  | [] => []
  | p :: rest =>
    let runs := zeroRuns rest
    (if p = 0 then runs.headD 0 + 1 else 0) :: runs

/-- Pieces in hexadecimal with colons between them. -/
def piecesText (pieces : List Nat) : List Char := Text.joinWith [':'] (pieces.map Text.hex)

/-- An address of version 6; the first of its longest runs of zeros is a gap if it has two or more. -/
def ipv6Text (pieces : List Nat) : List Char :=
  let runs := zeroRuns pieces
  let longest := runs.foldl max 0
  if longest < 2 then piecesText pieces
  else
    let start := runs.idxOf longest
    piecesText (pieces.take start) ++ [':', ':'] ++ piecesText (pieces.drop (start + longest))

/-- The text of a host. -/
def Host.text : Host → List Char
  | .domain name => name.toList
  | .ipv4 address => Text.joinWith ['.'] ([address / 16777216, address / 65536 % 256,
      address / 256 % 256, address % 256].map fun n => n.repr.toList)
  | .ipv6 pieces => ['['] ++ ipv6Text pieces ++ [']']

end ImageSpec.Url

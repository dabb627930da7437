import Typestate.Json.Numeral
import Typestate.Json.Quoted
import Typestate.Yaml.Spot

/-!
Directives: lines before a document that give the version of the language or a short form for tags.
-/

namespace Typestate.Yaml

inductive Directive where
  | version (major minor : Nat)
  /-- A handle that stands for the start of tags. -/
  | handle (name : String)
  deriving DecidableEq

namespace Directive

def isVersion : Directive → Bool
  | version .. => true
  | handle _ => false

/-- Whether a directive may follow others: there is one version, which is 1.1 or 1.2, and each handle
is given once. -/
def follows (d : Directive) (earlier : List Directive) : Bool :=
  match d with
  | version major minor =>
    major = 1 && (minor = 1 || minor = 2) && !earlier.any isVersion
  | handle _ => d ∉ earlier

def isNameChar (c : Char) : Bool :=
  c.isAlphanum || c = '_' || c = '-'

def span (p : Char → Bool) (spots : List Spot) : List Char × List Spot :=
  ((spots.takeWhile fun s => p s.char).map Spot.char, spots.dropWhile fun s => p s.char)

def skipBlanks (spots : List Spot) : List Spot :=
  spots.dropWhile Spot.isBlank

def readNumber (spots : List Spot) : Option (Nat × List Spot) :=
  let (ds, rest) := span Json.Numeral.isDigit spots
  if ds.isEmpty || 9 < ds.length then none else some (Json.Numeral.value ds, rest)

def readVersion (spots : List Spot) : Option (Directive × List Spot) := do
  let (major, rest) ← readNumber (skipBlanks spots)
  match rest with
  | [] => none
  | point :: rest =>
    if point.char = '.' then
      let (minor, rest) ← readNumber rest
      return (.version major minor, rest)
    else none

/-- Reads the handle of a tag: an exclamation mark, or a name between two of them. -/
def readHandle (spots : List Spot) : Option (String × List Spot) :=
  match spots with
  | [] => none
  | mark :: rest =>
    if mark.char = '!' then
      let (name, rest) := span isNameChar rest
      match rest with
      | [] => none
      | next :: rest =>
        if next.char = '!' then some (String.ofList ('!' :: name ++ ['!']), rest)
        else if name.isEmpty then some ("!", next :: rest)
        else none
    else none

def isAddressChar (c : Char) : Bool :=
  isNameChar c || ";/?:@&=+$,.!~*'()[]".toList.contains c

/-- The number of octets that follow the first octet of a character. -/
def octetsAfter? (octet : Nat) : Option Nat :=
  if octet < 0x80 then some 0
  else if 0xc0 ≤ octet ∧ octet < 0xe0 then some 1
  else if 0xe0 ≤ octet ∧ octet < 0xf0 then some 2
  else if 0xf0 ≤ octet ∧ octet < 0xf8 then some 3
  else none

/-- How many octets are to come after one more, where `pending` were to come before it. -/
def nextOctet? (pending octet : Nat) : Option Nat :=
  match pending with
  | 0 => octetsAfter? octet
  | pending + 1 => if 0x80 ≤ octet ∧ octet < 0xc0 then some pending else none

/-- Goes past an address, in which a percent sign and two hexadecimal digits give an octet; `pending`
octets of a character are to come. -/
def skipAddress (pending : Nat) : List Spot → Option (List Spot)
  | a :: b :: c :: rest =>
    if a.char = '%' then
      match Json.Quoted.hexDigit? b.char, Json.Quoted.hexDigit? c.char with
      | some high, some low =>
        match nextOctet? pending (16 * high + low) with
        | some pending => skipAddress pending rest
        | none => none
      | _, _ => none
    else if pending = 0 then
      if isAddressChar a.char then skipAddress 0 (b :: c :: rest) else some (a :: b :: c :: rest)
    else none
  | a :: rest =>
    if pending = 0 ∧ a.char ≠ '%' then
      if isAddressChar a.char then skipAddress 0 rest else some (a :: rest)
    else none
  | [] => if pending = 0 then some [] else none

def readTag (spots : List Spot) : Option (Directive × List Spot) := do
  let (name, rest) ← readHandle (skipBlanks spots)
  if !rest.head?.any Spot.isBlank then none
  let address := skipBlanks rest
  let rest ← skipAddress 0 address
  if rest.length = address.length ∨ !Spot.endsWord rest then none
  return (.handle name, rest)

/-- Goes past the rest of a line, which holds at most a comment. -/
def endLine? (spots : List Spot) : Option (List Spot) :=
  let rest := skipBlanks spots
  let rest :=
    if rest.head?.any (·.char = '#') then rest.dropWhile fun s => !s.isBreak else rest
  match rest with
  | [] => some []
  | s :: rest => if s.isBreak then some rest else none

/-- Reads a directive, of which the percent sign has been read. -/
def read? (spots : List Spot) : Option (Directive × List Spot) := do
  let (name, rest) := span isNameChar spots
  if !Spot.endsWord rest then none
  let (d, rest) ←
    match String.ofList name with
    | "YAML" => readVersion rest
    | "TAG" => readTag rest
    | _ => none
  return (d, ← endLine? rest)

end Directive

end Typestate.Yaml

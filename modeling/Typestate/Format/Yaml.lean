import Typestate.Format.Basic
import Typestate.Json.Numeral
import Typestate.Json.Quoted
import Typestate.Yaml.Node

/-!
YAML as a document format. The type of a scalar is that of the place where it stands: any scalar can
be a text, and a plain one also a number, a truth value or nothing. A record is a mapping and a case
is a scalar.
-/

namespace Typestate.Yaml

/-- The spellings of nothing. -/
def isNullWord (text : String) : Bool :=
  text ∈ ["", "~", "null", "Null", "NULL"]

def flagWord? (text : String) : Option Bool :=
  if text ∈ ["true", "True", "TRUE"] then some true
  else if text ∈ ["false", "False", "FALSE"] then some false
  else none

def digit? (base : Nat) (c : Char) : Option Nat :=
  (Json.Quoted.hexDigit? c).filter (· < base)

def digits? (base : Nat) (cs : List Char) : Option Nat :=
  if cs.isEmpty then none
  else cs.foldlM (fun n c => (digit? base c).map (base * n + ·)) 0

/-- A plus in front does not count. -/
def withoutPlus : List Char → List Char
  | '+' :: cs => cs
  | cs => cs

/-- The value of digits without a sign: decimal without a superfluous zero, or with a mark for another
base. -/
def unsigned? : List Char → Option Nat
  | '0' :: 'x' :: ds => digits? 16 ds
  | '0' :: 'o' :: ds => digits? 8 ds
  | '0' :: 'b' :: ds => digits? 2 ds
  | '0' :: _ :: _ => none
  | ds => digits? 10 ds

/-- The value of a natural number below `2 ^ 64`. -/
def naturalWord? (text : String) : Option Nat :=
  (unsigned? (withoutPlus text.toList)).filter (· < Json.natLimit)

def integerWord? (text : String) : Option Int :=
  match text.toList with
  | '-' :: cs => (unsigned? cs).map fun n => -(n : Int)
  | cs => (unsigned? (withoutPlus cs)).map fun n => (n : Int)

/-- Reads a row of digits with an optional point, at least one digit in all. -/
def readDecimal (cs : List Char) : Option (List Char × List Char × List Char) :=
  let (whole, rest) := Json.Numeral.digits cs
  let (fraction, rest) :=
    match rest with
    | '.' :: rest => Json.Numeral.digits rest
    | _ => ([], rest)
  if whole.isEmpty && fraction.isEmpty then none else some (whole, fraction, rest)

def decimal? (cs : List Char) : Option Json.Numeral := do
  let (whole, fraction, rest) ← readDecimal cs
  match ← Json.Numeral.readExponent rest with
  | (exponent, []) => some ⟨false, whole, fraction, exponent⟩
  | _ => none

def hasLeadingZero (cs : List Char) : Bool :=
  1 < cs.length && cs.head? = some '0' && cs.all Json.Numeral.isDigit

/-- Whether a word is a decimal number in the range of doubles, or one of the words for infinities
and for no number, the last of which has no sign. -/
def isFloatWord (text : String) : Bool :=
  let cs :=
    match text.toList with
    | '-' :: cs => cs
    | cs => withoutPlus cs
  let inRange := (decimal? cs).any fun n => !Double.isBeyond n.mantissa n.scale
  (inRange && !hasLeadingZero cs) || String.ofList cs ∈ [".inf", ".Inf", ".INF"]
    || text ∈ [".nan", ".NaN", ".NAN"]

/-- The value of a whole number, if it can be read. Those that do not fit in 64 bits but in 128 bits
cannot, and larger ones are not taken as whole numbers. -/
def integerDatum? (n : Int) : Option (Option Datum) :=
  if 0 ≤ n ∧ n < Nat.pow 2 64 then some (some (.nat n.toNat))
  else if -(Nat.pow 2 63 : Int) ≤ n ∧ n ≤ 0 then some (some .number)
  else if -(Nat.pow 2 127 : Int) ≤ n ∧ n < Nat.pow 2 128 then some none
  else none

/-- The value of a plain scalar with the type that it shows by itself, if it can be read. -/
def plainDatum? (text : String) : Option Datum :=
  let other : Datum := if isFloatWord text then .number else .str text
  if isNullWord text then some .null
  else
    match flagWord? text, integerWord? text with
    | some b, _ => some (.bool b)
    | none, some n => (integerDatum? n).getD (some other)
    | none, none => some other

mutual

/-- A value with the types that its scalars show by themselves, if all parts of it can be read. -/
def toDatum? : Yaml → Option Datum
  | scalar text plain => if plain then plainDatum? text else some (.str text)
  | sequence items => (itemsToData? items).map .list
  | mapping entries => (entriesToData? entries).map .mapping
  | tooDeep => none

def itemsToData? : List Yaml → Option (List Datum)
  | [] => some []
  | v :: rest => do
    let v ← v.toDatum?
    return v :: (← itemsToData? rest)

def entriesToData? : List (Yaml × Yaml) → Option (List (Datum × Datum))
  | [] => some []
  | (key, v) :: rest => do
    let key ← key.toDatum?
    let v ← v.toDatum?
    return (key, v) :: (← entriesToData? rest)

end

def text? : Yaml → Option String
  | scalar text _ => some text
  | _ => none

def plain? : Yaml → Option String
  | scalar text true => some text
  | _ => none

/-- The entries of a mapping whose keys are scalars; nothing is the empty mapping. -/
def namedEntries? : Yaml → Option (List (String × Yaml))
  | mapping entries => entries.mapM fun (name, v) => name.text?.map (·, v)
  | scalar "" true => some []
  | _ => none

instance : Format Yaml where
  text? := text?
  natural? v := v.plain?.bind naturalWord?
  flag? v := v.plain?.bind flagWord?
  isNull v := v.plain?.any isNullWord
  items?
    | sequence items => some items
    | scalar "" true => some []
    | _ => none
  entries? := namedEntries?
  record? v := v.namedEntries?.map .named
  variant? v := v.text?.map (·, none)
  generic? := toDatum?
  kindsByNumber := false

end Typestate.Yaml

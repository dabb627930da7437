import Typestate.Datum

/-!
Document formats. A format says how its values are looked at as texts, numbers, lists and records,
so that each type of document is read in one way from all formats. A schema says which fields a
record has.
-/

namespace Typestate

/-- What tells a field of a record: its name, or its place among the fields. -/
inductive FieldKey where
  | name (text : String)
  | place (index : Nat)
  deriving DecidableEq

/-- How a record is written: with keys that tell its fields, or as a list of their values. -/
inductive RecordForm (V : Type) where
  | keyed (fields : List (FieldKey × V))
  | positional (items : List V)

def RecordForm.named {V : Type} (fields : List (String × V)) : RecordForm V :=
  .keyed (fields.map fun (name, v) => (.name name, v))

class Format (V : Type) where
  text? : V → Option String
  /-- A natural number below `2 ^ 64`. -/
  natural? : V → Option Nat
  flag? : V → Option Bool
  /-- Whether the value stands for the absence of one. -/
  isNull : V → Bool
  items? : V → Option (List V)
  /-- The entries of a mapping from names. -/
  entries? : V → Option (List (String × V))
  record? : V → Option (RecordForm V)
  /-- The name of one of several cases, and the content that is given with it. -/
  variant? : V → Option (String × Option V)
  /-- The value with the type that it shows by itself, if all parts of it can be read. -/
  generic? : V → Option Datum
  /-- Whether a record may tell its kind by a number. -/
  kindsByNumber : Bool

/-- A field of a record; `trailing` says that a list of values may end before it. -/
structure Field where
  name : String
  trailing : Bool

namespace Field

def always (name : String) : Field :=
  ⟨name, false⟩

def optional (name : String) : Field :=
  ⟨name, true⟩

end Field

/-- The fields of a record, in order; `lenient` says that fields with other names are skipped. -/
structure Schema where
  fields : List Field
  lenient : Bool

/-- The fields of a record that are present. -/
abbrev Record (V : Type) := List (String × V)

variable {V : Type} [Format V] {α : Type}

namespace Schema

def has (s : Schema) (name : String) : Bool :=
  s.fields.any (·.name = name)

def nameOf? (s : Schema) : FieldKey → Option String
  | .name text => if s.has text then some text else none
  | .place index => s.fields[index]?.map Field.name

/-- The fields of a record that is written with keys: none of them twice. -/
def ofKeyed? (s : Schema) (fields : List (FieldKey × V)) : Option (Record V) :=
  let known := fields.filterMap fun (key, v) => (s.nameOf? key).map (·, v)
  if (known.map Prod.fst).Nodup ∧ (s.lenient ∨ known.length = fields.length) then some known
  else none

/-- The fields of a record that is written as a list: in order, and only trailing ones are left
out. -/
def ofPositional? (s : Schema) (items : List V) : Option (Record V) :=
  if items.length ≤ s.fields.length ∧ (s.fields.drop items.length).all (·.trailing) then
    some ((s.fields.map Field.name).zip items)
  else none

def read? (s : Schema) (v : V) : Option (Record V) :=
  match Format.record? v with
  | none => none
  | some (.keyed fields) => s.ofKeyed? fields
  | some (.positional items) => s.ofPositional? items

end Schema

namespace Record

def required (r : Record V) (name : String) (read : V → Option α) : Option α :=
  (r.lookup name).bind read

/-- A field that may be absent or null. -/
def nullable (r : Record V) (name : String) (read : V → Option α) : Option (Option α) :=
  match r.lookup name with
  | none => some none
  | some v => if Format.isNull v then some none else (read v).map some

/-- A field that has a value also where it is absent. -/
def defaulted (r : Record V) (name : String) (read : V → Option α) (absent : α) : Option α :=
  match r.lookup name with
  | none => some absent
  | some v => read v

end Record

namespace Format

def word? (v : V) : Option UInt32 :=
  (natural? v).bind fun n => if n < Nat.pow 2 32 then some n.toUInt32 else none

def list? (read : V → Option α) (v : V) : Option (List α) :=
  (items? v).bind fun items => items.mapM read

/-- The name of a case that has no content. -/
def bareVariant? (v : V) : Option String :=
  match variant? v with
  | some (name, none) => some name
  | some (name, some content) => if isNull content then some name else none
  | none => none

end Format

end Typestate

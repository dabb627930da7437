import Typestate.Format.Basic
import Typestate.Json.Basic

/-!
JSON as a document format. A record is an object or a list of its values; a case is a string, or an
object whose only field names the case and holds its content.
-/

namespace Typestate

mutual

/-- A value as a self-typed one, if all parts of it can be read. -/
def Json.toDatum? : Json → Option Datum
  | .null => some .null
  | .bool b => some (.bool b)
  | .nat n => some (.nat n)
  | .number _ => some .number
  | .str s => some (.str s)
  | .arr items => (Json.itemsToData? items).map .list
  | .obj fields => (Json.fieldsToData? fields).map .mapping
  | .unreadable => none

def Json.itemsToData? : List Json → Option (List Datum)
  | [] => some []
  | v :: rest => do
    let v ← v.toDatum?
    return v :: (← Json.itemsToData? rest)

def Json.fieldsToData? : List (String × Json) → Option (List (Datum × Datum))
  | [] => some []
  | (name, v) :: rest => do
    let v ← v.toDatum?
    return (.str name, v) :: (← Json.fieldsToData? rest)

end

instance : Format Json where
  text?
    | .str s => some s
    | _ => none
  natural?
    | .nat n => some n
    | _ => none
  flag?
    | .bool b => some b
    | _ => none
  isNull
    | .null => true
    | _ => false
  items?
    | .arr items => some items
    | _ => none
  entries?
    | .obj fields => some fields
    | _ => none
  record?
    | .obj fields => some (.named fields)
    | .arr items => some (.positional items)
    | _ => none
  variant?
    | .str name => some (name, none)
    | .obj [(name, content)] => some (name, some content)
    | _ => none
  generic? := Json.toDatum?
  kindsByNumber := false

namespace Json

variable {α : Type}

/-- An absent value is written as null. -/
def ofOption (write : α → Json) : Option α → Json
  | none => .null
  | some a => write a

def ofWord (n : UInt32) : Json :=
  .nat n.toNat

/-- A field that is only written if it has a value. -/
def fieldOf (name : String) (write : α → Json) : Option α → List (String × Json)
  | none => []
  | some a => [(name, write a)]

end Json

end Typestate

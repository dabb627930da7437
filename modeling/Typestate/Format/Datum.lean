import Typestate.Format.Basic

/-!
Self-typed values as a document format. Fields of a record and kinds may be told by numbers, which
count them from zero.
-/

namespace Typestate.Datum

/-- The field that a key of a mapping tells. -/
def fieldKey? : Datum → Option FieldKey
  | str name => some (.name name)
  | nat index => some (.place index)
  | _ => none

def keyedFields? (entries : List (Datum × Datum)) : Option (List (FieldKey × Datum)) :=
  entries.mapM fun (key, v) => (fieldKey? key).map (·, v)

def text? : Datum → Option String
  | str s => some s
  | _ => none

instance : Format Datum where
  text? := text?
  natural?
    | nat n => some n
    | _ => none
  flag?
    | bool b => some b
    | _ => none
  isNull
    | null => true
    | _ => false
  items?
    | list items => some items
    | _ => none
  entries?
    | mapping entries => entries.mapM fun (key, v) => (text? key).map (·, v)
    | _ => none
  record?
    | mapping entries => (keyedFields? entries).map .keyed
    | list items => some (.positional items)
    | _ => none
  variant?
    | str name => some (name, none)
    | mapping [(str name, content)] => some (name, some content)
    | _ => none
  generic? := some
  kindsByNumber := true

end Typestate.Datum

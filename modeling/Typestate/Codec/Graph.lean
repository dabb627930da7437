import Typestate.Format.Datum
import Typestate.Format.Json
import Typestate.Graph.Basic

/-!
Parts of graphs in documents.
-/

namespace Typestate

variable {V : Type} [Format V]

namespace Span

def schema : Schema :=
  ⟨[.always "start_line", .always "start_col", .always "end_line", .always "end_col"], true⟩

def read? (v : V) : Option Span := do
  let r ← schema.read? v
  return {
    startLine := ← r.required "start_line" Format.word?
    startCol := ← r.required "start_col" Format.word?
    endLine := ← r.required "end_line" Format.word?
    endCol := ← r.required "end_col" Format.word? }

def toJson (s : Span) : Json :=
  .obj [("start_line", .ofWord s.startLine), ("start_col", .ofWord s.startCol),
    ("end_line", .ofWord s.endLine), ("end_col", .ofWord s.endCol)]

end Span

namespace Statement

def invokeSchema : Schema :=
  ⟨[.always "receiver", .optional "receiver_type", .always "method"], true⟩

def otherSchema : Schema :=
  ⟨[.always "text"], true⟩

/-- The kinds of statements; the place of a kind in the list is its number. -/
def kinds : List String :=
  ["invoke", "opaque", "nop"]

/-- The kind that a value tells, by its name or, where that is allowed, by its number. -/
def kindName? (byNumber : Bool) : Datum → Option String
  | .str kind => some kind
  | .nat n => if byNumber then kinds[n]? else none
  | _ => none

/-- Whether the kind of a statement stands under a key. -/
def isKindKey : Datum → Bool
  | .str name => name = "kind"
  | _ => false

/-- Splits a statement into its kind and its other fields. -/
def kind? (byNumber : Bool) : Datum → Option (String × Datum)
  | .mapping entries =>
    match entries.partition fun (key, _) => isKindKey key with
    | ([(_, kind)], others) => (kindName? byNumber kind).map (·, .mapping others)
    | _ => none
  | .list (kind :: items) => (kindName? byNumber kind).map (·, .list items)
  | _ => none

/-- Reads the fields of a statement whose kind is known. -/
def ofKind? (kind : String) (content : Datum) : Option Statement :=
  match kind with
  | "invoke" => do
    let r ← invokeSchema.read? content
    return .invoke (← r.required "receiver" Format.text?)
      (← r.nullable "receiver_type" Format.text?) (← r.required "method" Format.text?)
  | "opaque" => do
    let r ← otherSchema.read? content
    return .other (← r.required "text" Format.text?)
  | "nop" =>
    match content with
    | .list (_ :: _) => none
    | _ => some .nop
  | _ => none

/-- A statement tells its kind in the field `kind`, or first of all in a list. -/
def read? (v : V) : Option Statement := do
  let (kind, content) ← kind? (Format.kindsByNumber V) (← Format.generic? v)
  ofKind? kind content

def toJson : Statement → Json
  | invoke receiver type method =>
    .obj [("kind", .str "invoke"), ("receiver", .str receiver),
      ("receiver_type", .ofOption .str type), ("method", .str method)]
  | other text => .obj [("kind", .str "opaque"), ("text", .str text)]
  | nop => .obj [("kind", .str "nop")]

end Statement

namespace Node

def schema : Schema :=
  ⟨[.always "statement", .optional "span"], true⟩

def read? (v : V) : Option Node := do
  let r ← schema.read? v
  return ⟨← r.required "statement" Statement.read?, ← r.nullable "span" Span.read?⟩

def toJson (n : Node) : Json :=
  .obj [("statement", n.statement.toJson), ("span", .ofOption Span.toJson n.span)]

end Node

namespace EdgeKind

def text : EdgeKind → String
  | sequential => "sequential"
  | trueBranch => "true_branch"
  | falseBranch => "false_branch"
  | loopBack => "loop_back"
  | exception => "exception"

def ofText? : String → Option EdgeKind
  | "sequential" => some sequential
  | "true_branch" => some trueBranch
  | "false_branch" => some falseBranch
  | "loop_back" => some loopBack
  | "exception" => some exception
  | _ => none

def read? (v : V) : Option EdgeKind :=
  (Format.bareVariant? v).bind ofText?

def toJson (k : EdgeKind) : Json :=
  .str k.text

end EdgeKind

end Typestate

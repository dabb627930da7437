import Typestate.Flow
import Typestate.Format.Json
import Typestate.Protocol.Basic

/-!
States, rules and fallbacks in documents: `read?` takes them from a document of any format and
`toJson` writes them.
-/

namespace Typestate

variable {V : Type} [Format V]

namespace State

def schema : Schema :=
  ⟨[.always "name"], true⟩

def read? (v : V) : Option State := do
  let r ← schema.read? v
  return ⟨← r.required "name" Format.text?⟩

def toJson (s : State) : Json :=
  .obj [("name", .str s.name)]

end State

namespace Action

def schema : Schema :=
  ⟨[.always "method_name"], true⟩

def read? (v : V) : Option Action := do
  let r ← schema.read? v
  return ⟨← r.required "method_name" Format.text?⟩

def toJson (a : Action) : Json :=
  .obj [("method_name", .str a.name)]

end Action

namespace Handle

def read? (v : V) : Option Handle :=
  (Format.text? v).map Handle.mk

def toJson (h : Handle) : Json :=
  .str h.name

end Handle

namespace Tracked

def read? (v : V) : Option Tracked :=
  match Format.variant? v with
  | some ("Known", some content) => (State.read? content).map known
  | _ => if Format.bareVariant? v = some "Unknown" then some unknown else none

def toJson : Tracked → Json
  | known s => .obj [("Known", s.toJson)]
  | unknown => .str "Unknown"

end Tracked

namespace Rule

def schema : Schema :=
  ⟨[.always "target", .always "rejected_from"], true⟩

def read? (v : V) : Option Rule := do
  let r ← schema.read? v
  let target ← r.required "target" Tracked.read?
  let rejectedFrom ← r.required "rejected_from" (Format.list? State.read?)
  return ⟨target, .ofList rejectedFrom⟩

def toJson (r : Rule) : Json :=
  .obj [("target", r.target.toJson),
    ("rejected_from", .arr (r.rejectedFrom.toList.map State.toJson))]

end Rule

namespace Fallback

def read? (v : V) : Option Fallback :=
  match Format.variant? v with
  | some ("Accept", some content) => (Tracked.read? content).map accept
  | _ =>
    match Format.bareVariant? v with
    | some "Preserve" => some preserve
    | some "Reject" => some reject
    | _ => none

def toJson : Fallback → Json
  | accept target => .obj [("Accept", target.toJson)]
  | preserve => .str "Preserve"
  | reject => .str "Reject"

end Fallback

namespace Assignment

/-- Of two entries for one handle the later one counts. -/
def read? (v : V) : Option Assignment := do
  let entries ← Format.entries? v
  let pairs ← entries.mapM fun (name, content) =>
    (Tracked.read? content).map fun s => (Handle.mk name, s)
  return .ofList pairs

def toJson (m : Assignment) : Json :=
  .obj (m.toList.map fun (h, s) => (h.name, s.toJson))

end Assignment

end Typestate

import Typestate.Codec.Graph
import Typestate.Protocol.Fault

/-!
Protocol documents: protocols as users write them. Names stand for states and operations, a target
may be the unknown state, and the states may be listed. `ProtocolDocument.build` turns a document
into a protocol; with a list of states it refuses the use of others.
-/

namespace Typestate

/-- An operation; without a target it is declared and has no rule. -/
structure OperationDocument where
  name : String
  target : Option String
  rejectedFrom : List String
  deriving DecidableEq

inductive FallbackKind where
  | accept
  | preserve
  | reject
  deriving DecidableEq

structure FallbackDocument where
  policy : FallbackKind
  target : Option String
  deriving DecidableEq

structure ProtocolDocument where
  name : String
  trackedType : Option String
  initial : String
  /-- The states that may be used; without a list all names may. -/
  states : Option (List String)
  operations : List OperationDocument
  fallback : Option FallbackDocument
  deriving DecidableEq

/-- The states that an operation names by itself: its target first, then those it is refused from. -/
def OperationDocument.mentioned (o : OperationDocument) : List State :=
  match o.target with
  | none => []
  | some target => (Tracked.ofTarget target).known?.toList ++ o.rejectedFrom.map State.mk

def OperationDocument.addTo (o : OperationDocument) (p : Protocol) : Protocol :=
  match o.target with
  | none => p.declareAction ⟨o.name⟩
  | some target =>
    p.addOperation ⟨o.name⟩ (Tracked.ofTarget target) (o.rejectedFrom.map State.mk)

/-- The fallback that is meant; accepted calls lead to the unknown state if no target is given. -/
def FallbackDocument.meaning (f : FallbackDocument) : Fallback :=
  match f.policy with
  | .accept => .accept ((f.target.map Tracked.ofTarget).getD .unknown)
  | .preserve => .preserve
  | .reject => .reject

namespace ProtocolDocument

/-- The protocol that a document describes, sound or not. -/
def describe (d : ProtocolDocument) : Protocol :=
  let named := (Protocol.empty d.name).withTrackedType (d.trackedType.getD d.name)
  let listed := (d.states.getD []).foldl (fun p s => p.addState ⟨s⟩) named
  let operations := d.operations.foldl (fun p o => o.addTo p) (listed.setInitial ⟨d.initial⟩)
  match d.fallback with
  | none => operations
  | some f => operations.setFallback f.meaning

/-- The faults of using states that are not listed. -/
def unlisted (d : ProtocolDocument) (use : StateUse) (used : List State) : List Fault :=
  match d.states with
  | none => []
  | some names => (used.filter (·.name ∉ names)).map (.undeclaredState · use)

/-- The faults of operations, `earlier` being the names of those before them. -/
def operationFaults (d : ProtocolDocument) (earlier : List String) :
    List OperationDocument → List Fault
  | [] => []
  | o :: rest =>
    (if o.name ∈ earlier then [.duplicateOperation ⟨o.name⟩] else [])
      ++ d.unlisted (.rule ⟨o.name⟩) o.mentioned
      ++ d.operationFaults (o.name :: earlier) rest

/-- The faults of a document itself, in the order of its parts. -/
def faults (d : ProtocolDocument) : List Fault :=
  d.unlisted .initialState [⟨d.initial⟩]
    ++ d.operationFaults [] d.operations
    ++ d.unlisted .fallback ((d.fallback.bind fun f => f.meaning.target?).toList)

/-- The protocol of a document without faults, if it is valid. -/
def build (d : ProtocolDocument) : Except Fault Protocol :=
  match d.faults with
  | f :: _ => .error f
  | [] => do
    d.describe.validate
    return d.describe

end ProtocolDocument

variable {V : Type} [Format V]

namespace OperationDocument

def schema : Schema :=
  ⟨[.always "name", .optional "to", .optional "rejected_from"], false⟩

def read? (v : V) : Option OperationDocument := do
  let r ← schema.read? v
  return {
    name := ← r.required "name" Format.text?
    target := ← r.nullable "to" Format.text?
    rejectedFrom := ← r.defaulted "rejected_from" (Format.list? Format.text?) [] }

def toJson (o : OperationDocument) : Json :=
  .obj [("name", .str o.name), ("to", .ofOption .str o.target),
    ("rejected_from", .arr (o.rejectedFrom.map .str))]

end OperationDocument

namespace FallbackKind

def read? (v : V) : Option FallbackKind :=
  match Format.bareVariant? v with
  | some "accept" => some accept
  | some "preserve" => some preserve
  | some "reject" => some reject
  | _ => none

def toJson : FallbackKind → Json
  | accept => .str "accept"
  | preserve => .str "preserve"
  | reject => .str "reject"

end FallbackKind

namespace FallbackDocument

def schema : Schema :=
  ⟨[.always "policy", .optional "to"], false⟩

def read? (v : V) : Option FallbackDocument := do
  let r ← schema.read? v
  return ⟨← r.required "policy" FallbackKind.read?, ← r.nullable "to" Format.text?⟩

def toJson (f : FallbackDocument) : Json :=
  .obj [("policy", f.policy.toJson), ("to", .ofOption .str f.target)]

end FallbackDocument

namespace ProtocolDocument

def schema : Schema :=
  ⟨[.always "protocol", .optional "tracked_type", .always "initial_state", .optional "states",
    .always "operations", .optional "fallback"], false⟩

def read? (v : V) : Option ProtocolDocument := do
  let r ← schema.read? v
  return {
    name := ← r.required "protocol" Format.text?
    trackedType := ← r.nullable "tracked_type" Format.text?
    initial := ← r.required "initial_state" Format.text?
    states := ← r.nullable "states" (Format.list? Format.text?)
    operations := ← r.required "operations" (Format.list? OperationDocument.read?)
    fallback := ← r.nullable "fallback" FallbackDocument.read? }

def toJson (d : ProtocolDocument) : Json :=
  .obj [("protocol", .str d.name), ("tracked_type", .ofOption .str d.trackedType),
    ("initial_state", .str d.initial),
    ("states", .ofOption (fun names => .arr (names.map .str)) d.states),
    ("operations", .arr (d.operations.map OperationDocument.toJson)),
    ("fallback", .ofOption FallbackDocument.toJson d.fallback)]

end ProtocolDocument

end Typestate

import Typestate.Call

/-!
Violations: calls that a protocol refuses in the state in which their handle is.
-/

namespace Typestate

/-- A refused call: where it stands, where it would have led and in which state the handle was. -/
structure Violation where
  handle : Handle
  node : Nat
  span : Option Span
  file : Option String
  action : Action
  attempted : Tracked
  actual : State
  deriving DecidableEq

namespace Violation

def line (v : Violation) : Option UInt32 :=
  v.span.map Span.startLine

/-- What makes two violations the same one. -/
def key (v : Violation) : Handle × Nat × Action :=
  (v.handle, v.node, v.action)

/-- The place of a violation, as exactly as it is known. -/
def location (v : Violation) : String :=
  match v.file, v.span with
  | some file, some span => file ++ ":" ++ span.text
  | some file, none => file
  | none, some span => "Line " ++ span.text
  | none, none => "Node " ++ toString v.node

def message (v : Violation) : String :=
  v.location ++ ": invalid " ++ v.action.text ++ " on '" ++ v.handle.name ++ "': " ++ v.actual.name
    ++ " -> " ++ v.attempted.text ++ " rejected"

end Violation

end Typestate

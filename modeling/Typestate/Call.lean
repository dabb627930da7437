import Typestate.Graph.Basic
import Typestate.State

/-!
Tracked calls. A resolver says which nodes of a procedure call an operation on a tracked object.
-/

namespace Typestate

/-- An operation called on a handle. -/
structure Call where
  handle : Handle
  action : Action
  deriving DecidableEq

def Call.text (c : Call) : String :=
  c.handle.name ++ "." ++ c.action.text

/-- Finds the tracked call of a node. -/
abbrev Resolver := Node → Option Call

namespace Resolver

/-- Tracks the calls that satisfy a condition on the receiver and its type. -/
def whenever (tracked : String → Option String → Bool) : Resolver := fun n =>
  match n.statement with
  | .invoke receiver type method =>
    if tracked receiver type then some ⟨⟨receiver⟩, ⟨method⟩⟩ else none
  | .other _ => none
  | .nop => none

def ofType (type : String) : Resolver :=
  whenever fun _ t => t = some type

def ofReceiver (receiver : String) : Resolver :=
  whenever fun r _ => r = receiver

def all : Resolver :=
  whenever fun _ _ => true

end Resolver

end Typestate

import Typestate.Flow
import Typestate.Protocol.Basic
import Typestate.Violation

/-!
The effect of one node on a flow value. Only a tracked call at a reached node has an effect. If the
state of its handle is unknown the call is not judged; if the protocol accepts the call the handle
moves on; if not, the handle stays where it is and the call is a violation.
-/

namespace Typestate

/-- What is found out about a node. -/
inductive Verdict where
  /-- There is nothing to judge. -/
  | quiet
  | accepted (call : Call)
  /-- The call is not judged, because the state of its handle is unknown. -/
  | suppressed (call : Call)
  | rejected (violation : Violation)
  deriving DecidableEq

namespace Verdict

def violation? : Verdict → Option Violation
  | rejected v => some v
  | quiet | accepted _ | suppressed _ => none

def suppressed? : Verdict → Option Call
  | suppressed c => some c
  | quiet | accepted _ | rejected _ => none

end Verdict

/-- The value after a node and what is found out about it. -/
structure Outcome where
  output : Flow
  verdict : Verdict
  deriving DecidableEq

namespace Protocol

/-- The effect of a call at node number `n` where handles are in the given states. -/
def call (p : Protocol) (n : Nat) (span : Option Span) (c : Call) (states : Assignment) : Outcome :=
  match states.state p.initial c.handle with
  | .unknown => ⟨.reached (states.assign p.initial c.handle .unknown), .suppressed c⟩
  | .known s =>
    let t := p.transition s c.action
    if t.accepted then ⟨.reached (states.assign p.initial c.handle t.next), .accepted c⟩
    else ⟨.reached states, .rejected ⟨c.handle, n, span, none, c.action, t.next, s⟩⟩

/-- The effect of node number `n` on a flow value. -/
def transfer (p : Protocol) (resolve : Resolver) (n : Nat) (node : Node) : Flow → Outcome
  | .unreachable => ⟨.unreachable, .quiet⟩
  | .reached states =>
    match resolve node with
    | none => ⟨.reached states, .quiet⟩
    | some c => p.call n node.span c states

end Protocol

end Typestate

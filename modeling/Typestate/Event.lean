import Typestate.Violation

/-!
Events of an analysis, as written to a log.
-/

namespace Typestate

/-- How much a log shows; each level shows what the levels before it show. -/
inductive Level where
  | warn
  | info
  | debug
  | trace
  deriving DecidableEq

namespace Level

def rank : Level → Nat
  | warn => 0
  | info => 1
  | debug => 2
  | trace => 3

def text : Level → String
  | warn => "WARN"
  | info => "INFO"
  | debug => "DEBUG"
  | trace => "TRACE"

end Level

/-- Something that happens during an analysis. -/
inductive Event where
  | started (procedure : String) (nodes : Nat) (protocol : String)
  | visited (node position handles : Nat)
  | skipped (call : Call) (node : Nat)
  | rejected (violation : Violation)
  /-- A violation is reported to the log. -/
  | reported (violation : Violation)
  | finished (procedure : String) (violations visits ms : Nat)
  | batchFinished (procedures violations : Nat)
  deriving DecidableEq

namespace Event

def level : Event → Level
  | started .. | finished .. | batchFinished .. => .info
  | visited .. => .trace
  | skipped .. | rejected .. => .debug
  | reported .. => .warn

def message : Event → String
  | started procedure nodes protocol =>
    "Typestate analysis: " ++ procedure ++ " (" ++ toString nodes ++ " nodes, protocol " ++ protocol
      ++ ")"
  | visited node position handles =>
    "pop node " ++ toString node ++ " (rpo " ++ toString position ++ "): " ++ toString handles
      ++ " constrained handles in"
  | skipped call node =>
    "Skipped " ++ call.action.text ++ " on '" ++ call.handle.name ++ "' at node " ++ toString node
      ++ ": state Unknown"
  | rejected v => "Rejected transition: " ++ v.message
  | reported v =>
    v.message ++ " handle=" ++ v.handle.name ++ " action=" ++ v.action.text ++ " state="
      ++ v.actual.name
  | finished procedure violations visits ms =>
    "Typestate analysis complete: " ++ procedure ++ " → " ++ toString violations ++ " violations ("
      ++ toString visits ++ " pops, " ++ toString ms ++ " ms)"
  | batchFinished procedures violations =>
    "Checked " ++ toString procedures ++ " procedures: " ++ toString violations ++ " violations"

/-- An event as a line of a log. -/
def line (e : Event) : String :=
  e.level.text ++ " " ++ e.message

/-- The lines that a log of the given level shows. -/
def lines (shown : Level) (events : List Event) : List String :=
  (events.filter fun e => e.level.rank ≤ shown.rank).map line

end Event

end Typestate

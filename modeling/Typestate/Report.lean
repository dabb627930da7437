import Typestate.Transfer

/-!
Reports: what the analysis of one procedure found.
-/

namespace Typestate

/-- Counts of what an analysis did and met. -/
structure Stats where
  worklistPops : Nat
  transferApplications : Nat
  trackedHandles : Nat
  nodes : Nat
  reachableNodes : Nat
  suppressedCalls : Nat
  analysisTimeMs : Nat
  deriving DecidableEq

/-- The states before and after a reached node. -/
structure NodeFlow where
  node : Nat
  line : Option UInt32
  input : Assignment
  output : Assignment
  deriving DecidableEq

/-- The result of analysing one procedure. -/
structure Report where
  procedure : String
  violations : List Violation
  stats : Stats
  /-- The values at the reached nodes, if they were kept. -/
  flows : Option (List NodeFlow)
  deriving DecidableEq

namespace Report

def hasViolations (r : Report) : Bool :=
  !r.violations.isEmpty

def flow? (r : Report) (n : Nat) : Option NodeFlow :=
  r.flows.bind fun flows => flows.find? fun f => f.node = n

/-- The states before a node, if they were kept and the node is reached. -/
def before? (r : Report) (n : Nat) : Option Assignment :=
  (r.flow? n).map NodeFlow.input

/-- The states after a node, if they were kept and the node is reached. -/
def after? (r : Report) (n : Nat) : Option Assignment :=
  (r.flow? n).map NodeFlow.output

end Report

end Typestate

import Typestate.Violation

/-!
A collector keeps the violations that are reported to it until they are taken out.
-/

namespace Typestate

/-- Violations received and not yet taken out, in the order of arrival. -/
structure Collector where
  received : List Violation
  deriving DecidableEq

namespace Collector

def empty : Collector :=
  ⟨[]⟩

def size (c : Collector) : Nat :=
  c.received.length

def isEmpty (c : Collector) : Bool :=
  c.received.isEmpty

def report (c : Collector) (v : Violation) : Collector :=
  ⟨c.received ++ [v]⟩

def reportAll (c : Collector) (vs : List Violation) : Collector :=
  vs.foldl report c

def snapshot (c : Collector) : List Violation :=
  c.received

def drain (c : Collector) : List Violation × Collector :=
  (c.received, empty)

end Collector

end Typestate

import Typestate.State

/-!
Dataflow values. An assignment gives states to handles, and every handle that it does not name is
in the initial state of the protocol; it is canonical if it names no handle in the initial state.
A flow value is an assignment at a point that is reached, or says that the point is not reached.
`Flow.join` is the least upper bound of the order that puts the unreachable value below all
others and orders assignments handle by handle.
-/

namespace Typestate

/-- States of handles, sparsely: a handle that is absent is in the initial state. -/
abbrev Assignment := Std.ExtTreeMap Handle Tracked

namespace Assignment

def state (initial : State) (m : Assignment) (h : Handle) : Tracked :=
  m.getD h (.known initial)

/-- Gives a handle its state; the initial state is not stored. -/
def assign (initial : State) (m : Assignment) (h : Handle) (s : Tracked) : Assignment :=
  if s = .known initial then m.erase h else m.insert h s

/-- Drops the handles that are in the initial state. -/
def normalize (initial : State) (m : Assignment) : Assignment :=
  m.filter fun _ s => s ≠ .known initial

/-- Two assignments joined handle by handle. -/
def join (initial : State) (m n : Assignment) : Assignment :=
  (m.keys ++ n.keys).foldl
    (fun r h => r.assign initial h ((m.state initial h).join (n.state initial h))) ∅

/-- No handle is stored in the initial state. -/
def Canonical (initial : State) (m : Assignment) : Prop :=
  ∀ h : Handle, m[h]? ≠ some (.known initial)

end Assignment

/-- What an analysis knows at a point of a procedure. -/
inductive Flow where
  /-- No execution gets there. -/
  | unreachable
  /-- Handles are in the given states there. -/
  | reached (states : Assignment)
  deriving DecidableEq

namespace Flow

/-- The value at the entry of a procedure that is entered with the given states. -/
def entry (initial : State) (seed : Assignment) : Flow :=
  .reached (seed.normalize initial)

/-- The value after two paths meet. -/
def join (initial : State) : Flow → Flow → Flow
  | unreachable, y => y
  | x, unreachable => x
  | reached m, reached n => .reached (m.join initial n)

def states? : Flow → Option Assignment
  | unreachable => none
  | reached m => some m

def handles : Flow → List Handle
  | unreachable => []
  | reached m => m.keys

/-- The value stores no handle in the initial state. -/
def Canonical (initial : State) : Flow → Prop
  | unreachable => True
  | reached m => m.Canonical initial

/-- The order of information: joining adds nothing. -/
def Le (initial : State) (x y : Flow) : Prop :=
  x.join initial y = y

end Flow

end Typestate

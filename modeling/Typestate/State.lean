import Std.Data.ExtTreeMap
import Std.Data.ExtTreeSet

/-!
Names of the domain. States and actions belong to a protocol and handles to a procedure; each is
identified by its name, and names are ordered by code point. A tracked state is what an analysis
knows of one handle: its state, or nothing.
-/

namespace Typestate

structure State where
  name : String
  deriving DecidableEq

/-- An operation that can be called on a handle. -/
structure Action where
  name : String
  deriving DecidableEq

/-- A tracked object of a procedure. -/
structure Handle where
  name : String
  deriving DecidableEq

namespace State

instance : Ord State := ⟨compareOn name⟩

instance : Std.TransOrd State := inferInstanceAs (Std.TransCmp (compareOn name))

instance : Std.LawfulEqOrd State where
  eq_of_compare {a b} (h : compare a.name b.name = .eq) :=
    congrArg State.mk (Std.LawfulEqCmp.eq_of_compare h)

/-- The names that mean "unknown", in any ASCII case, cannot name a state. -/
def isReserved (s : State) : Bool :=
  s.name.toLower = "unknown"

end State

namespace Action

instance : Ord Action := ⟨compareOn name⟩

instance : Std.TransOrd Action := inferInstanceAs (Std.TransCmp (compareOn name))

instance : Std.LawfulEqOrd Action where
  eq_of_compare {a b} (h : compare a.name b.name = .eq) :=
    congrArg Action.mk (Std.LawfulEqCmp.eq_of_compare h)

/-- An action is shown as a call without arguments. -/
def text (a : Action) : String :=
  a.name ++ "()"

end Action

namespace Handle

instance : Ord Handle := ⟨compareOn name⟩

instance : Std.TransOrd Handle := inferInstanceAs (Std.TransCmp (compareOn name))

instance : Std.LawfulEqOrd Handle where
  eq_of_compare {a b} (h : compare a.name b.name = .eq) :=
    congrArg Handle.mk (Std.LawfulEqCmp.eq_of_compare h)

end Handle

/-- What is known of the state of a handle. -/
inductive Tracked where
  | known (state : State)
  | unknown
  deriving DecidableEq

namespace Tracked

def known? : Tracked → Option State
  | known s => some s
  | unknown => none

def isUnknown : Tracked → Bool
  | known _ => false
  | unknown => true

def text : Tracked → String
  | known s => s.name
  | unknown => "Unknown"

/-- The state that a target name stands for: reserved names stand for the unknown state. -/
def ofTarget (name : String) : Tracked :=
  if (State.mk name).isReserved then unknown else known ⟨name⟩

/-- Two values agree or nothing is known: the join of the flat order. -/
def join (s t : Tracked) : Tracked :=
  if s = t then s else unknown

end Tracked

end Typestate

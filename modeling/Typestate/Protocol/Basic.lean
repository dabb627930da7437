import Typestate.State

/-!
Typestate protocols. A protocol names its states, says in which one a handle starts, gives a rule
to each operation it knows and a fallback to all others. The main operation is
`Protocol.transition`; the others build a protocol step by step.
-/

namespace Typestate

/-- The rule of an operation: where it leads and from which states it is refused. -/
structure Rule where
  target : Tracked
  rejectedFrom : Std.ExtTreeSet State
  deriving DecidableEq

/-- What happens on an operation that has no rule. -/
inductive Fallback where
  /-- The call is accepted and leads to the given state. -/
  | accept (target : Tracked)
  /-- The call is accepted and the state stays as it is. -/
  | preserve
  /-- The call is refused. -/
  | reject
  deriving DecidableEq

/-- The state that a fallback leads to by name. -/
def Fallback.target? : Fallback → Option State
  | accept target => target.known?
  | preserve => none
  | reject => none

/-- The answer of a protocol to a call: whether it is allowed and where it leads. -/
structure Transition where
  accepted : Bool
  next : Tracked
  deriving DecidableEq

/-- A typestate protocol for the objects of one type. -/
structure Protocol where
  name : String
  trackedType : String
  states : Std.ExtTreeSet State
  initial : State
  rules : Std.ExtTreeMap Action Rule
  declared : Std.ExtTreeSet Action
  fallback : Fallback
  deriving DecidableEq

namespace Protocol

/-- The protocol without states and rules: its initial state is named but not yet declared, and
any operation leads to the unknown state. -/
def empty (name : String) : Protocol where
  name := name
  trackedType := name
  states := ∅
  initial := ⟨"Initial"⟩
  rules := ∅
  declared := ∅
  fallback := .accept .unknown

def withTrackedType (p : Protocol) (type : String) : Protocol :=
  { p with trackedType := type }

def addState (p : Protocol) (s : State) : Protocol :=
  { p with states := p.states.insert s }

/-- Sets the initial state and declares it. -/
def setInitial (p : Protocol) (s : State) : Protocol :=
  { p.addState s with initial := s }

/-- Declares an operation without giving it a rule. -/
def declareAction (p : Protocol) (a : Action) : Protocol :=
  { p with declared := p.declared.insert a }

/-- Gives an operation its rule, in place of an earlier one, and declares the operation and each
state that the rule names. -/
def addOperation (p : Protocol) (a : Action) (target : Tracked) (rejectedFrom : List State) :
    Protocol :=
  let mentioned := target.known?.toList ++ rejectedFrom
  { p with
    states := p.states.insertMany mentioned
    declared := p.declared.insert a
    rules := p.rules.insert a ⟨target, .ofList rejectedFrom⟩ }

def setFallback (p : Protocol) (f : Fallback) : Protocol :=
  { p with fallback := f }

/-- The answer of the protocol to calling `a` on a handle in state `s`. -/
def transition (p : Protocol) (s : State) (a : Action) : Transition :=
  match p.rules[a]? with
  | some rule => ⟨!rule.rejectedFrom.contains s, rule.target⟩
  | none =>
    match p.fallback with
    | .accept target => ⟨true, target⟩
    | .preserve => ⟨true, .known s⟩
    | .reject => ⟨false, .unknown⟩

end Protocol

end Typestate

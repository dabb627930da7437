import Typestate.Protocol.Basic

/-!
Faults of a protocol. A protocol is valid if no state has a reserved name, every state in use is
declared and every declared operation has a rule. `Protocol.faults` lists all that is wrong in the
order in which it is looked for, and `Protocol.validate` refuses a protocol with its first fault.
-/

namespace Typestate

inductive StateUse where
  | initialState
  | rule (action : Action)
  | fallback
  deriving DecidableEq

def StateUse.text : StateUse → String
  | initialState => "the initial state"
  | rule a => "the rule for '" ++ a.name ++ "'"
  | fallback => "the fallback policy"

/-- Why something is no protocol. -/
inductive Fault where
  | undeclaredState (state : State) (use : StateUse)
  | missingRule (action : Action)
  | duplicateOperation (action : Action)
  | reservedState (state : State)
  /-- The text to be read has not the form of a protocol. -/
  | malformed (cause : String)
  deriving DecidableEq

def Fault.message : Fault → String
  | undeclaredState s use =>
    "Protocol error: state '" ++ s.name ++ "' used in " ++ use.text ++ " is not declared"
  | missingRule a => "Protocol error: declared operation '" ++ a.name ++ "' has no transition rule"
  | duplicateOperation a => "Protocol error: operation '" ++ a.name ++ "' is defined more than once"
  | reservedState s => "Protocol error: state name '" ++ s.name ++ "' is reserved"
  | malformed cause => "Protocol syntax error: " ++ cause

/-- The states that a rule names: its target first, then those it refuses. -/
def Rule.mentioned (r : Rule) : List State :=
  r.target.known?.toList ++ r.rejectedFrom.toList

namespace Protocol

/-- The faults of using states that the protocol does not declare. -/
def undeclared (p : Protocol) (use : StateUse) (used : List State) : List Fault :=
  (used.filter (!p.states.contains ·)).map (.undeclaredState · use)

/-- All faults of a protocol, names in order. -/
def faults (p : Protocol) : List Fault :=
  (p.states.toList.filter State.isReserved).map .reservedState
    ++ p.undeclared .initialState [p.initial]
    ++ p.rules.toList.flatMap (fun (a, r) => p.undeclared (.rule a) r.mentioned)
    ++ p.undeclared .fallback p.fallback.target?.toList
    ++ (p.declared.toList.filter (!p.rules.contains ·)).map .missingRule

/-- Accepts a protocol without faults, else answers the first one. -/
def validate (p : Protocol) : Except Fault Unit :=
  match p.faults with
  | [] => .ok ()
  | f :: _ => .error f

end Protocol

end Typestate

import Typestate.Protocol.Fault

/-!
Building a protocol call by call, with names for states and operations. A builder starts from the
empty protocol and gives out what it has built only if that is valid.
-/

namespace Typestate

/-- A protocol that is being built. -/
structure Builder where
  protocol : Protocol
  deriving DecidableEq

namespace Builder

def ofName (name : String) : Builder :=
  ⟨.empty name⟩

def trackedType (b : Builder) (type : String) : Builder :=
  ⟨b.protocol.withTrackedType type⟩

def initialState (b : Builder) (name : String) : Builder :=
  ⟨b.protocol.setInitial ⟨name⟩⟩

/-- Gives an operation its rule; the target may be the unknown state. -/
def operation (b : Builder) (name target : String) (rejectedFrom : List String) : Builder :=
  ⟨b.protocol.addOperation ⟨name⟩ (.ofTarget target) (rejectedFrom.map State.mk)⟩

def fallback (b : Builder) (f : Fallback) : Builder :=
  ⟨b.protocol.setFallback f⟩

def build (b : Builder) : Except Fault Protocol := do
  b.protocol.validate
  return b.protocol

end Builder

end Typestate

import Typestate.Protocol.Basic

/-!
Standard protocols, ready for use: a pet, which is also the protocol in force where none is
given, a lock and a file.
-/

namespace Typestate.Protocol

/-- A pet dislikes to be petted while it runs or plays, and wants to be fed or scared before it is
teased or ignored. Any other operation makes its mood unknown. -/
def pet : Protocol :=
  (empty "Pet")
    |>.setInitial ⟨"Sleeping"⟩
    |>.addOperation ⟨"pet"⟩ (.known ⟨"Sleeping"⟩) [⟨"Running"⟩, ⟨"Playing"⟩]
    |>.addOperation ⟨"feed"⟩ (.known ⟨"Eating"⟩) []
    |>.addOperation ⟨"tease"⟩ (.known ⟨"Playing"⟩) [⟨"Sleeping"⟩, ⟨"Eating"⟩]
    |>.addOperation ⟨"ignore"⟩ (.known ⟨"Plotting"⟩) [⟨"Sleeping"⟩, ⟨"Eating"⟩, ⟨"Playing"⟩]
    |>.addOperation ⟨"scare"⟩ (.known ⟨"Running"⟩) []
    |>.setFallback (.accept .unknown)

/-- A lock is not acquired twice nor released twice; other operations leave it alone. -/
def lock : Protocol :=
  (empty "Lock")
    |>.setInitial ⟨"Unlocked"⟩
    |>.addOperation ⟨"acquire"⟩ (.known ⟨"Locked"⟩) [⟨"Locked"⟩]
    |>.addOperation ⟨"release"⟩ (.known ⟨"Unlocked"⟩) [⟨"Unlocked"⟩]
    |>.setFallback .preserve

/-- The operations that need an open file. -/
def fileAccesses : List Action :=
  [⟨"read"⟩, ⟨"write"⟩, ⟨"readline"⟩, ⟨"seek"⟩, ⟨"flush"⟩]

/-- A file is used only between opening and closing; other operations leave it alone. -/
def file : Protocol :=
  let opened := (empty "File")
    |>.setInitial ⟨"Closed"⟩
    |>.addOperation ⟨"open"⟩ (.known ⟨"Open"⟩) [⟨"Open"⟩]
  let used := fileAccesses.foldl (fun p a => p.addOperation a (.known ⟨"Open"⟩) [⟨"Closed"⟩]) opened
  used
    |>.addOperation ⟨"close"⟩ (.known ⟨"Closed"⟩) [⟨"Closed"⟩]
    |>.setFallback .preserve

end Typestate.Protocol

/-!
Settings of a checker.
-/

namespace Typestate

structure Settings where
  /-- Whether a report keeps the values before and after each node. -/
  keepFlowStates : Bool := false
  /-- Whether a batch may be spread over several threads. -/
  parallel : Bool := true
  /-- From how many procedures on a batch is spread. -/
  minParallelBatch : Nat := 4
  deriving DecidableEq

/-- A number that is out of its range. -/
structure RangeFault where
  field : String
  value : Nat
  min : Nat
  max : Nat
  hint : String
  deriving DecidableEq

def RangeFault.message (f : RangeFault) : String :=
  "Invalid range for field '" ++ f.field ++ "': " ++ toString f.value ++ " not in "
    ++ toString f.min ++ "..=" ++ toString f.max ++ ". " ++ f.hint

namespace Settings

/-- Refuses a batch size that is out of its range. -/
def validate (s : Settings) : Except RangeFault Unit :=
  if 1 ≤ s.minParallelBatch ∧ s.minParallelBatch ≤ 10000 then .ok ()
  else .error ⟨"min_parallel_batch", s.minParallelBatch, 1, 10000,
    "Batches smaller than this run on the calling thread"⟩

end Settings

end Typestate

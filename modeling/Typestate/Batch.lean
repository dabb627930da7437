import Typestate.Checker

/-!
Batches in progress. Each procedure of a batch has a worker, and the workers share a collector.
A worker goes through the findings of its procedure and reports each violation to the collector as
it puts it into its own report. A batch that is spread over threads lets any worker go on at any
time; in one that is not, a worker starts when those before it are done. Meanwhile another party
may empty the collector.
-/

namespace Typestate

/-- Whether a batch of the given size is spread over several threads. -/
def Settings.spreads (s : Settings) (size : Nat) : Bool :=
  s.parallel && s.minParallelBatch ≤ size

/-- Puts a violation at the end of a report. -/
def Report.record (r : Report) (v : Violation) : Report :=
  { r with violations := r.violations ++ [v] }

/-- A procedure that is being checked: its report so far, and the findings still to be gone
through. -/
structure Worker where
  file : Option String
  report : Report
  pending : List Finding
  deriving DecidableEq

namespace Worker

/-- A worker whose procedure is analysed and of whose findings none is gone through. -/
def start (c : Checker) (g : Graph) : Worker :=
  let a := c.analyze g ∅
  ⟨g.file, { a.report with violations := [] }, a.findings⟩

def isDone (w : Worker) : Bool :=
  w.pending.isEmpty

/-- Goes through a finding, after which the given ones are left. -/
def pass (w : Worker) (f : Finding) (rest : List Finding) : Worker :=
  ⟨w.file, Checker.reportFinding Report.record w.file w.report f, rest⟩

end Worker

structure Batch where
  /-- The workers, in the order of the procedures. -/
  workers : List Worker
  sink : Collector
  /-- What has been taken out of the collector, in the order of arrival. -/
  drained : List Violation
  deriving DecidableEq

namespace Batch

/-- What can happen next. -/
inductive Move where
  /-- A worker goes through its next finding. -/
  | advance (worker : Nat)
  /-- The collector is emptied. -/
  | drain
  deriving DecidableEq

def start (c : Checker) (gs : List Graph) (sink : Collector) : Batch :=
  ⟨gs.map (Worker.start c), sink, []⟩

/-- Whether it is the turn of a worker. -/
def mayAdvance (spread : Bool) (b : Batch) (i : Nat) : Bool :=
  spread || (b.workers.take i).all Worker.isDone

/-- Makes a move, if it is possible. -/
def step (spread : Bool) (b : Batch) : Move → Option Batch
  | .drain =>
    let (taken, sink) := b.sink.drain
    some { b with sink := sink, drained := b.drained ++ taken }
  | .advance i => do
    let w ← b.workers[i]?
    match w.pending with
    | [] => none
    | f :: rest =>
      if b.mayAdvance spread i then
        some { b with
          workers := b.workers.set i (w.pass f rest)
          sink := Checker.reportFinding Collector.report w.file b.sink f }
      else none

def run (spread : Bool) (b : Batch) (moves : List Move) : Option Batch :=
  moves.foldlM (step spread) b

def isDone (b : Batch) : Bool :=
  b.workers.all Worker.isDone

def reports (b : Batch) : List Report :=
  b.workers.map Worker.report

end Batch

end Typestate

import Typestate.Collector
import Typestate.Dataflow
import Typestate.Event
import Typestate.Graph.Order
import Typestate.Protocol.Fault
import Typestate.Report
import Typestate.Settings

/-!
The checker. It solves the dataflow equations of a procedure and then judges every node that the
entry leads to, in reverse postorder, on the value before it; what these judgements reject is
reported.
-/

namespace Typestate

/-- A protocol to be checked on the calls that a resolver finds. -/
structure Checker where
  protocol : Protocol
  resolve : Resolver
  settings : Settings := {}

/-- A node that the entry leads to, with the value before it and the outcome. -/
structure Finding where
  node : Nat
  content : Node
  input : Flow
  outcome : Outcome
  deriving DecidableEq

/-- A procedure analysed: the visits of the worklist and the findings, both in order. -/
structure Analysis where
  visits : List (Dataflow.Visit Flow)
  findings : List Finding
  report : Report

namespace Checker

/-- A checker for a valid protocol. -/
def withResolver (p : Protocol) (resolve : Resolver) : Except Fault Checker := do
  p.validate
  return { protocol := p, resolve := resolve }

/-- A checker that tracks the calls on receivers of the protocol's type. -/
def ofProtocol (p : Protocol) : Except Fault Checker :=
  withResolver p (.ofType p.trackedType)

def withSettings (c : Checker) (s : Settings) : Checker :=
  { c with settings := s }

/-- The effect of a node; a number that belongs to no node has none. -/
def outcome (c : Checker) (g : Graph) (n : Nat) (x : Flow) : Outcome :=
  match g.nodes[n]? with
  | none => ⟨x, .quiet⟩
  | some node => c.protocol.transfer c.resolve n node x

/-- The dataflow equations of a procedure that is entered with the given states. -/
def problem (c : Checker) (g : Graph) (seed : Assignment) : Dataflow.Problem Flow where
  size := g.size
  order := g.schedule
  predecessors := g.predecessors
  successors := g.successors
  bottom := .unreachable
  join := Flow.join c.protocol.initial
  source n := if g.entry = some n then Flow.entry c.protocol.initial seed else .unreachable
  transfer n x := (c.outcome g n x).output

/-- More steps than any procedure takes: each node is visited once, and each change of a value
makes the ends of its edges pending again. A value changes once when it is reached and then at most
once for each handle, and there are no more handles than nodes. -/
def stepLimit (g : Graph) : Nat :=
  g.size + (1 + g.size) * g.edges.size

def solve (c : Checker) (g : Graph) (seed : Assignment) : Dataflow.Progress Flow :=
  let P := c.problem g seed
  P.run (stepLimit g) P.start

/-- The judgements on the nodes that the entry leads to. -/
def findings (c : Checker) (g : Graph) (inputs : Array Flow) : List Finding :=
  g.reversePostorder.filterMap fun n =>
    g.nodes[n]?.map fun node =>
      let input := inputs.getD n .unreachable
      ⟨n, node, input, c.outcome g n input⟩

def violations (file : Option String) (fs : List Finding) : List Violation :=
  fs.filterMap fun f => f.outcome.verdict.violation?.map fun v => { v with file := file }

/-- The handles on which tracked calls were found. -/
def handles (c : Checker) (fs : List Finding) : Std.ExtTreeSet Handle :=
  .ofList (fs.filterMap fun f => (c.resolve f.content).map Call.handle)

def nodeFlow (f : Finding) : NodeFlow where
  node := f.node
  line := f.content.line
  input := f.input.states?.getD ∅
  output := f.outcome.output.states?.getD ∅

def analyze (c : Checker) (g : Graph) (seed : Assignment) : Analysis :=
  let solution := c.solve g seed
  let fs := c.findings g solution.inputs
  { visits := solution.visits.reverse
    findings := fs
    report :=
      { procedure := g.name
        violations := violations g.file fs
        stats :=
          { worklistPops := solution.visits.length
            transferApplications := solution.visits.length + fs.length
            trackedHandles := (c.handles fs).size
            nodes := g.size
            reachableNodes := g.reversePostorder.length
            suppressedCalls := (fs.filterMap fun f => f.outcome.verdict.suppressed?).length
            analysisTimeMs := 0 }
        flows := if c.settings.keepFlowStates then some (fs.map nodeFlow) else none } }

def check (c : Checker) (g : Graph) (seed : Assignment) : Report :=
  (c.analyze g seed).report

/-- The events of judging a node; `logged` says whether violations are reported to the log. -/
def findingEvents (file : Option String) (logged : Bool) (f : Finding) : List Event :=
  match f.outcome.verdict with
  | .quiet => []
  | .accepted _ => []
  | .suppressed call => [.skipped call f.node]
  | .rejected v =>
    let v := { v with file := file }
    if logged then [.rejected v, .reported v] else [.rejected v]

def events (c : Checker) (g : Graph) (a : Analysis) (logged : Bool) : List Event :=
  let r := a.report
  [.started g.name g.size c.protocol.name]
    ++ a.visits.map (fun v => .visited v.node v.position v.input.handles.length)
    ++ a.findings.flatMap (findingEvents g.file logged)
    ++ [.finished g.name r.violations.length r.stats.worklistPops r.stats.analysisTimeMs]

/-- The reports on a batch of procedures, in their order. -/
def checkAll (c : Checker) (gs : List Graph) : List Report :=
  gs.map fun g => c.check g ∅

/-- Reports the violation of a finding, if there is one, placed in a file; `report` says what a
receiver does with a violation. -/
def reportFinding {σ : Type} (report : σ → Violation → σ) (file : Option String) (receiver : σ)
    (f : Finding) : σ :=
  match f.outcome.verdict.violation? with
  | none => receiver
  | some v => report receiver { v with file := file }

/-- Checks a procedure and reports every violation as soon as its node is judged. -/
def checkReporting {σ : Type} (c : Checker) (report : σ → Violation → σ) (g : Graph)
    (seed : Assignment) (receiver : σ) : Report × σ :=
  let a := c.analyze g seed
  (a.report, a.findings.foldl (reportFinding report g.file) receiver)

def checkInto (c : Checker) (g : Graph) (seed : Assignment) (sink : Collector) :
    Report × Collector :=
  c.checkReporting Collector.report g seed sink

def checkAllInto (c : Checker) (gs : List Graph) (sink : Collector) : List Report × Collector :=
  let rs := c.checkAll gs
  (rs, rs.foldl (fun s r => s.reportAll r.violations) sink)

def violationCount (rs : List Report) : Nat :=
  (rs.flatMap Report.violations).length

/-- The events of a batch whose procedures are analysed one after the other; the end of the batch
is an event only if its violations are `reported`. -/
def batchEvents (c : Checker) (gs : List Graph) (reported : Bool) : List Event :=
  let analyses := gs.map fun g => (g, c.analyze g ∅)
  let reports := analyses.map fun (_, a) => a.report
  (analyses.flatMap fun (g, a) => c.events g a false)
    ++ if reported then [.batchFinished reports.length (violationCount reports)] else []

end Checker

end Typestate

import Typestate.Codec.Graph
import Typestate.Codec.State
import Typestate.Report

/-!
Violations and reports in documents.
-/

namespace Typestate

variable {V : Type} [Format V]

namespace Violation

def schema : Schema :=
  ⟨[.always "handle", .always "node", .always "span", .optional "file", .always "action",
    .always "attempted_state", .always "actual_state"], true⟩

def read? (v : V) : Option Violation := do
  let r ← schema.read? v
  return {
    handle := ← r.required "handle" Handle.read?
    node := ← r.required "node" Format.natural?
    span := ← r.nullable "span" Span.read?
    file := ← r.nullable "file" Format.text?
    action := ← r.required "action" Action.read?
    attempted := ← r.required "attempted_state" Tracked.read?
    actual := ← r.required "actual_state" State.read? }

def toJson (v : Violation) : Json :=
  .obj ([("handle", v.handle.toJson), ("node", .nat v.node), ("span", .ofOption Span.toJson v.span)]
    ++ Json.fieldOf "file" .str v.file
    ++ [("action", v.action.toJson), ("attempted_state", v.attempted.toJson),
      ("actual_state", v.actual.toJson)])

end Violation

namespace Stats

def schema : Schema :=
  ⟨[.always "worklist_pops", .always "transfer_applications", .always "tracked_handles",
    .always "nodes", .always "reachable_nodes", .always "suppressed_calls",
    .always "analysis_time_ms"], true⟩

def read? (v : V) : Option Stats := do
  let r ← schema.read? v
  return {
    worklistPops := ← r.required "worklist_pops" Format.natural?
    transferApplications := ← r.required "transfer_applications" Format.natural?
    trackedHandles := ← r.required "tracked_handles" Format.natural?
    nodes := ← r.required "nodes" Format.natural?
    reachableNodes := ← r.required "reachable_nodes" Format.natural?
    suppressedCalls := ← r.required "suppressed_calls" Format.natural?
    analysisTimeMs := ← r.required "analysis_time_ms" Format.natural? }

def toJson (s : Stats) : Json :=
  .obj [("worklist_pops", .nat s.worklistPops),
    ("transfer_applications", .nat s.transferApplications),
    ("tracked_handles", .nat s.trackedHandles), ("nodes", .nat s.nodes),
    ("reachable_nodes", .nat s.reachableNodes), ("suppressed_calls", .nat s.suppressedCalls),
    ("analysis_time_ms", .nat s.analysisTimeMs)]

end Stats

namespace NodeFlow

def schema : Schema :=
  ⟨[.always "node", .optional "line", .always "input", .always "output"], true⟩

def read? (v : V) : Option NodeFlow := do
  let r ← schema.read? v
  return {
    node := ← r.required "node" Format.natural?
    line := ← r.nullable "line" Format.word?
    input := ← r.required "input" Assignment.read?
    output := ← r.required "output" Assignment.read? }

def toJson (f : NodeFlow) : Json :=
  .obj [("node", .nat f.node), ("line", .ofOption .ofWord f.line),
    ("input", Assignment.toJson f.input), ("output", Assignment.toJson f.output)]

end NodeFlow

namespace Report

def schema : Schema :=
  ⟨[.always "procedure", .always "violations", .always "stats", .optional "flow_states"], true⟩

def read? (v : V) : Option Report := do
  let r ← schema.read? v
  return {
    procedure := ← r.required "procedure" Format.text?
    violations := ← r.required "violations" (Format.list? Violation.read?)
    stats := ← r.required "stats" Stats.read?
    flows := ← r.nullable "flow_states" (Format.list? NodeFlow.read?) }

def toJson (r : Report) : Json :=
  .obj ([("procedure", .str r.procedure), ("violations", .arr (r.violations.map Violation.toJson)),
      ("stats", r.stats.toJson)]
    ++ Json.fieldOf "flow_states" (fun flows => .arr (flows.map NodeFlow.toJson)) r.flows)

end Report

end Typestate

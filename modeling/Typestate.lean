import Typestate.Ascending
import Typestate.Batch
import Typestate.Call
import Typestate.Checker
import Typestate.Codec.Graph
import Typestate.Codec.Report
import Typestate.Codec.State
import Typestate.Collector
import Typestate.Command.Args
import Typestate.Command.Run
import Typestate.Dataflow
import Typestate.Datum
import Typestate.Document.Config
import Typestate.Document.Graph
import Typestate.Document.Protocol
import Typestate.Document.Text
import Typestate.Double
import Typestate.Error
import Typestate.Event
import Typestate.Flow
import Typestate.Format.Basic
import Typestate.Format.Datum
import Typestate.Format.Json
import Typestate.Format.Yaml
import Typestate.Graph.Basic
import Typestate.Graph.Order
import Typestate.Json.Basic
import Typestate.Json.Numeral
import Typestate.Json.Parser
import Typestate.Json.Printer
import Typestate.Json.Quoted
import Typestate.Json.Token
import Typestate.Main
import Typestate.Proofs.Batch
import Typestate.Proofs.Bound
import Typestate.Proofs.Canonical
import Typestate.Proofs.Chain
import Typestate.Proofs.Codec
import Typestate.Proofs.Construction
import Typestate.Proofs.Dangling
import Typestate.Proofs.Dataflow
import Typestate.Proofs.DeadCode
import Typestate.Proofs.Emission
import Typestate.Proofs.Findings
import Typestate.Proofs.Flow
import Typestate.Proofs.GraphEdits
import Typestate.Proofs.Growth
import Typestate.Proofs.Handles
import Typestate.Proofs.Indexing
import Typestate.Proofs.Inert
import Typestate.Proofs.JsonText
import Typestate.Proofs.Lines
import Typestate.Proofs.Loading
import Typestate.Proofs.Monotone
import Typestate.Proofs.Paths
import Typestate.Proofs.Postorder
import Typestate.Proofs.ProtocolEdits
import Typestate.Proofs.Reach
import Typestate.Proofs.Reached
import Typestate.Proofs.Renumber
import Typestate.Proofs.Resolution
import Typestate.Proofs.Schema
import Typestate.Proofs.Semilattice
import Typestate.Proofs.Solution
import Typestate.Proofs.StateSet
import Typestate.Proofs.Sweep
import Typestate.Proofs.Transfer
import Typestate.Proofs.Validity
import Typestate.Proofs.Verdict
import Typestate.Protocol.Basic
import Typestate.Protocol.Builder
import Typestate.Protocol.Fault
import Typestate.Protocol.Standard
import Typestate.Report
import Typestate.Settings
import Typestate.State
import Typestate.Transfer
import Typestate.Violation
import Typestate.Yaml.Directive
import Typestate.Yaml.Node
import Typestate.Yaml.Scalar
import Typestate.Yaml.Spot
import Typestate.Yaml.Token

import Typestate.Checker
import Typestate.Codec.Report
import Typestate.Command.Args
import Typestate.Document.Config
import Typestate.Document.Graph
import Typestate.Document.Text
import Typestate.Json.Printer

/-!
The command: it loads the configuration and then the graphs, checks them and writes the violations.
If anything cannot be loaded nothing is written but the reason. How files are read and how their
texts are decoded is given to it.
-/

namespace Typestate.Command

structure Outcome where
  exitCode : UInt32
  stdout : String
  stderr : String
  /-- The events of the run that the user wants to see. -/
  log : List String

/-- How files are read: the bytes of a file, or why there are none. -/
abbrev FileReader := String → Except String ByteArray

def readText (read : FileReader) (path : String) : Except String String := do
  match String.fromUTF8? (← read path) with
  | some text => return text
  | none => throw "stream did not contain valid UTF-8"

/-- How the texts of files are decoded. -/
structure Decoders where
  config : Decoder ConfigDocument
  graphs : Decoder GraphFile

/-- The decoders of documents; they refuse YAML with anchors, tags or block scalars. -/
def Decoders.standard : Decoders :=
  ⟨ConfigDocument.ofYaml, GraphFile.ofJson⟩

/-- Loads the configuration, or takes the standard one. -/
def loadConfig (read : FileReader) (decode : Decoder ConfigDocument) :
    Option String → Except ConfigError Config
  | none => return {}
  | some path => do
    let text ← (readText read path).mapError .io
    Config.ofYaml decode text

/-- Loads the graphs of a file; a graph that names no source file gets the path of this one. -/
def loadGraphs (read : FileReader) (decode : Decoder GraphFile) (path : String) :
    Except Error (List Graph) := do
  let text ← (readText read path).mapError .io
  let documents ← GraphDocument.ofFileText decode text
  documents.mapM fun d => { d with file := d.file <|> some path }.toGraph.mapError .graph

/-- Loads all that is needed, the configuration first and then the graphs in order. -/
def load (read : FileReader) (decode : Decoders) (o : Options) :
    Except Error (Checker × List Graph) := do
  let config ← (loadConfig read decode.config o.config).mapError .config
  let graphs ← o.graphs.mapM (loadGraphs read decode.graphs)
  let checker ← (Checker.ofProtocol config.protocol).mapError .protocol
  return (checker.withSettings config.settings, graphs.flatten)

def annotation (v : Violation) : String :=
  let place :=
    match v.line with
    | none => ""
    | some n => ",line=" ++ toString n
  "::error file=" ++ v.file.getD "unknown" ++ place ++ "::" ++ v.message

/-- The lines that are written, in the text and annotation formats. -/
def unlines (ls : List String) : String :=
  String.join (ls.map (· ++ "\n"))

def summary (rs : List Report) : String :=
  toString (Checker.violationCount rs) ++ " violation(s) in " ++ toString rs.length
    ++ " procedure(s)"

def write (rs : List Report) : OutputFormat → String
  | .text => unlines ((rs.flatMap Report.violations).map Violation.message ++ [summary rs])
  | .json => (Json.arr (rs.map Report.toJson)).pretty ++ "\n"
  | .github => unlines ((rs.flatMap Report.violations).map annotation)

def announce (e : Error) : String :=
  (if e.isConfigurationBug then "Configuration error: " else "Error: ") ++ e.message

def logLevel : Nat → Level
  | 0 => .warn
  | 1 => .info
  | 2 => .debug
  | _ => .trace

def check (read : FileReader) (decode : Decoders) (o : Options) : Outcome :=
  match load read decode o with
  | .error e => ⟨2, "", unlines [announce e], []⟩
  | .ok (checker, graphs) =>
    let reports := checker.checkAll graphs
    ⟨if reports.any Report.hasViolations then 1 else 0, write reports o.format, "",
      Event.lines (logLevel o.verbosity) (checker.batchEvents graphs false)⟩

def helpText : String :=
  unlines [
    "Static typestate protocol checker for procedure CFGs",
    "",
    "Usage: typestate-check [OPTIONS] <GRAPHS>...",
    "",
    "Arguments:",
    "  <GRAPHS>...  Procedure graph files (one graph or an array of graphs per file)",
    "",
    "Options:",
    "  -c, --config <CONFIG>  Checker configuration (YAML); defaults to the built-in Pet protocol",
    "  -f, --format <FORMAT>  Output format [default: text] [possible values: text, json, github]",
    "  -v, --verbose...       Verbosity level (-v, -vv, -vvv)",
    "  -h, --help             Print help",
    "  -V, --version          Print version"]

def versionText : String :=
  "typestate-check 0.1.0\n"

def usageText : String :=
  "Usage: typestate-check [OPTIONS] <GRAPHS>...\n\nFor more information, try '--help'.\n"

def run (read : FileReader) (decode : Decoders) (args : List String) : Outcome :=
  match Request.ofArgs args with
  | .help => ⟨0, helpText, "", []⟩
  | .version => ⟨0, versionText, "", []⟩
  | .usage => ⟨2, "", usageText, []⟩
  | .check o => check read decode o

end Typestate.Command

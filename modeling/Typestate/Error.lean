import Typestate.Graph.Basic
import Typestate.Protocol.Fault
import Typestate.Settings

/-!
Errors: why a request of a user fails. An error is a fault of the configuration or of the data, and
has one message.
-/

namespace Typestate

/-- Why a configuration is refused. -/
inductive ConfigError where
  | protocol (fault : Fault)
  | range (fault : RangeFault)
  | missingVersion
  | unsupportedVersion (found : UInt32)
  /-- The file cannot be read. -/
  | io (cause : String)
  /-- The text is no YAML or has not the form of a configuration. -/
  | yaml (cause : String)
  deriving DecidableEq

def ConfigError.message : ConfigError → String
  | protocol f => f.message
  | range f => f.message
  | missingVersion =>
    "Missing 'version' field in configuration file. "
      ++ "Add 'version: 1' to the top of your YAML file."
  | unsupportedVersion found =>
    "Unsupported configuration version " ++ toString found ++ ". Supported versions: 1"
  | io cause => "IO error: " ++ cause
  | yaml cause => "YAML parsing error: " ++ cause

/-- Why a check cannot be made. -/
inductive Error where
  | protocol (fault : Fault)
  | config (error : ConfigError)
  | graph (fault : GraphFault)
  | io (cause : String)
  /-- The text is no JSON or has not the form of a procedure. -/
  | json (cause : String)
  deriving DecidableEq

namespace Error

def message : Error → String
  | protocol f => f.message
  | config e => e.message
  | graph f => f.message
  | io cause => "IO error: " ++ cause
  | json cause => "JSON error: " ++ cause

/-- Whether the fault lies in the configuration and not in the data. -/
def isConfigurationBug : Error → Bool
  | protocol _ | config _ => true
  | graph _ | io _ | json _ => false

end Error

end Typestate

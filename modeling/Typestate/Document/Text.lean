import Typestate.Document.Config
import Typestate.Document.Graph
import Typestate.Format.Yaml
import Typestate.Json.Parser

/-!
Documents as texts. A decoder finds the document of a text or says why there is none; what is made
of its answer does not depend on the decoder. The decoders given here read all of JSON, and YAML
without anchors, tags and block scalars.
-/

namespace Typestate

/-- How texts are decoded: what a text holds, or the cause why it holds nothing of the kind. -/
abbrev Decoder (α : Type) := String → Except String α

/-- Parses the text and then reads the value. -/
def Decoder.ofParser {V α : Type} (parse? : String → Option V) (read? : V → Option α) :
    Decoder α := fun text =>
  match parse? text with
  | none => .error "the text is not well formed"
  | some v => (read? v).elim (.error "the value is no such document") .ok

namespace ProtocolDocument

def ofYaml : Decoder ProtocolDocument :=
  .ofParser Yaml.parse? read?

def ofJson : Decoder ProtocolDocument :=
  .ofParser Json.ofText? read?

end ProtocolDocument

def ConfigDocument.ofYaml : Decoder ConfigDocument :=
  .ofParser Yaml.parse? read?

def GraphDocument.ofJson : Decoder GraphDocument :=
  .ofParser Json.ofText? read?

/-- All parts of the text must be readable, also those that the documents do not ask for. -/
def GraphFile.ofJson : Decoder GraphFile :=
  .ofParser Json.parse? read?

namespace Protocol

/-- The protocol of a text in a format of the given name. -/
def ofText (format : String) (decode : Decoder ProtocolDocument) (text : String) :
    Except Fault Protocol := do
  let d ← (decode text).mapError fun cause => .malformed (format ++ " parse error: " ++ cause)
  d.build

def ofYaml : Decoder ProtocolDocument → String → Except Fault Protocol :=
  ofText "YAML"

def ofJson : Decoder ProtocolDocument → String → Except Fault Protocol :=
  ofText "JSON"

end Protocol

def Config.ofYaml (decode : Decoder ConfigDocument) (text : String) :
    Except ConfigError Config := do
  let d ← (decode text).mapError .yaml
  d.resolve

/-- The documents of the text of a file. -/
def GraphDocument.ofFileText (decode : Decoder GraphFile) (text : String) :
    Except Error (List GraphDocument) := do
  let file ← (decode text).mapError .json
  return file.documents

end Typestate

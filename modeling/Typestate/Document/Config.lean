import Typestate.Document.Protocol
import Typestate.Error
import Typestate.Protocol.Standard

/-!
Configuration documents: the protocol and the settings of a checker, in version 1.
-/

namespace Typestate

/-- A configuration that is ready for use. -/
structure Config where
  protocol : Protocol := .pet
  settings : Settings := {}

structure ConfigDocument where
  version : Option UInt32
  protocol : Option ProtocolDocument
  settings : Option Settings
  deriving DecidableEq

/-- Checks the version, then builds the protocol, then checks the settings. -/
def ConfigDocument.resolve (d : ConfigDocument) : Except ConfigError Config := do
  match d.version with
  | none => throw .missingVersion
  | some version => if version ≠ 1 then throw (.unsupportedVersion version)
  let protocol ←
    match d.protocol with
    | none => pure Protocol.pet
    | some p => p.build.mapError .protocol
  let settings := d.settings.getD {}
  settings.validate.mapError .range
  return ⟨protocol, settings⟩

variable {V : Type} [Format V]

namespace Settings

def schema : Schema :=
  ⟨[.optional "keep_flow_states", .optional "parallel", .optional "min_parallel_batch"], false⟩

def read? (v : V) : Option Settings := do
  let r ← schema.read? v
  let standard : Settings := {}
  return {
    keepFlowStates := ← r.defaulted "keep_flow_states" Format.flag? standard.keepFlowStates
    parallel := ← r.defaulted "parallel" Format.flag? standard.parallel
    minParallelBatch :=
      ← r.defaulted "min_parallel_batch" Format.natural? standard.minParallelBatch }

def toJson (s : Settings) : Json :=
  .obj [("keep_flow_states", .bool s.keepFlowStates), ("parallel", .bool s.parallel),
    ("min_parallel_batch", .nat s.minParallelBatch)]

end Settings

namespace ConfigDocument

def schema : Schema :=
  ⟨[.optional "version", .optional "protocol", .optional "analysis"], false⟩

def read? (v : V) : Option ConfigDocument := do
  let r ← schema.read? v
  return {
    version := ← r.nullable "version" Format.word?
    protocol := ← r.nullable "protocol" ProtocolDocument.read?
    settings := ← r.nullable "analysis" Settings.read? }

def toJson (d : ConfigDocument) : Json :=
  .obj ([("version", .ofOption .ofWord d.version)]
    ++ Json.fieldOf "protocol" ProtocolDocument.toJson d.protocol
    ++ Json.fieldOf "analysis" Settings.toJson d.settings)

end ConfigDocument

end Typestate

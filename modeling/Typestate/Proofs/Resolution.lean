import Typestate.Document.Config
import Typestate.Proofs.Schema

/-!
Configurations and why they are refused. For the documents of protocols and of configurations it is
said in words why they are refused (`Refused`), and for configurations also what they stand for
(`ConfigDocument.Resolved`). What a configuration document stands for has a valid protocol.
-/

namespace Typestate

/-! ### Steps that may fail -/

section Steps

variable {α β ε ε' : Type}

theorem bind_eq_ok_iff {x : Except ε α} {k : α → Except ε β} {b : β} :
    x >>= k = .ok b ↔ ∃ a, x = .ok a ∧ k a = .ok b := by
  cases x <;> simp [bind, Except.bind]

theorem bind_eq_error_iff {x : Except ε α} {k : α → Except ε β} {e : ε} :
    x >>= k = .error e ↔ x = .error e ∨ ∃ a, x = .ok a ∧ k a = .error e := by
  cases x <;> simp [bind, Except.bind]

@[simp] theorem mapError_eq_ok_iff {f : ε → ε'} {x : Except ε α} {a : α} :
    x.mapError f = .ok a ↔ x = .ok a := by
  cases x <;> simp [Except.mapError]

@[simp] theorem mapError_eq_error_iff {f : ε → ε'} {x : Except ε α} {e : ε'} :
    x.mapError f = .error e ↔ ∃ e', x = .error e' ∧ f e' = e := by
  cases x <;> simp [Except.mapError]

theorem mapError_bind {h : ε → ε'} {x : Except ε α} {k : α → Except ε β} :
    (x >>= k).mapError h = x.mapError h >>= fun a => (k a).mapError h := by
  cases x <;> rfl

end Steps

/-! ### Protocols -/

theorem Protocol.valid_pet : Protocol.pet.Valid :=
  Protocol.validate_eq_ok_iff.1 (by decide +kernel)

/-- Why a document is no protocol, in words. -/
inductive ProtocolDocument.Refused (d : ProtocolDocument) : String → Prop
  | reserved {s : State} (h : d.build = .error (.reservedState s)) :
      Refused d ("Protocol error: state name '" ++ s.name ++ "' is reserved")
  | initial {s : State} (h : d.build = .error (.undeclaredState s .initialState)) :
      Refused d ("Protocol error: state '" ++ s.name
        ++ "' used in the initial state is not declared")
  | rule {s : State} {a : Action} (h : d.build = .error (.undeclaredState s (.rule a))) :
      Refused d ("Protocol error: state '" ++ s.name ++ "' used in the rule for '" ++ a.name
        ++ "' is not declared")
  | fallback {s : State} (h : d.build = .error (.undeclaredState s .fallback)) :
      Refused d ("Protocol error: state '" ++ s.name
        ++ "' used in the fallback policy is not declared")
  | missingRule {a : Action} (h : d.build = .error (.missingRule a)) :
      Refused d ("Protocol error: declared operation '" ++ a.name ++ "' has no transition rule")
  | duplicate {a : Action} (h : d.build = .error (.duplicateOperation a)) :
      Refused d ("Protocol error: operation '" ++ a.name ++ "' is defined more than once")

namespace Fault

theorem message_undeclaredState (s : State) (use : StateUse) :
    (undeclaredState s use).message =
      "Protocol error: state '" ++ s.name ++ ("' used in " ++ use.text ++ " is not declared") := by
  change _ ++ use.text ++ " is not declared" = _
  simp only [String.append_assoc]

theorem message_initialState (s : State) :
    (undeclaredState s .initialState).message =
      "Protocol error: state '" ++ s.name ++ "' used in the initial state is not declared" :=
  (message_undeclaredState s _).trans (congrArg _ (by decide +kernel))

theorem message_fallback (s : State) :
    (undeclaredState s .fallback).message =
      "Protocol error: state '" ++ s.name ++ "' used in the fallback policy is not declared" :=
  (message_undeclaredState s _).trans (congrArg _ (by decide +kernel))

theorem message_rule (s : State) (a : Action) :
    (undeclaredState s (.rule a)).message =
      "Protocol error: state '" ++ s.name ++ "' used in the rule for '" ++ a.name
        ++ "' is not declared" := by
  have hbefore : "' used in " ++ "the rule for '" = "' used in the rule for '" := by decide +kernel
  have hafter : "'" ++ " is not declared" = "' is not declared" := by decide +kernel
  rw [message_undeclaredState, ← hbefore, ← hafter]
  change _ ++ ("' used in " ++ ("the rule for '" ++ a.name ++ "'") ++ " is not declared") = _
  simp only [String.append_assoc]

end Fault

theorem ProtocolDocument.refused_iff {d : ProtocolDocument} {reason : String} :
    d.Refused reason ↔ ∃ f, d.build = .error f ∧ f.message = reason := by
  constructor
  · intro h
    cases h with
    | reserved h => exact ⟨_, h, rfl⟩
    | initial h => exact ⟨_, h, Fault.message_initialState _⟩
    | rule h => exact ⟨_, h, Fault.message_rule _ _⟩
    | fallback h => exact ⟨_, h, Fault.message_fallback _⟩
    | missingRule h => exact ⟨_, h, rfl⟩
    | duplicate h => exact ⟨_, h, rfl⟩
  · rintro ⟨f, hf, rfl⟩
    cases f with
    | undeclaredState s use =>
        cases use with
        | initialState => exact Fault.message_initialState s ▸ .initial hf
        | rule a => exact Fault.message_rule s a ▸ .rule hf
        | fallback => exact Fault.message_fallback s ▸ .fallback hf
    | missingRule a => exact .missingRule hf
    | duplicateOperation a => exact .duplicate hf
    | reservedState s => exact .reserved hf
    | malformed cause => exact absurd hf (d.build_ne_malformed cause)

/-! ### Settings -/

namespace Settings

/-- The size from which on a batch is spread is in its range. -/
def InRange (s : Settings) : Prop :=
  1 ≤ s.minParallelBatch ∧ s.minParallelBatch ≤ 10000

theorem validate_eq_ok_iff {s : Settings} : s.validate = .ok () ↔ s.InRange := by
  simp [validate, InRange]

theorem message_range (n : Nat) :
    RangeFault.message ⟨"min_parallel_batch", n, 1, 10000,
        "Batches smaller than this run on the calling thread"⟩ =
      "Invalid range for field 'min_parallel_batch': " ++ toString n
        ++ " not in 1..=10000. Batches smaller than this run on the calling thread" := by
  have hbefore : "Invalid range for field '" ++ "min_parallel_batch" ++ "': " =
      "Invalid range for field 'min_parallel_batch': " := by decide +kernel
  have hafter : " not in " ++ toString 1 ++ "..=" ++ toString 10000 ++ ". "
        ++ "Batches smaller than this run on the calling thread" =
      " not in 1..=10000. Batches smaller than this run on the calling thread" := by decide +kernel
  rw [← hbefore, ← hafter]
  unfold RangeFault.message
  simp only [String.append_assoc]

theorem validate_eq_error_iff {s : Settings} {reason : String} :
    (∃ f, s.validate = .error f ∧ f.message = reason) ↔
      ¬s.InRange ∧ "Invalid range for field 'min_parallel_batch': " ++ toString s.minParallelBatch
        ++ " not in 1..=10000. Batches smaller than this run on the calling thread" = reason := by
  rw [← message_range]
  unfold validate InRange
  split <;> simp [*]

end Settings

/-! ### Configurations -/

namespace ConfigDocument

/-- Why a document is no configuration, in words. -/
inductive Refused (d : ConfigDocument) : String → Prop
  | noVersion (hversion : d.version = none) :
      Refused d ("Missing 'version' field in configuration file. "
        ++ "Add 'version: 1' to the top of your YAML file.")
  | otherVersion {v : UInt32} (hversion : d.version = some v) (hv : v ≠ 1) :
      Refused d ("Unsupported configuration version " ++ toString v ++ ". Supported versions: 1")
  | protocol {p : ProtocolDocument} {reason : String} (hversion : d.version = some 1)
      (hp : d.protocol = some p) (hrefused : p.Refused reason) : Refused d reason
  | range (hversion : d.version = some 1)
      (hprotocol : ∀ p, d.protocol = some p → ∃ q, p.build = .ok q)
      (hrange : ¬(d.settings.getD {}).InRange) :
      Refused d ("Invalid range for field 'min_parallel_batch': "
        ++ toString (d.settings.getD {}).minParallelBatch
        ++ " not in 1..=10000. Batches smaller than this run on the calling thread")

/-- The document stands for the configuration. -/
structure Resolved (d : ConfigDocument) (config : Config) : Prop where
  version : d.version = some 1
  protocol : d.protocol.elim (.ok .pet) ProtocolDocument.build = .ok config.protocol
  settings : config.settings = d.settings.getD {}
  range : config.settings.InRange

variable {d : ConfigDocument} {config : Config} {reason : String}

theorem resolve_of_noVersion (hversion : d.version = none) :
    d.resolve = .error .missingVersion := by
  unfold resolve
  rw [hversion]
  rfl

theorem resolve_of_otherVersion {v : UInt32} (hversion : d.version = some v) (hv : v ≠ 1) :
    d.resolve = .error (.unsupportedVersion v) := by
  unfold resolve
  rw [hversion]
  dsimp only
  rw [if_pos hv]
  rfl

theorem resolve_of_version (hversion : d.version = some 1) :
    d.resolve = do
      let p ← (d.protocol.elim (.ok .pet) ProtocolDocument.build).mapError .protocol
      (d.settings.getD {}).validate.mapError .range
      return ⟨p, d.settings.getD {}⟩ := by
  unfold resolve
  rw [hversion]
  cases d.protocol <;> rfl

theorem resolve_eq_ok_iff : d.resolve = .ok config ↔ d.Resolved config := by
  constructor
  · intro h
    cases hversion : d.version with
    | none => simp [resolve_of_noVersion hversion] at h
    | some v =>
        by_cases hv : v = 1
        · subst hv
          rw [resolve_of_version hversion] at h
          simp only [bind_eq_ok_iff, mapError_eq_ok_iff, pure, Except.pure, Except.ok.injEq] at h
          obtain ⟨p, hp, _, hrange, rfl⟩ := h
          exact ⟨hversion, hp, rfl, Settings.validate_eq_ok_iff.1 hrange⟩
        · simp [resolve_of_otherVersion hversion hv] at h
  · intro h
    rw [resolve_of_version h.version]
    simp only [bind_eq_ok_iff, mapError_eq_ok_iff]
    have hrange := Settings.validate_eq_ok_iff.2 h.range
    exact ⟨_, h.protocol, (), h.settings ▸ hrange, by rw [← h.settings]; rfl⟩

/-- In version 1 the protocol is looked at first and then the settings. -/
theorem resolve_of_version_eq_error_iff (hversion : d.version = some 1) :
    (∃ e, d.resolve = .error e ∧ e.message = reason) ↔
      (∃ p, d.protocol = some p ∧ p.Refused reason) ∨
        (∀ p, d.protocol = some p → ∃ q, p.build = .ok q) ∧
          ∃ f, (d.settings.getD {}).validate = .error f ∧ f.message = reason := by
  rw [resolve_of_version hversion]
  simp only [bind_eq_error_iff, mapError_eq_error_iff, mapError_eq_ok_iff, pure, Except.pure,
    reduceCtorEq, and_false, exists_false, or_false]
  constructor
  · rintro ⟨_, ⟨f, hf, rfl⟩ | ⟨q, hq, f, hf, rfl⟩, rfl⟩
    · cases hp : d.protocol with
      | none => simp [hp] at hf
      | some p =>
          exact .inl ⟨p, rfl, ProtocolDocument.refused_iff.2 ⟨f, by simpa [hp] using hf, rfl⟩⟩
    · exact .inr ⟨fun p hp => ⟨q, by simpa [hp] using hq⟩, f, hf, rfl⟩
  · rintro (⟨p, hp, hrefused⟩ | ⟨hprotocol, f, hf, rfl⟩)
    · obtain ⟨f, hf, rfl⟩ := ProtocolDocument.refused_iff.1 hrefused
      exact ⟨_, .inl ⟨f, by rw [hp]; exact hf, rfl⟩, rfl⟩
    · have hok : ∃ q, d.protocol.elim (.ok .pet) ProtocolDocument.build = .ok q := by
        cases hp : d.protocol with
        | none => exact ⟨.pet, rfl⟩
        | some p => exact hprotocol p hp
      obtain ⟨q, hq⟩ := hok
      exact ⟨_, .inr ⟨q, hq, f, hf, rfl⟩, rfl⟩

theorem refused_iff : d.Refused reason ↔ ∃ e, d.resolve = .error e ∧ e.message = reason := by
  constructor
  · rintro (hversion | ⟨hversion, hv⟩ | ⟨hversion, hp, hrefused⟩ | ⟨hversion, hprotocol, hrange⟩)
    · exact ⟨_, resolve_of_noVersion hversion, rfl⟩
    · exact ⟨_, resolve_of_otherVersion hversion hv, rfl⟩
    · exact (resolve_of_version_eq_error_iff hversion).2 (.inl ⟨_, hp, hrefused⟩)
    · exact (resolve_of_version_eq_error_iff hversion).2
        (.inr ⟨hprotocol, Settings.validate_eq_error_iff.2 ⟨hrange, rfl⟩⟩)
  · intro h
    cases hversion : d.version with
    | none =>
        obtain ⟨e, he, rfl⟩ := h
        obtain rfl : .missingVersion = e := by simpa [resolve_of_noVersion hversion] using he
        exact .noVersion hversion
    | some v =>
        by_cases hv : v = 1
        · subst hv
          rcases (resolve_of_version_eq_error_iff hversion).1 h with
            ⟨p, hp, hrefused⟩ | ⟨hprotocol, hf⟩
          · exact .protocol hversion hp hrefused
          · obtain ⟨hrange, rfl⟩ := Settings.validate_eq_error_iff.1 hf
            exact .range hversion hprotocol hrange
        · obtain ⟨e, he, rfl⟩ := h
          obtain rfl : .unsupportedVersion v = e := by
            simpa [resolve_of_otherVersion hversion hv] using he
          exact .otherVersion hversion hv

/-- A configuration has a valid protocol: its own was built, and the standard one is valid. -/
theorem Resolved.valid (h : d.Resolved config) : config.protocol.Valid := by
  have hprotocol := h.protocol
  cases hp : d.protocol with
  | none =>
      have hpet : .pet = config.protocol := by simpa [hp] using hprotocol
      exact hpet ▸ Protocol.valid_pet
  | some p =>
      obtain ⟨-, hvalid, heq⟩ :=
        ProtocolDocument.build_eq_ok_iff.1 (by simpa [hp] using hprotocol)
      exact heq ▸ hvalid

end ConfigDocument

end Typestate

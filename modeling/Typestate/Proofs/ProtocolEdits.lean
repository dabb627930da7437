import Mathlib.Data.List.Induction
import Typestate.Proofs.Validity
import Typestate.Protocol.Builder

/-!
Protocols by the calls that made them. No call removes a state or a rule, so a protocol has all
states that any call named, also in a rule that another one replaced, and a rule for every operation
that was ever given one; of the initial state and the fallback the last call counts. From this
follows which lists of calls make a valid protocol, without looking at the protocol itself
(`Protocol.Edit.Suffice`).
-/

namespace Typestate

namespace Protocol

/-- A call that changes a protocol. -/
inductive Edit where
  | addState (s : State)
  | setInitial (s : State)
  | addOperation (a : Action) (target : Tracked) (rejectedFrom : List State)
  | declareAction (a : Action)
  | setFallback (f : Fallback)
  | withTrackedType (type : String)

namespace Edit

def apply (p : Protocol) : Edit → Protocol
  | addState s => p.addState s
  | setInitial s => p.setInitial s
  | addOperation a target rejectedFrom => p.addOperation a target rejectedFrom
  | declareAction a => p.declareAction a
  | setFallback f => p.setFallback f
  | withTrackedType type => p.withTrackedType type

/-- The states that a call names. A fallback names none: it does not declare its target. -/
def mentioned : Edit → List State
  | addState s => [s]
  | setInitial s => [s]
  | addOperation _ target rejectedFrom => target.known?.toList ++ rejectedFrom
  | declareAction _ | setFallback _ | withTrackedType _ => []

def initial? : Edit → Option State
  | setInitial s => some s
  | addState _ | addOperation .. | declareAction _ | setFallback _ | withTrackedType _ => none

def fallback? : Edit → Option Fallback
  | setFallback f => some f
  | addState _ | setInitial _ | addOperation .. | declareAction _ | withTrackedType _ => none

/-- Some call names the state. -/
def Mentioned (edits : List Edit) (s : State) : Prop :=
  ∃ e ∈ edits, s ∈ e.mentioned

/-- Some call gives the operation a rule. -/
def Ruled (edits : List Edit) (a : Action) : Prop :=
  ∃ target rejectedFrom, addOperation a target rejectedFrom ∈ edits

/-- What a list of calls has to satisfy for its protocol to be valid. -/
structure Suffice (edits : List Edit) : Prop where
  not_reserved : ∀ s, Mentioned edits s → s.name.toLower ≠ "unknown"
  initial : (∃ s, setInitial s ∈ edits) ∨ Mentioned edits ⟨"Initial"⟩
  fallback : ∀ s, (edits.filterMap fallback?).getLast? = some (.accept (.known s)) →
    Mentioned edits s
  rule : ∀ a, declareAction a ∈ edits → Ruled edits a

end Edit

/-- The protocol that a list of calls makes. -/
def ofEdits (name : String) (edits : List Edit) : Protocol :=
  edits.foldl Edit.apply (empty name)

variable {p : Protocol} {e : Edit} {name : String} {edits : List Edit} {s : State} {a : Action}

/-! ### One call -/

theorem mem_states_addState {t : State} : s ∈ (p.addState t).states ↔ s ∈ p.states ∨ s = t := by
  rw [addState, Std.ExtTreeSet.mem_insert, Std.LawfulEqOrd.compare_eq_iff_eq, or_comm, eq_comm]

theorem mem_states_apply : s ∈ (e.apply p).states ↔ s ∈ p.states ∨ s ∈ e.mentioned := by
  cases e with
  | addState t =>
      rw [Edit.mentioned, List.mem_singleton]
      exact mem_states_addState
  | setInitial t =>
      rw [Edit.mentioned, List.mem_singleton]
      exact mem_states_addState
  | addOperation b target rejectedFrom =>
      simp [Edit.apply, Edit.mentioned, addOperation, Std.ExtTreeSet.mem_insertMany_list]
  | declareAction b => simp [Edit.apply, Edit.mentioned, declareAction]
  | setFallback f => simp [Edit.apply, Edit.mentioned, setFallback]
  | withTrackedType type => simp [Edit.apply, Edit.mentioned, withTrackedType]

theorem initial_apply (e : Edit) (p : Protocol) :
    (e.apply p).initial = e.initial?.getD p.initial := by
  cases e <;> rfl

theorem fallback_apply (e : Edit) (p : Protocol) :
    (e.apply p).fallback = e.fallback?.getD p.fallback := by
  cases e <;> rfl

theorem mem_declared_apply :
    a ∈ (e.apply p).declared ↔
      a ∈ p.declared ∨ e = .declareAction a ∨ ∃ target rejectedFrom,
        e = .addOperation a target rejectedFrom := by
  cases e with
  | addState t => simp [Edit.apply, addState]
  | setInitial t => simp [Edit.apply, setInitial, addState]
  | addOperation b target rejectedFrom =>
      simp [Edit.apply, addOperation, or_comm]
  | declareAction b => simp [Edit.apply, declareAction, or_comm]
  | setFallback f => simp [Edit.apply, setFallback]
  | withTrackedType type => simp [Edit.apply, withTrackedType]

theorem mem_rules_apply :
    a ∈ (e.apply p).rules ↔
      a ∈ p.rules ∨ ∃ target rejectedFrom, e = .addOperation a target rejectedFrom := by
  cases e with
  | addState t => simp [Edit.apply, addState]
  | setInitial t => simp [Edit.apply, setInitial, addState]
  | addOperation b target rejectedFrom => simp [Edit.apply, addOperation, or_comm]
  | declareAction b => simp [Edit.apply, declareAction]
  | setFallback f => simp [Edit.apply, setFallback]
  | withTrackedType type => simp [Edit.apply, withTrackedType]

/-- A rule was there before the call, or the call gave it. -/
theorem rule_of_apply {r : Rule} (hr : (e.apply p).rules[a]? = some r) :
    p.rules[a]? = some r ∨ ∃ rejectedFrom, e = .addOperation a r.target rejectedFrom ∧
      r.rejectedFrom = .ofList rejectedFrom := by
  cases e with
  | addOperation b target rejectedFrom =>
      simp only [Edit.apply, addOperation, Std.ExtTreeMap.getElem?_insert,
        Std.LawfulEqOrd.compare_eq_iff_eq] at hr
      split at hr
      · next hb =>
        obtain rfl := Option.some_inj.1 hr
        exact .inr ⟨rejectedFrom, by rw [hb], rfl⟩
      · exact .inl hr
  | addState t => exact .inl hr
  | setInitial t => exact .inl hr
  | declareAction b => exact .inl hr
  | setFallback f => exact .inl hr
  | withTrackedType type => exact .inl hr

/-! ### All calls -/

theorem ofEdits_snoc (name : String) (edits : List Edit) (e : Edit) :
    ofEdits name (edits ++ [e]) = e.apply (ofEdits name edits) :=
  List.foldl_append

/-- What holds of a protocol only since some call made it so, and cannot be undone, holds in the end
exactly if there was such a call. -/
theorem ofEdits_iff_exists {Q : Protocol → Prop} {adds : Edit → Prop} (hempty : ¬Q (empty name))
    (happly : ∀ e p, Q (e.apply p) ↔ Q p ∨ adds e) (edits : List Edit) :
    Q (ofEdits name edits) ↔ ∃ e ∈ edits, adds e := by
  induction edits using List.reverseRecOn with
  | nil => simpa [ofEdits] using hempty
  | append_singleton edits e ih =>
      rw [ofEdits_snoc, happly, ih]
      simp [or_and_right, exists_or]

theorem mem_states_ofEdits : s ∈ (ofEdits name edits).states ↔ Edit.Mentioned edits s :=
  ofEdits_iff_exists (Q := fun p => s ∈ p.states) (by simp [empty]) (fun _ _ => mem_states_apply) edits

theorem mem_rules_ofEdits : a ∈ (ofEdits name edits).rules ↔ Edit.Ruled edits a := by
  rw [ofEdits_iff_exists (Q := fun p => a ∈ p.rules) (by simp [empty]) (fun _ _ => mem_rules_apply)]
  constructor
  · rintro ⟨_, he, target, rejectedFrom, rfl⟩
    exact ⟨target, rejectedFrom, he⟩
  · rintro ⟨target, rejectedFrom, he⟩
    exact ⟨_, he, target, rejectedFrom, rfl⟩

theorem mem_declared_ofEdits :
    a ∈ (ofEdits name edits).declared ↔ .declareAction a ∈ edits ∨ Edit.Ruled edits a := by
  rw [ofEdits_iff_exists (Q := fun p => a ∈ p.declared) (by simp [empty])
    (fun _ _ => mem_declared_apply)]
  constructor
  · rintro ⟨_, he, rfl | ⟨target, rejectedFrom, rfl⟩⟩
    · exact .inl he
    · exact .inr ⟨target, rejectedFrom, he⟩
  · rintro (he | ⟨target, rejectedFrom, he⟩)
    · exact ⟨_, he, .inl rfl⟩
    · exact ⟨_, he, .inr ⟨target, rejectedFrom, rfl⟩⟩

/-- Every rule was given by some call, which may be followed by others. -/
theorem rule_of_ofEdits {r : Rule} (hr : (ofEdits name edits).rules[a]? = some r) :
    ∃ rejectedFrom, .addOperation a r.target rejectedFrom ∈ edits ∧
      r.rejectedFrom = .ofList rejectedFrom := by
  induction edits using List.reverseRecOn with
  | nil => simp [ofEdits, empty] at hr
  | append_singleton edits e ih =>
      rw [ofEdits_snoc] at hr
      rcases rule_of_apply hr with hr | ⟨rejectedFrom, rfl, hrejected⟩
      · obtain ⟨rejectedFrom, hmem, hrejected⟩ := ih hr
        exact ⟨rejectedFrom, List.mem_append_left _ hmem, hrejected⟩
      · exact ⟨rejectedFrom, by simp, hrejected⟩

/-- What a call may set is in the end what the last call set that did. -/
theorem ofEdits_last {β : Type} {part : Protocol → β} {set? : Edit → Option β}
    (happly : ∀ e p, part (e.apply p) = (set? e).getD (part p)) (name : String)
    (edits : List Edit) :
    part (ofEdits name edits) = (edits.filterMap set?).getLast?.getD (part (empty name)) := by
  induction edits using List.reverseRecOn with
  | nil => rfl
  | append_singleton edits e ih =>
      rw [ofEdits_snoc, happly, ih, List.filterMap_append]
      cases hset : set? e <;> simp [hset]

theorem initial_ofEdits (name : String) (edits : List Edit) :
    (ofEdits name edits).initial = (edits.filterMap Edit.initial?).getLast?.getD ⟨"Initial"⟩ :=
  ofEdits_last initial_apply name edits

theorem fallback_ofEdits (name : String) (edits : List Edit) :
    (ofEdits name edits).fallback =
      (edits.filterMap Edit.fallback?).getLast?.getD (.accept .unknown) :=
  ofEdits_last fallback_apply name edits

/-! ### Valid protocols -/

/-- No call leaves a rule behind that names an undeclared state. -/
theorem rule_mem_ofEdits {r : Rule} (hr : (ofEdits name edits).rules[a]? = some r)
    (hs : s ∈ r.mentioned) : s ∈ (ofEdits name edits).states := by
  obtain ⟨rejectedFrom, hmem, hrejected⟩ := rule_of_ofEdits hr
  refine mem_states_ofEdits.2 ⟨_, hmem, ?_⟩
  rw [Rule.mentioned, hrejected] at hs
  simpa [Edit.mentioned, Std.ExtTreeSet.mem_ofList] using hs

theorem mem_filterMap_initial? :
    s ∈ edits.filterMap Edit.initial? ↔ .setInitial s ∈ edits := by
  have hset : ∀ e : Edit, e.initial? = some s ↔ e = .setInitial s := by
    intro e
    cases e <;> simp [Edit.initial?]
  simp [List.mem_filterMap, hset]

theorem initial_mem_ofEdits_iff :
    (ofEdits name edits).initial ∈ (ofEdits name edits).states ↔
      (∃ s, .setInitial s ∈ edits) ∨ Edit.Mentioned edits ⟨"Initial"⟩ := by
  rw [mem_states_ofEdits, initial_ofEdits]
  cases hlast : (edits.filterMap Edit.initial?).getLast? with
  | none =>
      have hnone : ∀ s, .setInitial s ∉ edits := by
        intro s hs
        simpa [List.getLast?_eq_none_iff.1 hlast] using mem_filterMap_initial?.2 hs
      simp [hnone]
  | some s =>
      have hs : .setInitial s ∈ edits := mem_filterMap_initial?.1 (List.mem_of_getLast? hlast)
      have hmentioned : Edit.Mentioned edits s := ⟨_, hs, by simp [Edit.mentioned]⟩
      simpa using ⟨fun _ => .inl ⟨s, hs⟩, fun _ => hmentioned⟩

theorem target?_fallback_ofEdits :
    (ofEdits name edits).fallback.target? = some s ↔
      (edits.filterMap Edit.fallback?).getLast? = some (.accept (.known s)) := by
  rw [fallback_ofEdits]
  cases (edits.filterMap Edit.fallback?).getLast? with
  | none => simp [Fallback.target?, Tracked.known?]
  | some f =>
      cases f with
      | accept target => cases target <;> simp [Fallback.target?, Tracked.known?]
      | preserve => simp [Fallback.target?]
      | reject => simp [Fallback.target?]

theorem valid_ofEdits_iff : (ofEdits name edits).Valid ↔ Edit.Suffice edits := by
  constructor
  · intro hp
    refine ⟨fun s hs => ?_, initial_mem_ofEdits_iff.1 hp.initial_mem, fun s hs => ?_,
      fun a ha => ?_⟩
    · simpa [State.isReserved] using hp.not_reserved s (mem_states_ofEdits.2 hs)
    · exact mem_states_ofEdits.1 (hp.fallback_mem s (target?_fallback_ofEdits.2 hs))
    · exact mem_rules_ofEdits.1 (hp.rule_of_declared a (mem_declared_ofEdits.2 (.inl ha)))
  · intro h
    refine ⟨fun s hs => ?_, initial_mem_ofEdits_iff.2 h.initial,
      fun a r hr s hs => rule_mem_ofEdits hr hs, fun s hs => ?_, fun a ha => ?_⟩
    · simpa [State.isReserved] using h.not_reserved s (mem_states_ofEdits.1 hs)
    · exact mem_states_ofEdits.2 (h.fallback s (target?_fallback_ofEdits.1 hs))
    · rcases mem_declared_ofEdits.1 ha with ha | ha
      · exact mem_rules_ofEdits.2 (h.rule a ha)
      · exact mem_rules_ofEdits.2 ha

/-! ### Faults -/

theorem exists_rule_of_fault (hf : .undeclaredState s (.rule a) ∈ p.faults) :
    ∃ r, p.rules[a]? = some r ∧ s ∈ r.mentioned ∧ s ∉ p.states := by
  simpa [faults, undeclared, ← Std.ExtTreeSet.contains_iff_mem] using hf

theorem declared_of_missingRule (hf : .missingRule a ∈ p.faults) : a ∈ p.declared ∧ a ∉ p.rules := by
  simpa [faults, undeclared, ← Std.ExtTreeMap.contains_iff_mem] using hf

/-- The faults of a protocol that was made by calls do not lie in its rules. -/
theorem validate_ofEdits_ne (name : String) (edits : List Edit) (s : State) (a : Action) :
    (ofEdits name edits).validate ≠ .error (.undeclaredState s (.rule a)) := by
  intro hf
  obtain ⟨r, hr, hs, hstates⟩ := exists_rule_of_fault (mem_faults_of_validate hf)
  exact hstates (rule_mem_ofEdits hr hs)

end Protocol

/-! ### Builders -/

namespace Builder

/-- A call of a builder. -/
inductive Call where
  | trackedType (type : String)
  | initialState (name : String)
  | operation (name target : String) (rejectedFrom : List String)
  | fallback (f : Fallback)

def Call.apply (b : Builder) : Call → Builder
  | trackedType type => b.trackedType type
  | initialState name => b.initialState name
  | operation name target rejectedFrom => b.operation name target rejectedFrom
  | fallback f => b.fallback f

/-- What a call does to the protocol that is being built. -/
def Call.edit : Call → Protocol.Edit
  | trackedType type => .withTrackedType type
  | initialState name => .setInitial ⟨name⟩
  | operation name target rejectedFrom =>
    .addOperation ⟨name⟩ (.ofTarget target) (rejectedFrom.map State.mk)
  | fallback f => .setFallback f

/-- The builder after a list of calls. -/
def ofCalls (name : String) (calls : List Call) : Builder :=
  calls.foldl Call.apply (ofName name)

variable {name : String} {calls : List Call}

theorem protocol_apply (b : Builder) (call : Call) :
    (call.apply b).protocol = call.edit.apply b.protocol := by
  cases call <;> rfl

theorem protocol_ofCalls (name : String) (calls : List Call) :
    (ofCalls name calls).protocol = .ofEdits name (calls.map Call.edit) := by
  induction calls using List.reverseRecOn with
  | nil => rfl
  | append_singleton calls call ih =>
      rw [List.map_append, List.map_singleton, Protocol.ofEdits_snoc, ← ih, ← protocol_apply,
        ofCalls, List.foldl_append]
      rfl

theorem build_eq_ok_iff {b : Builder} {p : Protocol} :
    b.build = .ok p ↔ b.protocol.validate = .ok () ∧ p = b.protocol := by
  unfold build
  cases b.protocol.validate with
  | ok u => simp [bind, Except.bind, pure, Except.pure, eq_comm]
  | error f => simp [bind, Except.bind]

theorem build_eq_error_iff {b : Builder} {f : Fault} :
    b.build = .error f ↔ b.protocol.validate = .error f := by
  unfold build
  cases b.protocol.validate with
  | ok u => simp [bind, Except.bind, pure, Except.pure]
  | error f => simp [bind, Except.bind]

/-- No call of a builder declares an operation without giving it a rule. -/
theorem ruled_of_mem_declared {a : Action}
    (ha : a ∈ (Protocol.ofEdits name (calls.map Call.edit)).declared) :
    Protocol.Edit.Ruled (calls.map Call.edit) a := by
  rcases Protocol.mem_declared_ofEdits.1 ha with ha | ha
  · obtain ⟨call, -, hcall⟩ := List.mem_map.1 ha
    cases call <;> simp [Call.edit] at hcall
  · exact ha

theorem build_ofCalls_ne (name : String) (calls : List Call) (a : Action) :
    (ofCalls name calls).build ≠ .error (.missingRule a) := by
  intro hf
  rw [build_eq_error_iff, protocol_ofCalls] at hf
  obtain ⟨hdeclared, hrules⟩ :=
    Protocol.declared_of_missingRule (Protocol.mem_faults_of_validate hf)
  exact hrules (Protocol.mem_rules_ofEdits.2 (ruled_of_mem_declared hdeclared))

end Builder

/-- Which calls make a valid protocol. A protocol is accepted exactly if no state that any call named
has a reserved name, an initial state was set or the state "Initial" named, the last fallback leads to
a state that was named or to none, and every operation that was declared was given a rule at some
time. So a rule is never blamed for the use of an undeclared state. What a builder makes is what
the same calls make of a protocol, and it never lacks a rule. -/
theorem Protocol.validate_ofEdits (name : String) (edits : List Protocol.Edit)
    (calls : List Builder.Call) :
    ((ofEdits name edits).validate = .ok () ↔ Edit.Suffice edits) ∧
    (∀ s a, (ofEdits name edits).validate ≠ .error (.undeclaredState s (.rule a))) ∧
    (∀ p, (Builder.ofCalls name calls).build = .ok p ↔
      Edit.Suffice (calls.map Builder.Call.edit) ∧
        p = ofEdits name (calls.map Builder.Call.edit)) ∧
    (∀ s a, (Builder.ofCalls name calls).build ≠ .error (.undeclaredState s (.rule a))) ∧
    ∀ a, (Builder.ofCalls name calls).build ≠ .error (.missingRule a) := by
  refine ⟨?_, validate_ofEdits_ne name edits, fun p => ?_, fun s a => ?_,
    Builder.build_ofCalls_ne name calls⟩
  · rw [validate_eq_ok_iff, valid_ofEdits_iff]
  · rw [Builder.build_eq_ok_iff, Builder.protocol_ofCalls, validate_eq_ok_iff, valid_ofEdits_iff]
  · rw [Ne, Builder.build_eq_error_iff, Builder.protocol_ofCalls]
    exact validate_ofEdits_ne name _ s a

-- a rule that was replaced still counts for what it named
example :
    (Protocol.ofEdits "P" [.setInitial ⟨"Idle"⟩, .addOperation ⟨"run"⟩ (.known ⟨"UNKNOWN"⟩) [],
      .addOperation ⟨"run"⟩ (.known ⟨"Idle"⟩) []]).validate = .error (.reservedState ⟨"UNKNOWN"⟩) := by
  decide +kernel

end Typestate

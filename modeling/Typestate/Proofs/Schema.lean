import Mathlib.Data.List.Induction
import Mathlib.Data.List.Nodup
import Typestate.Document.Protocol
import Typestate.Proofs.Validity

/-!
Which protocol documents are accepted, and what they mean. A document is looked through twice,
first as it is written and then as the protocol that it describes. `ProtocolDocument.Acceptable`
says without these two passes what a document has to satisfy, and `ProtocolDocument.Describes` says
part by part which protocol it stands for.
-/

namespace Typestate

theorem Tracked.ofTarget_eq (name : String) :
    ofTarget name = if name.toLower = "unknown" then .unknown else .known ⟨name⟩ := by
  simp [ofTarget, State.isReserved]

theorem Tracked.known?_ofTarget {name : String} {s : State} :
    (ofTarget name).known? = some s ↔ s.name = name ∧ name.toLower ≠ "unknown" := by
  rw [ofTarget_eq]
  by_cases h : name.toLower = "unknown"
  · simp [h, known?]
  · cases s
    simp [h, known?, eq_comm]

theorem Action.mk_eq_iff {name : String} {a : Action} : ⟨name⟩ = a ↔ name = a.name := by
  cases a
  simp

namespace OperationDocument

variable {o : OperationDocument} {s : State}

/-- The operation leads to the named state or is refused from it. -/
def Names (o : OperationDocument) (name : String) : Prop :=
  (o.target = some name ∧ name.toLower ≠ "unknown") ∨ name ∈ o.rejectedFrom

/-- The rule of the operation, if it has one. -/
def rule? (o : OperationDocument) : Option Rule :=
  o.target.map fun name => ⟨.ofTarget name, .ofList (o.rejectedFrom.map State.mk)⟩

theorem mem_mentioned : s ∈ o.mentioned ↔ o.target.isSome ∧ o.Names s.name := by
  cases htarget : o.target with
  | none => simp [mentioned, htarget]
  | some name =>
      have hrejected : s ∈ o.rejectedFrom.map State.mk ↔ s.name ∈ o.rejectedFrom := by
        cases s
        simp
      simp only [mentioned, htarget, List.mem_append, Option.mem_toList,
        Tracked.known?_ofTarget, hrejected, Names, Option.isSome_some, true_and, Option.some_inj]
      constructor
      · rintro (⟨rfl, hname⟩ | hs)
        · exact .inl ⟨rfl, hname⟩
        · exact .inr hs
      · rintro (⟨rfl, hname⟩ | hs)
        · exact .inl ⟨rfl, hname⟩
        · exact .inr hs

theorem rule?_eq_some {r : Rule} :
    o.rule? = some r ↔ ∃ name, o.target = some name ∧
      r.target = (if name.toLower = "unknown" then .unknown else .known ⟨name⟩) ∧
      ∀ s, s ∈ r.rejectedFrom ↔ s.name ∈ o.rejectedFrom := by
  have hset : ∀ s : State, s ∈ Std.ExtTreeSet.ofList (o.rejectedFrom.map State.mk) compare ↔
      s.name ∈ o.rejectedFrom := by
    rintro ⟨name⟩
    simp [Std.ExtTreeSet.mem_ofList]
  simp only [rule?, Option.map_eq_some_iff, Tracked.ofTarget_eq]
  constructor
  · rintro ⟨name, hname, rfl⟩
    exact ⟨name, hname, rfl, hset⟩
  · rintro ⟨name, hname, htarget, hrejected⟩
    refine ⟨name, hname, ?_⟩
    obtain ⟨target, rejectedFrom⟩ := r
    rw [Rule.mk.injEq]
    refine ⟨htarget.symm, Std.ExtTreeSet.ext_mem fun s => ?_⟩
    rw [hset, hrejected]

/-! ### Adding operations to a protocol -/

variable {p : Protocol} {os : List OperationDocument} {a : Action} {r : Rule}

theorem mem_states_addTo : s ∈ (o.addTo p).states ↔ s ∈ p.states ∨ s ∈ o.mentioned := by
  cases htarget : o.target with
  | none => simp [addTo, mentioned, htarget, Protocol.declareAction]
  | some name =>
      simp [addTo, mentioned, htarget, Protocol.addOperation, Std.ExtTreeSet.mem_insertMany_list]

theorem mem_declared_addTo : a ∈ (o.addTo p).declared ↔ a ∈ p.declared ∨ o.name = a.name := by
  cases htarget : o.target with
  | none =>
      simp [addTo, htarget, Protocol.declareAction, Std.ExtTreeSet.mem_insert, Action.mk_eq_iff,
        or_comm]
  | some name =>
      simp [addTo, htarget, Protocol.addOperation, Std.ExtTreeSet.mem_insert, Action.mk_eq_iff,
        or_comm]

theorem rules_addTo :
    (o.addTo p).rules = o.rule?.elim p.rules (p.rules.insert ⟨o.name⟩) := by
  cases htarget : o.target with
  | none => simp [addTo, rule?, htarget, Protocol.declareAction]
  | some name => simp [addTo, rule?, htarget, Protocol.addOperation]

/-- What operations leave as it is. -/
theorem foldl_addTo (p : Protocol) (os : List OperationDocument) :
    ∃ states rules declared, os.foldl (fun p o => o.addTo p) p =
      { p with states := states, rules := rules, declared := declared } := by
  induction os using List.reverseRecOn with
  | nil => exact ⟨p.states, p.rules, p.declared, rfl⟩
  | append_singleton os o ih =>
      obtain ⟨states, rules, declared, hfold⟩ := ih
      rw [List.foldl_append, hfold]
      cases htarget : o.target with
      | none => exact ⟨_, _, _, by simp only [List.foldl_cons, List.foldl_nil, addTo, htarget]; rfl⟩
      | some name =>
          exact ⟨_, _, _, by simp only [List.foldl_cons, List.foldl_nil, addTo, htarget]; rfl⟩

theorem mem_states_foldl_addTo :
    s ∈ (os.foldl (fun p o => o.addTo p) p).states ↔
      s ∈ p.states ∨ ∃ o ∈ os, s ∈ o.mentioned := by
  induction os using List.reverseRecOn with
  | nil => simp
  | append_singleton os o ih =>
      rw [List.foldl_append]
      simp [mem_states_addTo, ih, or_and_right, exists_or, or_assoc]

theorem mem_declared_foldl_addTo :
    a ∈ (os.foldl (fun p o => o.addTo p) p).declared ↔
      a ∈ p.declared ∨ ∃ o ∈ os, o.name = a.name := by
  induction os using List.reverseRecOn with
  | nil => simp
  | append_singleton os o ih =>
      rw [List.foldl_append]
      simp [mem_declared_addTo, ih, or_and_right, exists_or, or_assoc]

/-- Where names are distinct no rule replaces another. -/
theorem rules_foldl_addTo (hp : p.rules = ∅) (hos : (os.map name).Nodup) (a : Action) (r : Rule) :
    (os.foldl (fun p o => o.addTo p) p).rules[a]? = some r ↔
      ∃ o ∈ os, o.name = a.name ∧ o.rule? = some r := by
  induction os using List.reverseRecOn with
  | nil => simp [hp]
  | append_singleton os o ih =>
      rw [List.map_append, List.nodup_append] at hos
      obtain ⟨hos, -, hfresh⟩ := hos
      rw [List.foldl_append]
      simp only [List.foldl_cons, List.foldl_nil, rules_addTo, List.mem_append,
        List.mem_singleton, or_and_right, exists_or, exists_eq_left]
      rw [← ih hos]
      cases hrule : o.rule? with
      | none => simp
      | some rule =>
          rw [Option.elim_some, Std.ExtTreeMap.getElem?_insert]
          by_cases hname : o.name = a.name
          · have hold : (os.foldl (fun p o => o.addTo p) p).rules[a]? ≠ some r := by
              intro hold
              obtain ⟨o', ho', hname', -⟩ := (ih hos).1 hold
              exact hfresh o'.name (List.mem_map_of_mem ho') o.name (by simp)
                (hname'.trans hname.symm)
            simp [hname, hold]
          · simp [Action.mk_eq_iff, hname]

theorem size_rules_foldl_addTo (hp : p.rules = ∅) (hos : (os.map name).Nodup)
    (htargets : ∀ o ∈ os, o.target.isSome) :
    (os.foldl (fun p o => o.addTo p) p).rules.size = os.length := by
  induction os using List.reverseRecOn with
  | nil => simp [hp]
  | append_singleton os o ih =>
      rw [List.map_append, List.nodup_append] at hos
      obtain ⟨hos, -, hfresh⟩ := hos
      have hnew : (os.foldl (fun p o => o.addTo p) p).rules.contains ⟨o.name⟩ = false := by
        rw [Std.ExtTreeMap.contains_eq_isSome_getElem?, Option.isSome_eq_false_iff,
          Option.isNone_iff_eq_none, Option.eq_none_iff_forall_not_mem]
        intro r hr
        obtain ⟨o', ho', hname, -⟩ := (rules_foldl_addTo hp hos _ r).1 hr
        exact hfresh o'.name (List.mem_map_of_mem ho') o.name (by simp) hname
      obtain ⟨target, htarget⟩ := Option.isSome_iff_exists.1 (htargets o (by simp))
      have hsize := ih hos fun o' ho' => htargets o' (by simp [ho'])
      rw [List.foldl_append]
      simp [rules_addTo, rule?, htarget, Std.ExtTreeMap.size_insert, hnew, hsize]

theorem mem_mentioned_rule (h : o.rule? = some r) : s ∈ r.mentioned ↔ s ∈ o.mentioned := by
  obtain ⟨name, htarget, rfl⟩ := Option.map_eq_some_iff.1 h
  simp [Rule.mentioned, mentioned, htarget, Std.ExtTreeSet.mem_ofList]

end OperationDocument

theorem Protocol.foldl_addState (p : Protocol) (names : List String) :
    ∃ states, names.foldl (fun p s => p.addState ⟨s⟩) p = { p with states := states } ∧
      ∀ s, s ∈ states ↔ s ∈ p.states ∨ s.name ∈ names := by
  induction names using List.reverseRecOn with
  | nil => exact ⟨p.states, rfl, by simp⟩
  | append_singleton names name ih =>
      obtain ⟨states, hfold, hstates⟩ := ih
      refine ⟨states.insert ⟨name⟩, by rw [List.foldl_append, hfold]; rfl, fun s => ?_⟩
      have hname : (⟨name⟩ : State) = s ↔ s.name = name := by
        cases s
        simp [eq_comm]
      simp [Std.ExtTreeSet.mem_insert, hstates, hname, or_comm, or_assoc]

namespace ProtocolDocument

variable {d : ProtocolDocument} {p : Protocol} {s : State} {a : Action}

/-- The state that calls without a rule lead to by name. -/
def fallbackName? (d : ProtocolDocument) : Option String :=
  match d.fallback with
  | some ⟨.accept, some name⟩ => if name.toLower = "unknown" then none else some name
  | _ => none

/-- What a document has to satisfy. -/
structure Acceptable (d : ProtocolDocument) : Prop where
  nodup_names : (d.operations.map OperationDocument.name).Nodup
  target_isSome : ∀ o ∈ d.operations, o.target.isSome
  initial_ne : d.initial.toLower ≠ "unknown"
  listed_ne : ∀ names, d.states = some names → ∀ name ∈ names, name.toLower ≠ "unknown"
  rejecting_ne : ∀ o ∈ d.operations, ∀ name ∈ o.rejectedFrom, name.toLower ≠ "unknown"
  /-- With a list of states, all names are in it. -/
  mem_of_listed : ∀ names, d.states = some names → d.initial ∈ names ∧
    (∀ o ∈ d.operations, ∀ name, o.Names name → name ∈ names) ∧
    ∀ name, d.fallbackName? = some name → name ∈ names
  /-- Without one, the fallback leads to a state that occurs elsewhere. -/
  fallback_of_unlisted : d.states = none → ∀ name, d.fallbackName? = some name →
    name = d.initial ∨ ∃ o ∈ d.operations, o.target = some name ∨ name ∈ o.rejectedFrom

/-- The protocol that a document stands for. -/
structure Describes (d : ProtocolDocument) (p : Protocol) : Prop where
  name_eq : p.name = d.name
  trackedType_eq : p.trackedType = d.trackedType.getD d.name
  initial_eq : p.initial = ⟨d.initial⟩
  mem_states : ∀ s, s ∈ p.states ↔
    match d.states with
    | some names => s.name ∈ names
    | none => s.name = d.initial ∨ ∃ o ∈ d.operations, o.Names s.name
  rules_eq : ∀ (a : Action) (r : Rule), p.rules[a]? = some r ↔ ∃ o ∈ d.operations, o.name = a.name ∧
    ∃ name, o.target = some name ∧
      r.target = (if name.toLower = "unknown" then .unknown else .known ⟨name⟩) ∧
      ∀ s, s ∈ r.rejectedFrom ↔ s.name ∈ o.rejectedFrom
  size_rules : p.rules.size = d.operations.length
  mem_declared : ∀ a, a ∈ p.declared ↔ ∃ o ∈ d.operations, o.name = a.name
  fallback_eq : p.fallback =
    match d.fallback with
    | none => .accept .unknown
    | some ⟨.accept, none⟩ => .accept .unknown
    | some ⟨.accept, some name⟩ =>
      .accept (if name.toLower = "unknown" then .unknown else .known ⟨name⟩)
    | some ⟨.preserve, _⟩ => .preserve
    | some ⟨.reject, _⟩ => .reject

/-! ### The protocol that is built -/

/-- The protocol to which the operations are added. -/
def base (d : ProtocolDocument) : Protocol :=
  ((d.states.getD []).foldl (fun p s => p.addState ⟨s⟩)
    ((Protocol.empty d.name).withTrackedType (d.trackedType.getD d.name))).setInitial ⟨d.initial⟩

theorem exists_base_eq (d : ProtocolDocument) : ∃ states,
    d.base = ⟨d.name, d.trackedType.getD d.name, states, ⟨d.initial⟩, ∅, ∅, .accept .unknown⟩ ∧
      ∀ s, s ∈ states ↔ s.name = d.initial ∨ s.name ∈ d.states.getD [] := by
  obtain ⟨states, hfold, hstates⟩ := Protocol.foldl_addState
    ((Protocol.empty d.name).withTrackedType (d.trackedType.getD d.name)) (d.states.getD [])
  refine ⟨states.insert ⟨d.initial⟩, by rw [base, hfold]; rfl, fun s => ?_⟩
  have hinitial : (⟨d.initial⟩ : State) = s ↔ s.name = d.initial := by
    cases s
    simp [eq_comm]
  have hempty : ((Protocol.empty d.name).withTrackedType (d.trackedType.getD d.name)).states = ∅ :=
    rfl
  simp [Std.ExtTreeSet.mem_insert, hstates, hinitial, hempty]

theorem describe_eq (d : ProtocolDocument) :
    d.describe = { d.operations.foldl (fun p o => o.addTo p) d.base with
      fallback := (d.fallback.map FallbackDocument.meaning).getD (.accept .unknown) } := by
  obtain ⟨states, hbase, -⟩ := d.exists_base_eq
  obtain ⟨states', rules, declared, hfold⟩ := OperationDocument.foldl_addTo d.base d.operations
  have hdescribe : d.describe = d.fallback.elim (d.operations.foldl (fun p o => o.addTo p) d.base)
      fun f => (d.operations.foldl (fun p o => o.addTo p) d.base).setFallback f.meaning := by
    unfold describe
    cases d.fallback <;> rfl
  rw [hdescribe]
  cases d.fallback with
  | none => rw [hfold, hbase]; rfl
  | some f => rfl

theorem head_describe (d : ProtocolDocument) : d.describe.name = d.name ∧
    d.describe.trackedType = d.trackedType.getD d.name ∧ d.describe.initial = ⟨d.initial⟩ := by
  obtain ⟨states, hbase, -⟩ := d.exists_base_eq
  obtain ⟨states', rules, declared, hfold⟩ := OperationDocument.foldl_addTo d.base d.operations
  rw [describe_eq, hfold, hbase]
  exact ⟨rfl, rfl, rfl⟩

theorem mem_states_describe : s ∈ d.describe.states ↔
    s.name = d.initial ∨ s.name ∈ d.states.getD [] ∨ ∃ o ∈ d.operations, s ∈ o.mentioned := by
  obtain ⟨states, hbase, hstates⟩ := d.exists_base_eq
  rw [describe_eq, OperationDocument.mem_states_foldl_addTo, hbase, hstates, or_assoc]

theorem mem_declared_describe : a ∈ d.describe.declared ↔ ∃ o ∈ d.operations, o.name = a.name := by
  obtain ⟨states, hbase, -⟩ := d.exists_base_eq
  rw [describe_eq, OperationDocument.mem_declared_foldl_addTo, hbase]
  simp

theorem rules_base (d : ProtocolDocument) : d.base.rules = ∅ := by
  obtain ⟨states, hbase, -⟩ := d.exists_base_eq
  rw [hbase]

theorem rules_describe (h : (d.operations.map OperationDocument.name).Nodup) (a : Action)
    (r : Rule) : d.describe.rules[a]? = some r ↔
      ∃ o ∈ d.operations, o.name = a.name ∧ o.rule? = some r := by
  rw [describe_eq]
  exact OperationDocument.rules_foldl_addTo d.rules_base h a r

theorem fallback_describe (d : ProtocolDocument) :
    d.describe.fallback = (d.fallback.map FallbackDocument.meaning).getD (.accept .unknown) := by
  rw [describe_eq]

theorem fallbackName?_ne {name : String} (h : d.fallbackName? = some name) :
    name.toLower ≠ "unknown" := by
  unfold fallbackName? at h
  split at h
  · split at h
    · cases h
    · next hne =>
      obtain rfl := Option.some_inj.1 h
      exact hne
  · cases h

theorem target?_fallback :
    (d.fallback.bind fun f => f.meaning.target?) = some s ↔ d.fallbackName? = some s.name := by
  cases hfallback : d.fallback with
  | none => simp [fallbackName?, hfallback]
  | some f =>
      obtain ⟨policy, target⟩ := f
      rw [Option.bind_some, fallbackName?, hfallback]
      cases policy with
      | preserve | reject => simp [FallbackDocument.meaning, Fallback.target?]
      | accept =>
          cases target with
          | none => simp [FallbackDocument.meaning, Fallback.target?, Tracked.known?]
          | some name =>
              simp only [FallbackDocument.meaning, Fallback.target?, Option.map_some,
                Option.getD_some, Tracked.known?_ofTarget]
              by_cases hname : name.toLower = "unknown"
              · simp [hname]
              · simp [hname, eq_comm]

theorem target?_fallback_describe :
    d.describe.fallback.target? = some s ↔ d.fallbackName? = some s.name := by
  rw [fallback_describe, ← target?_fallback]
  cases d.fallback with
  | none => simp [Fallback.target?, Tracked.known?]
  | some f => simp

/-! ### The two passes -/

theorem unlisted_eq_nil_iff {use : StateUse} {used : List State} :
    d.unlisted use used = [] ↔
      ∀ names, d.states = some names → ∀ s ∈ used, s.name ∈ names := by
  cases hstates : d.states with
  | none => simp [unlisted, hstates]
  | some names => simp [unlisted, hstates]

theorem operationFaults_eq_nil_iff {earlier : List String} {os : List OperationDocument} :
    d.operationFaults earlier os = [] ↔
      (os.map OperationDocument.name).Nodup ∧ (∀ o ∈ os, o.name ∉ earlier) ∧
        ∀ names, d.states = some names → ∀ o ∈ os, ∀ s ∈ o.mentioned, s.name ∈ names := by
  induction os generalizing earlier with
  | nil => simp [operationFaults]
  | cons o os ih =>
      have hduplicate :
          (if o.name ∈ earlier then [Fault.duplicateOperation ⟨o.name⟩] else []) = [] ↔
            o.name ∉ earlier := by
        by_cases h : o.name ∈ earlier <;> simp [h]
      simp only [operationFaults, List.append_eq_nil_iff, hduplicate, unlisted_eq_nil_iff, ih]
      simp only [List.map_cons, List.nodup_cons, List.mem_cons, List.mem_map, forall_eq_or_imp,
        not_or, not_exists, not_and]
      constructor
      · rintro ⟨⟨hnew, hlisted⟩, hnodup, hearlier, hrest⟩
        exact ⟨⟨fun o' ho' => (hearlier o' ho').1, hnodup⟩,
          ⟨hnew, fun o' ho' => (hearlier o' ho').2⟩,
          fun names hnames => ⟨hlisted names hnames, hrest names hnames⟩⟩
      · rintro ⟨⟨hfresh, hnodup⟩, ⟨hnew, hearlier⟩, hlisted⟩
        exact ⟨⟨hnew, fun names hnames => (hlisted names hnames).1⟩, hnodup,
          fun o' ho' => ⟨hfresh o' ho', hearlier o' ho'⟩,
          fun names hnames => (hlisted names hnames).2⟩

theorem faults_eq_nil_iff :
    d.faults = [] ↔ (d.operations.map OperationDocument.name).Nodup ∧
      ∀ names, d.states = some names → d.initial ∈ names ∧
        (∀ o ∈ d.operations, ∀ s ∈ o.mentioned, s.name ∈ names) ∧
        ∀ name, d.fallbackName? = some name → name ∈ names := by
  have hfallback : ∀ names : List String,
      (∀ s ∈ (d.fallback.bind fun f => f.meaning.target?).toList, s.name ∈ names) ↔
        ∀ name, d.fallbackName? = some name → name ∈ names := by
    intro names
    simp only [Option.mem_toList, target?_fallback]
    exact ⟨fun h name hname => h ⟨name⟩ hname, fun h s hs => h s.name hs⟩
  simp only [faults, List.append_eq_nil_iff, unlisted_eq_nil_iff, operationFaults_eq_nil_iff,
    hfallback]
  constructor
  · rintro ⟨⟨hinitial, hnodup, -, hoperations⟩, hnames⟩
    exact ⟨hnodup, fun names h =>
      ⟨hinitial names h ⟨d.initial⟩ (by simp), hoperations names h, hnames names h⟩⟩
  · rintro ⟨hnodup, h⟩
    exact ⟨⟨fun names hnames => by simpa using (h names hnames).1, hnodup, by simp,
      fun names hnames => (h names hnames).2.1⟩, fun names hnames => (h names hnames).2.2⟩

theorem name_ne_of_valid (h : d.describe.Valid) {name : String}
    (hname : ⟨name⟩ ∈ d.describe.states) : name.toLower ≠ "unknown" := by
  simpa [State.isReserved] using h.not_reserved ⟨name⟩ hname

/-- An operation without a target is declared and has no rule. -/
theorem target_isSome_of_valid (hnodup : (d.operations.map OperationDocument.name).Nodup)
    (h : d.describe.Valid) {o : OperationDocument} (ho : o ∈ d.operations) : o.target.isSome := by
  have hrule := h.rule_of_declared ⟨o.name⟩ (mem_declared_describe.2 ⟨o, ho, rfl⟩)
  obtain ⟨r, hr⟩ := Option.isSome_iff_exists.1 (Std.ExtTreeMap.isSome_getElem?_iff_mem.2 hrule)
  obtain ⟨o', ho', hname, hrule'⟩ := (rules_describe hnodup _ r).1 hr
  -- Names are distinct, so the rule comes from this operation and not from another of its name.
  obtain rfl := List.inj_on_of_nodup_map hnodup ho' ho hname
  obtain ⟨name, htarget, -⟩ := Option.map_eq_some_iff.1 hrule'
  simp [htarget]

theorem Acceptable.of_valid (hfaults : d.faults = []) (h : d.describe.Valid) : d.Acceptable := by
  obtain ⟨hnodup, hlisted⟩ := faults_eq_nil_iff.1 hfaults
  have htarget : ∀ o ∈ d.operations, o.target.isSome := fun o ho =>
    target_isSome_of_valid hnodup h ho
  refine ⟨hnodup, htarget, ?_, ?_, ?_, ?_, ?_⟩
  · exact name_ne_of_valid h (mem_states_describe.2 (.inl rfl))
  · intro names hnames name hname
    exact name_ne_of_valid h (mem_states_describe.2 (.inr (.inl (by simpa [hnames] using hname))))
  · intro o ho name hname
    have hmentioned : ⟨name⟩ ∈ o.mentioned :=
      OperationDocument.mem_mentioned.2 ⟨htarget o ho, .inr hname⟩
    exact name_ne_of_valid h (mem_states_describe.2 (.inr (.inr ⟨o, ho, hmentioned⟩)))
  · intro names hnames
    obtain ⟨hinitial, hoperations, hfallback⟩ := hlisted names hnames
    exact ⟨hinitial, fun o ho name hname => hoperations o ho ⟨name⟩
      (OperationDocument.mem_mentioned.2 ⟨htarget o ho, hname⟩), hfallback⟩
  · intro hnone name hname
    have hmem := h.fallback_mem ⟨name⟩ (target?_fallback_describe.2 hname)
    rw [mem_states_describe, hnone] at hmem
    rcases hmem with hinitial | hlist | ⟨o, ho, hmentioned⟩
    · exact .inl hinitial
    · simp at hlist
    · refine .inr ⟨o, ho, ?_⟩
      exact (OperationDocument.mem_mentioned.1 hmentioned).2.imp_left And.left

namespace Acceptable

variable (h : d.Acceptable)

include h

theorem mem_mentioned {o : OperationDocument} (ho : o ∈ d.operations) :
    s ∈ o.mentioned ↔ o.Names s.name := by
  rw [OperationDocument.mem_mentioned, and_iff_right (h.target_isSome o ho)]

theorem faults_eq_nil : d.faults = [] := by
  refine faults_eq_nil_iff.2 ⟨h.nodup_names, fun names hnames => ?_⟩
  obtain ⟨hinitial, hoperations, hfallback⟩ := h.mem_of_listed names hnames
  exact ⟨hinitial, fun o ho s hs => hoperations o ho s.name ((h.mem_mentioned ho).1 hs),
    hfallback⟩

theorem mem_states (s : State) : s ∈ d.describe.states ↔
    match d.states with
    | some names => s.name ∈ names
    | none => s.name = d.initial ∨ ∃ o ∈ d.operations, o.Names s.name := by
  have hmentioned : (∃ o ∈ d.operations, s ∈ o.mentioned) ↔
      ∃ o ∈ d.operations, o.Names s.name :=
    exists_congr fun o => and_congr_right fun ho => h.mem_mentioned ho
  rw [mem_states_describe, hmentioned]
  cases hstates : d.states with
  | none => simp
  | some names =>
      -- Whatever else names a state names a listed one.
      obtain ⟨hinitial, hoperations, -⟩ := h.mem_of_listed names hstates
      rw [Option.getD_some]
      constructor
      · rintro (hs | hs | ⟨o, ho, hs⟩)
        · rwa [hs]
        · exact hs
        · exact hoperations o ho s.name hs
      · exact fun hs => .inr (.inl hs)

theorem not_reserved (hs : s ∈ d.describe.states) : s.isReserved = false := by
  suffices s.name.toLower ≠ "unknown" by simpa [State.isReserved] using this
  rcases mem_states_describe.1 hs with hs | hs | ⟨o, ho, hs⟩
  · rw [hs]
    exact h.initial_ne
  · cases hstates : d.states with
    | none => simp [hstates] at hs
    | some names => exact h.listed_ne names hstates s.name (by simpa [hstates] using hs)
  · rcases (h.mem_mentioned ho).1 hs with ⟨-, hne⟩ | hrejected
    · exact hne
    · exact h.rejecting_ne o ho s.name hrejected

theorem fallback_mem (hs : d.fallbackName? = some s.name) : s ∈ d.describe.states := by
  rw [h.mem_states]
  cases hstates : d.states with
  | some names => exact (h.mem_of_listed names hstates).2.2 s.name hs
  | none =>
      rcases h.fallback_of_unlisted hstates s.name hs with hinitial | ⟨o, ho, htarget | hrejected⟩
      · exact .inl hinitial
      · exact .inr ⟨o, ho, .inl ⟨htarget, fallbackName?_ne hs⟩⟩
      · exact .inr ⟨o, ho, .inr hrejected⟩

theorem valid : d.describe.Valid where
  not_reserved _ hs := h.not_reserved hs
  initial_mem := mem_states_describe.2 (.inl (by rw [d.head_describe.2.2]))
  rule_mem a r hr s hs := by
    obtain ⟨o, ho, -, hrule⟩ := (rules_describe h.nodup_names a r).1 hr
    rw [OperationDocument.mem_mentioned_rule hrule] at hs
    exact mem_states_describe.2 (.inr (.inr ⟨o, ho, hs⟩))
  fallback_mem s hs := h.fallback_mem (target?_fallback_describe.1 hs)
  rule_of_declared a ha := by
    obtain ⟨o, ho, hname⟩ := mem_declared_describe.1 ha
    obtain ⟨name, htarget⟩ := Option.isSome_iff_exists.1 (h.target_isSome o ho)
    have hrule := (rules_describe h.nodup_names a _).2 ⟨o, ho, hname, by
      rw [OperationDocument.rule?, htarget]; rfl⟩
    exact Std.ExtTreeMap.isSome_getElem?_iff_mem.1 (by simp [hrule])

theorem describes : d.Describes d.describe where
  name_eq := d.head_describe.1
  trackedType_eq := d.head_describe.2.1
  initial_eq := d.head_describe.2.2
  mem_states := h.mem_states
  rules_eq a r := by
    simp only [rules_describe h.nodup_names, OperationDocument.rule?_eq_some]
  size_rules := by
    rw [describe_eq]
    exact OperationDocument.size_rules_foldl_addTo d.rules_base h.nodup_names h.target_isSome
  mem_declared _ := mem_declared_describe
  fallback_eq := by
    rw [fallback_describe]
    cases d.fallback with
    | none => rfl
    | some f =>
        obtain ⟨policy, target⟩ := f
        cases policy with
        | preserve | reject => rfl
        | accept =>
            cases target with
            | none => rfl
            | some name => simp [FallbackDocument.meaning, Tracked.ofTarget_eq]

end Acceptable

/-- A document stands for one protocol only. -/
theorem Describes.unique {q : Protocol} (hp : d.Describes p) (hq : d.Describes q) : p = q := by
  have hstates : p.states = q.states :=
    Std.ExtTreeSet.ext_mem fun s => (hp.mem_states s).trans (hq.mem_states s).symm
  have hrules : p.rules = q.rules := by
    refine Std.ExtTreeMap.ext_getElem? fun a => Option.ext fun r => ?_
    exact (hp.rules_eq a r).trans (hq.rules_eq a r).symm
  have hdeclared : p.declared = q.declared :=
    Std.ExtTreeSet.ext_mem fun a => (hp.mem_declared a).trans (hq.mem_declared a).symm
  cases p
  cases q
  simp only at hstates hrules hdeclared
  rw [Protocol.mk.injEq]
  exact ⟨hp.name_eq.trans hq.name_eq.symm, hp.trackedType_eq.trans hq.trackedType_eq.symm,
    hstates, hp.initial_eq.trans hq.initial_eq.symm, hrules, hdeclared,
    hp.fallback_eq.trans hq.fallback_eq.symm⟩

theorem build_eq_ok_iff :
    d.build = .ok p ↔ d.faults = [] ∧ d.describe.Valid ∧ d.describe = p := by
  rw [← Protocol.validate_eq_ok_iff, build]
  cases d.faults with
  | cons f fs => simp
  | nil => cases d.describe.validate <;> simp [bind, Except.bind, pure, Except.pure]

theorem malformed_notMem_unlisted (d : ProtocolDocument) (use : StateUse) (used : List State)
    (cause : String) : .malformed cause ∉ d.unlisted use used := by
  cases hstates : d.states <;> simp [unlisted, hstates]

theorem malformed_notMem_operationFaults (d : ProtocolDocument) (earlier : List String)
    (os : List OperationDocument) (cause : String) :
    .malformed cause ∉ d.operationFaults earlier os := by
  induction os generalizing earlier with
  | nil => simp [operationFaults]
  | cons o os ih =>
      have hduplicate : .malformed cause ∉
          if o.name ∈ earlier then [Fault.duplicateOperation ⟨o.name⟩] else [] := by
        split <;> simp
      simp [operationFaults, hduplicate, malformed_notMem_unlisted, ih]

/-- Only texts are malformed, never documents. -/
theorem build_ne_malformed (d : ProtocolDocument) (cause : String) :
    d.build ≠ .error (.malformed cause) := by
  intro hbuild
  unfold build at hbuild
  cases hfaults : d.faults with
  | cons f fs =>
      obtain rfl : f = .malformed cause := by simpa [hfaults] using hbuild
      have hmem : .malformed cause ∈ d.faults := hfaults ▸ List.mem_cons_self
      simp [faults, malformed_notMem_unlisted, malformed_notMem_operationFaults] at hmem
  | nil =>
      rw [hfaults] at hbuild
      cases hvalidate : d.describe.validate with
      | error f =>
          obtain rfl : f = .malformed cause := by simpa [hvalidate, bind, Except.bind] using hbuild
          exact d.describe.malformed_notMem_faults cause (Protocol.mem_faults_of_validate hvalidate)
      | ok _ => simp [hvalidate, bind, Except.bind, pure, Except.pure] at hbuild

/-- A document is accepted exactly if it is acceptable, and then the protocol is the one that it
describes. -/
theorem build_exact (d : ProtocolDocument) :
    ((∃ p, d.build = .ok p) ↔ d.Acceptable) ∧
      ∀ p, d.build = .ok p ↔ d.Acceptable ∧ d.Describes p := by
  have hbuild : ∀ p, d.build = .ok p ↔ d.Acceptable ∧ d.Describes p := by
    intro p
    rw [build_eq_ok_iff]
    constructor
    · rintro ⟨hfaults, hvalid, rfl⟩
      have h := Acceptable.of_valid hfaults hvalid
      exact ⟨h, h.describes⟩
    · rintro ⟨h, hp⟩
      exact ⟨h.faults_eq_nil, h.valid, h.describes.unique hp⟩
  refine ⟨⟨?_, fun h => ⟨d.describe, (hbuild _).2 ⟨h, h.describes⟩⟩⟩, hbuild⟩
  rintro ⟨p, hp⟩
  exact ((hbuild p).1 hp).1

end ProtocolDocument

end Typestate

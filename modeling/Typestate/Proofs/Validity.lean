import Typestate.Protocol.Fault

/-!
Valid protocols. `Protocol.Valid` says what validation asks of a protocol without the order in
which it looks for faults; a protocol is accepted exactly if it is valid (`validate_eq_ok_iff`).
-/

namespace Typestate.Protocol

/-- No state has a reserved name, every state in use is declared and every declared operation has
a rule. -/
structure Valid (p : Protocol) : Prop where
  not_reserved : ∀ s ∈ p.states, s.isReserved = false
  initial_mem : p.initial ∈ p.states
  rule_mem : ∀ (a : Action) (r : Rule), p.rules[a]? = some r → ∀ s ∈ r.mentioned, s ∈ p.states
  fallback_mem : ∀ s, p.fallback.target? = some s → s ∈ p.states
  rule_of_declared : ∀ a ∈ p.declared, a ∈ p.rules

variable {p : Protocol}

theorem undeclared_eq_nil_iff {use : StateUse} {used : List State} :
    p.undeclared use used = [] ↔ ∀ s ∈ used, s ∈ p.states := by
  simp [undeclared]

theorem reserved_eq_nil_iff :
    p.states.toList.filter State.isReserved = [] ↔ ∀ s ∈ p.states, s.isReserved = false := by
  simp [List.filter_eq_nil_iff]

theorem missing_eq_nil_iff :
    p.declared.toList.filter (!p.rules.contains ·) = [] ↔ ∀ a ∈ p.declared, a ∈ p.rules := by
  simp [List.filter_eq_nil_iff]

theorem flatMap_rules_eq_nil_iff {f : Action × Rule → List Fault} :
    p.rules.toList.flatMap f = [] ↔ ∀ a r, p.rules[a]? = some r → f (a, r) = [] := by
  simp [List.flatMap_eq_nil_iff]

theorem faults_eq_nil_iff : p.faults = [] ↔ p.Valid := by
  simp only [faults, List.append_eq_nil_iff, List.map_eq_nil_iff, undeclared_eq_nil_iff,
    reserved_eq_nil_iff, missing_eq_nil_iff, flatMap_rules_eq_nil_iff]
  constructor
  · rintro ⟨⟨⟨⟨hreserved, hinitial⟩, hrules⟩, hfallback⟩, hmissing⟩
    exact ⟨hreserved, hinitial _ (by simp), hrules, fun s hs => hfallback s (by simp [hs]),
      hmissing⟩
  · intro h
    refine ⟨⟨⟨⟨h.not_reserved, ?_⟩, h.rule_mem⟩, ?_⟩, h.rule_of_declared⟩
    · simpa using h.initial_mem
    · simpa using h.fallback_mem

theorem validate_eq_ok_iff : p.validate = .ok () ↔ p.Valid := by
  rw [← faults_eq_nil_iff, validate]
  cases p.faults <;> simp

theorem mem_faults_of_validate {f : Fault} (hf : p.validate = .error f) : f ∈ p.faults := by
  unfold validate at hf
  cases hfaults : p.faults with
  | nil => simp [hfaults] at hf
  | cons f' fs =>
      obtain rfl : f' = f := by simpa [hfaults] using hf
      exact List.mem_cons_self

theorem malformed_notMem_faults (p : Protocol) (cause : String) :
    .malformed cause ∉ p.faults := by
  simp [faults, undeclared]

end Typestate.Protocol

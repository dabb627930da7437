import Typestate.Proofs.Verdict

/-!
Calls that are reported and calls that are skipped. Which of the two happens at a node, if any, is
decided by the content of the node and by the state of the handle that it calls; the number of the
node only goes into the record. The more is known before a node, the more is reported there and the
less is skipped.
-/

namespace Typestate

theorem Protocol.output_call {p : Protocol} (n n' : Nat) (span : Option Span) (c : Call)
    (m : Assignment) : (p.call n span c m).output = (p.call n' span c m).output := by
  cases hs : m.state p.initial c.handle with
  | unknown => rw [call_of_unknown hs, call_of_unknown hs]
  | known s =>
      cases ht : (p.transition s c.action).accepted with
      | true => rw [call_of_accepted hs ht, call_of_accepted hs ht]
      | false => rw [call_of_rejected hs ht, call_of_rejected hs ht]

namespace Checker

variable {c : Checker} {g g' : Graph} {seed : Assignment} {n n' : Nat} {x y : Flow} {v : Violation}
  {call : Call}

/-- The call that is not judged at a node if the given value stands before it. -/
def skip? (c : Checker) (g : Graph) (n : Nat) (x : Flow) : Option Call :=
  (c.outcome g n x).verdict.suppressed?

/-- The calls that an analysis does not judge, each with its node. -/
def skipped (c : Checker) (g : Graph) (seed : Assignment) : List (Nat × Call) :=
  (c.analyze g seed).findings.filterMap fun f =>
    f.outcome.verdict.suppressed?.map fun call => (f.node, call)

theorem length_skipped (c : Checker) (g : Graph) (seed : Assignment) :
    (c.skipped g seed).length = (c.check g seed).stats.suppressedCalls := by
  have hcalls : (c.skipped g seed).map Prod.snd =
      (c.analyze g seed).findings.filterMap fun f => f.outcome.verdict.suppressed? := by
    rw [skipped, List.map_filterMap]
    apply List.filterMap_congr
    intro f _
    simp
  rw [← List.length_map (f := Prod.snd), hcalls]
  rfl

/-- A call is skipped exactly if the state of its handle is unknown. -/
theorem skip?_eq_some :
    c.skip? g n x = some call ↔
      c.call? g n = some call ∧ x.state? c.protocol.initial call.handle = some .unknown := by
  unfold skip?
  cases hnode : g.nodes[n]? with
  | none => simp [outcome_of_node_eq_none hnode, call?, hnode, Verdict.suppressed?]
  | some node =>
      rw [outcome_of_node hnode, Protocol.transfer_suppressed_iff, call?, hnode, Option.bind_some]

/-- The skipped calls are those of the reachable nodes, in reverse postorder. -/
theorem skipped_eq (c : Checker) (g : Graph) (seed : Assignment) :
    c.skipped g seed = g.reversePostorder.filterMap fun n =>
      (c.skip? g n (c.before g seed n)).map fun call => (n, call) :=
  filterMap_findings fun _ _ _ => rfl

theorem mem_skipped :
    (n, call) ∈ c.skipped g seed ↔ c.skip? g n (c.before g seed n) = some call := by
  rw [skipped_eq, List.mem_filterMap]
  constructor
  · rintro ⟨m, -, hskip⟩
    obtain ⟨call', hcall', heq⟩ := Option.map_eq_some_iff.1 hskip
    obtain ⟨rfl, rfl⟩ := Prod.mk.inj heq
    exact hcall'
  · intro hskip
    refine ⟨n, Graph.mem_reversePostorder.2 ?_, by rw [hskip]; rfl⟩
    by_contra hn
    obtain ⟨-, hunknown⟩ := skip?_eq_some.1 hskip
    simp [before_eq_unreachable_iff.2 hn] at hunknown

/-! ### Equal nodes -/

theorem call?_of_node_eq (c : Checker) (hnode : g'.nodes[n']? = g.nodes[n]?) :
    c.call? g' n' = c.call? g n := by
  unfold call?
  rw [hnode]

/-- The value after a node does not depend on the number of the node. -/
theorem output_of_node_eq (c : Checker) (hnode : g'.nodes[n']? = g.nodes[n]?) (x : Flow) :
    (c.outcome g' n' x).output = (c.outcome g n x).output := by
  unfold outcome
  rw [hnode]
  cases g.nodes[n]? with
  | none => rfl
  | some node =>
      cases x with
      | unreachable => rfl
      | reached m =>
          simp only [Protocol.transfer]
          cases c.resolve node with
          | none => rfl
          | some call => exact Protocol.output_call n' n node.span call m

/-- What is reported at a node with another number differs in this number. -/
theorem report?_renumber (c : Checker) (π : Nat → Nat) (hnode : g'.nodes[π n]? = g.nodes[n]?)
    (hfile : g'.file = g.file) (x : Flow) :
    c.report? g' (π n) x = (c.report? g n x).map fun v => { v with node := π v.node } := by
  apply Option.ext
  intro v
  simp only [Option.map_eq_some_iff, report?_eq_some, hnode, hfile]
  constructor
  · rintro ⟨node, call, s, hnode, hresolve, hs, ht, rfl⟩
    exact ⟨_, ⟨node, call, s, hnode, hresolve, hs, ht, rfl⟩, rfl⟩
  · rintro ⟨w, ⟨node, call, s, hnode, hresolve, hs, ht, rfl⟩, rfl⟩
    exact ⟨node, call, s, hnode, hresolve, hs, ht, rfl⟩

theorem outcome_congr (c : Checker) (hnode : g'.nodes[n]? = g.nodes[n]?) (x : Flow) :
    c.outcome g' n x = c.outcome g n x := by
  unfold outcome
  rw [hnode]

theorem report?_congr (c : Checker) (hnode : g'.nodes[n]? = g.nodes[n]?)
    (hfile : g'.file = g.file) (x : Flow) : c.report? g' n x = c.report? g n x := by
  unfold report?
  rw [c.outcome_congr hnode, hfile]

theorem skip?_of_node_eq (c : Checker) (hnode : g'.nodes[n']? = g.nodes[n]?) (x : Flow) :
    c.skip? g' n' x = c.skip? g n x := by
  apply Option.ext
  intro call
  rw [skip?_eq_some, skip?_eq_some, c.call?_of_node_eq hnode]

/-! ### Larger values -/

/-- What is reported on a value is reported on every reached value below it. -/
theorem report?_of_under (hxy : x.Under c.protocol.initial y) (hx : x ≠ .unreachable)
    (hv : c.report? g n y = some v) : c.report? g n x = some v := by
  obtain ⟨w, hw, rfl⟩ := Option.map_eq_some_iff.1 hv
  rw [Verdict.violation?_eq_some] at hw
  have hrejected : (c.outcome g n x).verdict = .rejected w := by
    cases hnode : g.nodes[n]? with
    | none => simp [outcome_of_node_eq_none hnode] at hw
    | some node =>
        rw [outcome_of_node hnode] at hw ⊢
        exact Protocol.transfer_rejected_of_under hxy hx hw
  rw [report?, Verdict.violation?_eq_some.2 hrejected, Option.map_some]

/-- What is skipped on a value is skipped on every value above it. -/
theorem skip?_of_under (hxy : x.Under c.protocol.initial y) (hskip : c.skip? g n x = some call) :
    c.skip? g n y = some call := by
  obtain ⟨hcall, hunknown⟩ := skip?_eq_some.1 hskip
  exact skip?_eq_some.2 ⟨hcall, (hxy call.handle _ hunknown).elim id id⟩

end Checker

end Typestate

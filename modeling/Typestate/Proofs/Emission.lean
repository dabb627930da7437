import Typestate.Proofs.Findings

/-!
What is emitted, and to whom. However often the worklist visits a node, the report has one record
for each refused call, on the solved value before the node and in reverse postorder. The tracked
calls at reachable nodes (`Checker.calls`) are divided into those that are refused, those that are
skipped and those that are accepted. Whoever receives the violations one by one gets the list of
the report.
-/

namespace Typestate

namespace Violation

/-- The call that was refused. -/
def call (v : Violation) : Call :=
  ⟨v.handle, v.action⟩

end Violation

namespace Verdict

def accepted? : Verdict → Option Call
  | accepted call => some call
  | quiet | suppressed _ | rejected _ => none

def refused? (v : Verdict) : Option Call :=
  v.violation?.map Violation.call

/-- The call that is judged. -/
def call? : Verdict → Option Call
  | quiet => none
  | accepted call => some call
  | suppressed call => some call
  | rejected v => some v.call

/-- A call is refused, skipped or accepted, and no two of these. -/
theorem call?_eq_or (v : Verdict) :
    v.call? = (v.refused?.or v.suppressed?).or v.accepted? ∧
      (v.refused? = none ∨ v.suppressed? = none) ∧
      (v.refused?.or v.suppressed? = none ∨ v.accepted? = none) := by
  cases v <;> simp [call?, refused?, violation?, suppressed?, accepted?]

end Verdict

/-- The violation that an event reports to the log. -/
def Event.reported? : Event → Option Violation
  | reported v => some v
  | started .. | visited .. | skipped .. | rejected _ | finished .. | batchFinished .. => none

namespace Graph

variable {g : Graph} {β : Type} {f f' f'' : Nat → Option β} {n : Nat} {x : β}

/-- What is found at the reachable nodes, each with its node, in reverse postorder. -/
def gather (g : Graph) (f : Nat → Option β) : List (Nat × β) :=
  g.reversePostorder.filterMap fun n => (f n).map fun x => (n, x)

theorem mem_gather : (n, x) ∈ g.gather f ↔ g.Reachable n ∧ f n = some x := by
  simp only [gather, List.mem_filterMap, mem_reversePostorder, Option.map_eq_some_iff,
    Prod.mk.injEq]
  constructor
  · rintro ⟨m, hm, y, hy, rfl, rfl⟩
    exact ⟨hm, hy⟩
  · rintro ⟨hn, hx⟩
    exact ⟨n, hn, x, hx, rfl, rfl⟩

theorem map_fst_gather_sublist (g : Graph) (f : Nat → Option β) :
    ((g.gather f).map Prod.fst).Sublist g.reversePostorder := by
  rw [gather, List.map_filterMap]
  generalize g.reversePostorder = ns
  induction ns with
  | nil => simp
  | cons m ns ih =>
      rw [List.filterMap_cons]
      cases f m with
      | none => exact ih.cons m
      | some y => exact ih.cons_cons m

/-- A node occurs at most once. -/
theorem nodup_map_fst_gather (g : Graph) (f : Nat → Option β) :
    ((g.gather f).map Prod.fst).Nodup :=
  g.nodup_reversePostorder.sublist (g.map_fst_gather_sublist f)

theorem nodup_gather (g : Graph) (f : Nat → Option β) : (g.gather f).Nodup :=
  (g.nodup_map_fst_gather f).of_map Prod.fst

theorem perm_gather_or (hor : ∀ n, g.Reachable n → f n = (f' n).or (f'' n))
    (hdisjoint : ∀ n, g.Reachable n → f' n = none ∨ f'' n = none) :
    (g.gather f' ++ g.gather f'').Perm (g.gather f) := by
  have hnodup : (g.gather f' ++ g.gather f'').Nodup := by
    refine List.nodup_append.2 ⟨g.nodup_gather f', g.nodup_gather f'', ?_⟩
    rintro ⟨n, x⟩ hx _ hy rfl
    obtain ⟨hn, hx⟩ := mem_gather.1 hx
    obtain ⟨-, hy⟩ := mem_gather.1 hy
    rcases hdisjoint n hn with hnone | hnone
    · simp [hx] at hnone
    · simp [hy] at hnone
  refine (List.perm_ext_iff_of_nodup hnodup (g.nodup_gather f)).2 ?_
  rintro ⟨n, x⟩
  rw [List.mem_append, mem_gather, mem_gather, mem_gather, ← and_or_left]
  apply and_congr_right
  intro hn
  rw [hor n hn]
  rcases hdisjoint n hn with hnone | hnone
  · simp [hnone]
  · simp [hnone]

end Graph

theorem Protocol.call?_verdict_call (p : Protocol) (n : Nat) (span : Option Span) (c : Call)
    (m : Assignment) : (p.call n span c m).verdict.call? = some c := by
  cases hs : m.state p.initial c.handle with
  | unknown => simp [call_of_unknown hs, Verdict.call?]
  | known s =>
      cases ht : (p.transition s c.action).accepted with
      | true => simp [call_of_accepted hs ht, Verdict.call?]
      | false => simp [call_of_rejected hs ht, Verdict.call?, Violation.call]

theorem Protocol.accepted?_call {p : Protocol} {n : Nat} {span : Option Span} {c d : Call}
    {m : Assignment} :
    (p.call n span c m).verdict.accepted? = some d ↔
      c = d ∧ ∃ s, m.state p.initial c.handle = .known s ∧
        (p.transition s c.action).accepted = true := by
  cases hs : m.state p.initial c.handle with
  | unknown => simp [call_of_unknown hs, Verdict.accepted?]
  | known s =>
      cases ht : (p.transition s c.action).accepted with
      | true => simp [call_of_accepted hs ht, Verdict.accepted?, ht]
      | false => simp [call_of_rejected hs ht, Verdict.accepted?, ht]

theorem Collector.received_reportAll (sink : Collector) (vs : List Violation) :
    (sink.reportAll vs).received = sink.received ++ vs := by
  induction vs generalizing sink with
  | nil => simp [reportAll]
  | cons v vs ih =>
      rw [reportAll, List.foldl_cons, ← reportAll, ih, report, List.append_assoc]
      rfl

namespace Checker

variable {c : Checker} {g : Graph} {seed : Assignment} {n : Nat} {x : Flow} {call : Call}

/-! ### Records -/

/-- The record of a refused call: the node calls an operation on a handle that is in a known state,
and the protocol refuses the operation in it. -/
def refusal? (c : Checker) (g : Graph) (n : Nat) (x : Flow) : Option Violation := do
  let node ← g.nodes[n]?
  let call ← c.resolve node
  let state ← x.state? c.protocol.initial call.handle
  let s ← state.known?
  let t := c.protocol.transition s call.action
  if t.accepted then none
  else some ⟨call.handle, n, node.span, g.file, call.action, t.next, s⟩

theorem report?_eq_refusal? (c : Checker) (g : Graph) (n : Nat) (x : Flow) :
    c.report? g n x = c.refusal? g n x := by
  apply Option.ext
  intro v
  rw [report?_eq_some]
  simp only [refusal?, Option.bind_eq_bind, Option.bind_eq_some_iff]
  constructor
  · rintro ⟨node, call, s, hnode, hresolve, hs, ht, rfl⟩
    exact ⟨node, hnode, call, hresolve, .known s, hs, s, rfl, by simp [ht]⟩
  · rintro ⟨node, hnode, call, hresolve, state, hstate, s, hs, hv⟩
    obtain rfl : state = .known s := by
      cases state <;> simp_all [Tracked.known?]
    cases ht : (c.protocol.transition s call.action).accepted with
    | true => simp [ht] at hv
    | false => exact ⟨node, call, s, hnode, hresolve, hstate, ht, by simpa [ht, eq_comm] using hv⟩

theorem map_node_violations (c : Checker) (g : Graph) (seed : Assignment) :
    (c.check g seed).violations.map Violation.node =
      (g.gather fun n => c.report? g n (c.before g seed n)).map Prod.fst := by
  rw [violations_check, Graph.gather, List.map_filterMap, List.map_filterMap]
  apply List.filterMap_congr
  intro n _
  cases hreport : c.report? g n (c.before g seed n) with
  | none => rfl
  | some v => simp [node_of_report? hreport]

theorem nodup_key_violations (c : Checker) (g : Graph) (seed : Assignment) :
    ((c.check g seed).violations.map Violation.key).Nodup := by
  have hnodup : (((c.check g seed).violations.map Violation.key).map fun k => k.2.1).Nodup := by
    rw [List.map_map]
    change ((c.check g seed).violations.map Violation.node).Nodup
    rw [map_node_violations]
    exact g.nodup_map_fst_gather _
  exact hnodup.of_map _

/-! ### Calls -/

/-- The tracked calls at reachable nodes, each with its node. -/
def calls (c : Checker) (g : Graph) : List (Nat × Call) :=
  g.gather (c.call? g)

/-- The calls that an analysis accepts, each with its node. -/
def accepted (c : Checker) (g : Graph) (seed : Assignment) : List (Nat × Call) :=
  (c.analyze g seed).findings.filterMap fun f =>
    f.outcome.verdict.accepted?.map fun call => (f.node, call)

/-- A reached node is judged on the call that it makes. -/
theorem call?_verdict (hx : x ≠ .unreachable) :
    (c.outcome g n x).verdict.call? = c.call? g n := by
  cases x with
  | unreachable => exact absurd rfl hx
  | reached m =>
      cases hcall : c.call? g n with
      | none => rw [outcome_of_call_eq_none hcall, Verdict.call?]
      | some call =>
          obtain ⟨node, hnode, hresolve⟩ := call?_eq_some.1 hcall
          rw [outcome_of_call hnode hresolve, Protocol.call?_verdict_call]

theorem accepted_eq_gather (c : Checker) (g : Graph) (seed : Assignment) :
    c.accepted g seed =
      g.gather fun n => (c.outcome g n (c.before g seed n)).verdict.accepted? :=
  filterMap_findings fun _ _ _ => rfl

theorem refused_eq_gather (c : Checker) (g : Graph) (seed : Assignment) :
    (c.check g seed).violations.map (fun v => (v.node, v.call)) =
      g.gather fun n => (c.outcome g n (c.before g seed n)).verdict.refused? := by
  rw [violations_check, Graph.gather, List.map_filterMap]
  apply List.filterMap_congr
  intro n _
  cases hverdict : (c.outcome g n (c.before g seed n)).verdict with
  | rejected v =>
      obtain ⟨node, call, s, -, -, -, -, rfl⟩ := outcome_rejected_iff.1 hverdict
      simp [report?, hverdict, Verdict.refused?, Verdict.violation?, Violation.call]
  | quiet | accepted | suppressed =>
      simp [report?, hverdict, Verdict.refused?, Verdict.violation?]

/-- Every call is counted once. -/
theorem perm_calls (c : Checker) (g : Graph) (seed : Assignment) :
    ((c.check g seed).violations.map (fun v => (v.node, v.call)) ++ c.skipped g seed ++
      c.accepted g seed).Perm (c.calls g) := by
  let verdict (n : Nat) : Verdict := (c.outcome g n (c.before g seed n)).verdict
  have hjudged : (g.gather (fun n => (verdict n).refused?) ++
      g.gather (fun n => (verdict n).suppressed?)).Perm
        (g.gather fun n => (verdict n).refused?.or (verdict n).suppressed?) :=
    Graph.perm_gather_or (fun _ _ => rfl) fun n _ => (verdict n).call?_eq_or.2.1
  have hcalls : (g.gather (fun n => (verdict n).refused?.or (verdict n).suppressed?) ++
      g.gather (fun n => (verdict n).accepted?)).Perm (c.calls g) := by
    refine Graph.perm_gather_or (fun n hn => ?_) fun n _ => (verdict n).call?_eq_or.2.2
    rw [← (verdict n).call?_eq_or.1, call?_verdict (before_ne_unreachable_iff.2 hn)]
  have hskipped : c.skipped g seed = g.gather fun n => (verdict n).suppressed? :=
    c.skipped_eq g seed
  rw [refused_eq_gather, hskipped, accepted_eq_gather]
  exact (hjudged.append_right _).trans hcalls

theorem mem_accepted :
    (n, call) ∈ c.accepted g seed ↔ c.call? g n = some call ∧
      ∃ s, (c.before g seed n).state? c.protocol.initial call.handle = some (.known s) ∧
        (c.protocol.transition s call.action).accepted = true := by
  rw [accepted_eq_gather, Graph.mem_gather]
  cases hbefore : c.before g seed n with
  | unreachable => simp [Verdict.accepted?]
  | reached m =>
      have hn : g.Reachable n := (c.admissible_before g seed n).reachable (by simp [hbefore])
      cases hcall : c.call? g n with
      | none => simp [outcome_of_call_eq_none hcall, Verdict.accepted?]
      | some call' =>
          obtain ⟨node, hnode, hresolve⟩ := call?_eq_some.1 hcall
          rw [outcome_of_call hnode hresolve, Protocol.accepted?_call]
          constructor
          · rintro ⟨-, rfl, s, hs, ht⟩
            exact ⟨rfl, s, congrArg some hs, ht⟩
          · rintro ⟨⟨rfl⟩, s, hs, ht⟩
            exact ⟨hn, rfl, s, Option.some_inj.1 hs, ht⟩

/-- The skipped calls are those on handles in an unknown state. -/
theorem skipped_eq_filter (c : Checker) (g : Graph) (seed : Assignment) :
    c.skipped g seed = (c.calls g).filter fun s =>
      (c.before g seed s.1).state? c.protocol.initial s.2.handle = some .unknown := by
  rw [skipped_eq, calls, Graph.gather, List.filter_filterMap]
  apply List.filterMap_congr
  intro n _
  apply Option.ext
  rintro ⟨m, call⟩
  simp only [Option.map_eq_some_iff, Option.filter_eq_some_iff, skip?_eq_some, decide_eq_true_eq,
    Prod.mk.injEq]
  constructor
  · rintro ⟨call, ⟨hcall, hunknown⟩, rfl, rfl⟩
    exact ⟨⟨call, hcall, rfl, rfl⟩, hunknown⟩
  · rintro ⟨⟨call, hcall, rfl, rfl⟩, hunknown⟩
    exact ⟨call, ⟨hcall, hunknown⟩, rfl, rfl⟩

/-! ### Receivers -/

/-- To report the findings one by one is to report their violations. -/
theorem foldl_reportFinding {σ : Type} (report : σ → Violation → σ) (file : Option String)
    (fs : List Finding) (receiver : σ) :
    fs.foldl (reportFinding report file) receiver =
      (violations file fs).foldl report receiver := by
  rw [violations, List.foldl_filterMap]
  congr 1
  funext s f
  cases h : f.outcome.verdict.violation? <;> simp [reportFinding, h]

theorem checkReporting_eq {σ : Type} (c : Checker) (report : σ → Violation → σ) (g : Graph)
    (seed : Assignment) (receiver : σ) :
    c.checkReporting report g seed receiver =
      (c.check g seed, (c.check g seed).violations.foldl report receiver) :=
  congrArg (Prod.mk _) (foldl_reportFinding report g.file _ receiver)

theorem received_checkInto (c : Checker) (g : Graph) (seed : Assignment) (sink : Collector) :
    (c.checkInto g seed sink).2.received = sink.received ++ (c.check g seed).violations := by
  rw [checkInto, checkReporting_eq]
  exact sink.received_reportAll _

/-- The log of a checker that reports to it shows the violations. -/
theorem reported_events (c : Checker) (g : Graph) (seed : Assignment) :
    (c.events g (c.analyze g seed) true).filterMap Event.reported? =
      (c.check g seed).violations := by
  have hfinding : ∀ f : Finding, (findingEvents g.file true f).filterMap Event.reported? =
      (f.outcome.verdict.violation?.map fun v => { v with file := g.file }).toList := by
    intro f
    cases h : f.outcome.verdict with
    | rejected v => simp only [findingEvents, h]; rfl
    | quiet | accepted | suppressed =>
        simp [findingEvents, h, Verdict.violation?, Event.reported?]
  have hvisited : ((c.analyze g seed).visits.map fun v =>
      Event.visited v.node v.position v.input.handles.length).filterMap Event.reported? = [] := by
    simp [List.filterMap_eq_nil_iff, Event.reported?]
  simp only [events, List.filterMap_append, hvisited, List.filterMap_flatMap, hfinding]
  rw [← List.filterMap_eq_flatMap_toList]
  exact List.append_nil _

/-- The violations of a report are the records of the refused calls, one for each, on the values
that solve the equations and in reverse postorder. Their keys are distinct; every call is refused,
skipped or accepted and counted once, the skipped ones being those on handles in an unknown state;
and every receiver, be it a collector or the log, gets the violations of the report in their
order. -/
theorem check_emission (c : Checker) (g : Graph) (seed : Assignment) :
    c.IsSolution g seed (c.before g seed) (c.after g seed) ∧
      (c.check g seed).violations =
        g.reversePostorder.filterMap (fun n => c.refusal? g n (c.before g seed n)) ∧
      ((c.check g seed).violations.map Violation.key).Nodup ∧
      (c.calls g).Nodup ∧
      ((c.check g seed).violations.map (fun v => (v.node, v.call)) ++ c.skipped g seed ++
        c.accepted g seed).Perm (c.calls g) ∧
      (∀ n call, (n, call) ∈ c.accepted g seed ↔ c.call? g n = some call ∧
        ∃ s, (c.before g seed n).state? c.protocol.initial call.handle = some (.known s) ∧
          (c.protocol.transition s call.action).accepted = true) ∧
      (c.check g seed).stats.suppressedCalls = ((c.calls g).filter fun s =>
        (c.before g seed s.1).state? c.protocol.initial s.2.handle = some .unknown).length ∧
      (c.check g seed).stats.trackedHandles = {h | ∃ s ∈ c.calls g, s.2.handle = h}.ncard ∧
      (∀ (σ : Type) (report : σ → Violation → σ) (receiver : σ),
        c.checkReporting report g seed receiver =
          (c.check g seed, (c.check g seed).violations.foldl report receiver)) ∧
      (∀ sink, (c.checkInto g seed sink).2.snapshot =
        sink.snapshot ++ (c.check g seed).violations) ∧
      (c.events g (c.analyze g seed) true).filterMap Event.reported? =
        (c.check g seed).violations := by
  refine ⟨c.isSolution_solve g seed, ?_, c.nodup_key_violations g seed, g.nodup_gather _,
    c.perm_calls g seed, fun n call => mem_accepted, ?_, ?_,
    fun σ report => c.checkReporting_eq report g seed, c.received_checkInto g seed,
    c.reported_events g seed⟩
  · simp only [violations_check, report?_eq_refusal?]
  · rw [← length_skipped, skipped_eq_filter]
  · have hcalled : {h | ∃ s ∈ c.calls g, s.2.handle = h} = {h | c.Called g h} := by
      ext h
      simp only [calls, Prod.exists, Graph.mem_gather, Called, Set.mem_ofPred_eq, and_assoc]
    have hhandles : (c.check g seed).stats.trackedHandles = (c.tracked g).length :=
      c.size_handles g _
    rw [hcalled, hhandles, length_tracked_eq_ncard]

end Checker

end Typestate

import Typestate.Proofs.Paths

/-!
What is reported, in terms of executions. The violations of a report are read off the reachable
nodes in reverse postorder, and a call is reported exactly if all walks agree on a state in which
the protocol refuses it. `Checker.execute` runs a walk step by step with one state for each handle;
a violation that is reported comes up at the end of every such run, and where only one walk leads
to each node the report lists what the runs refuse.
-/

namespace Typestate.Checker

variable {c : Checker} {g : Graph} {seed : Assignment} {n : Nat} {x : Flow} {v : Violation}

/-! ### The violations of a report -/

/-- What is reported at a node if the given value stands before it. -/
def report? (c : Checker) (g : Graph) (n : Nat) (x : Flow) : Option Violation :=
  (c.outcome g n x).verdict.violation?.map fun v => { v with file := g.file }

/-- A node is reported exactly if the state of the handle that it calls is known and the protocol
refuses the call in it. -/
theorem report?_eq_some :
    c.report? g n x = some v ↔
      ∃ node call s, g.nodes[n]? = some node ∧ c.resolve node = some call ∧
        x.state? c.protocol.initial call.handle = some (.known s) ∧
        (c.protocol.transition s call.action).accepted = false ∧
        v = ⟨call.handle, n, node.span, g.file, call.action,
          (c.protocol.transition s call.action).next, s⟩ := by
  simp only [report?, Option.map_eq_some_iff, Verdict.violation?_eq_some, outcome_rejected_iff]
  constructor
  · rintro ⟨w, ⟨node, call, s, hnode, hresolve, hs, ht, rfl⟩, rfl⟩
    exact ⟨node, call, s, hnode, hresolve, hs, ht, rfl⟩
  · rintro ⟨node, call, s, hnode, hresolve, hs, ht, rfl⟩
    exact ⟨_, ⟨node, call, s, hnode, hresolve, hs, ht, rfl⟩, rfl⟩

theorem node_of_report? (hv : c.report? g n x = some v) : v.node = n := by
  obtain ⟨node, call, s, -, -, -, -, rfl⟩ := report?_eq_some.1 hv
  rfl

/-- What is read off the findings of an analysis is read off the reachable nodes, in reverse
postorder. -/
theorem filterMap_findings {β : Type} {f : Finding → Option β} {f' : Nat → Option β}
    (hf : ∀ n node, g.nodes[n]? = some node →
      f ⟨n, node, c.before g seed n, c.outcome g n (c.before g seed n)⟩ = f' n) :
    (c.analyze g seed).findings.filterMap f = g.reversePostorder.filterMap f' := by
  change (c.findings g (c.solve g seed).inputs).filterMap f = _
  unfold findings
  rw [List.filterMap_filterMap]
  apply List.filterMap_congr
  intro n hn
  have hlt : n < g.nodes.size := (Graph.mem_reversePostorder.1 hn).lt_size
  have hnode : g.nodes[n]? = some g.nodes[n] := Array.getElem?_eq_getElem hlt
  rw [hnode, Option.map_some, Option.bind_some]
  exact hf n _ hnode

theorem violations_check (c : Checker) (g : Graph) (seed : Assignment) :
    (c.check g seed).violations =
      g.reversePostorder.filterMap fun n => c.report? g n (c.before g seed n) :=
  filterMap_findings fun _ _ _ => rfl

theorem mem_violations_check :
    v ∈ (c.check g seed).violations ↔
      ∃ n, g.Reachable n ∧ c.report? g n (c.before g seed n) = some v := by
  simp only [violations_check, List.mem_filterMap, Graph.mem_reversePostorder]

theorem report?_node_of_mem (hv : v ∈ (c.check g seed).violations) :
    g.Reachable v.node ∧ c.report? g v.node (c.before g seed v.node) = some v := by
  obtain ⟨n, hn, hreport⟩ := mem_violations_check.1 hv
  obtain rfl := node_of_report? hreport
  exact ⟨hn, hreport⟩

/-- A call is reported exactly if the walks agree on a state in which the protocol refuses it. -/
theorem mem_violations_iff_certain :
    v ∈ (c.check g seed).violations ↔
      ∃ n node call s, g.Reachable n ∧ g.nodes[n]? = some node ∧ c.resolve node = some call ∧
        c.Certain g seed call.handle n s ∧
        (c.protocol.transition s call.action).accepted = false ∧
        v = ⟨call.handle, n, node.span, g.file, call.action,
          (c.protocol.transition s call.action).next, s⟩ := by
  rw [mem_violations_check]
  constructor
  · rintro ⟨n, hn, hreport⟩
    obtain ⟨node, call, s, hnode, hresolve, hs, ht, hv⟩ := report?_eq_some.1 hreport
    exact ⟨n, node, call, s, hn, hnode, hresolve, (before_known_iff hn).1 hs, ht, hv⟩
  · rintro ⟨n, node, call, s, hn, hnode, hresolve, hcertain, ht, hv⟩
    have hs := (before_known_iff hn).2 hcertain
    exact ⟨n, hn, report?_eq_some.2 ⟨node, call, s, hnode, hresolve, hs, ht, hv⟩⟩

/-! ### Runs -/

/-- Executes nodes one after the other, where handles are in the states `σ`, and lists the calls
that the protocol refuses. A refused call leaves its handle in place, and calls on a handle in an
unknown state are not judged. -/
def execute (c : Checker) (g : Graph) : (Handle → Tracked) → List Nat → List Violation
  | _, [] => []
  | σ, n :: ns =>
    match g.nodes[n]? with
    | none => c.execute g σ ns
    | some node =>
      match c.resolve node with
      | none => c.execute g σ ns
      | some call =>
        match σ call.handle with
        | .unknown => c.execute g σ ns
        | .known s =>
          let t := c.protocol.transition s call.action
          if t.accepted then c.execute g (Function.update σ call.handle t.next) ns
          else ⟨call.handle, n, node.span, g.file, call.action, t.next, s⟩ :: c.execute g σ ns

/-- A call moves the state of its handle on and leaves the others. -/
theorem effect_eq_update {call : Call} (hcall : c.call? g n = some call) (σ : Handle → Tracked) :
    (fun h => c.effect g n h (σ h)) =
      Function.update σ call.handle (c.protocol.advance call.action (σ call.handle)) := by
  funext h
  rw [effect_of_call hcall]
  by_cases heq : call.handle = h
  · subst heq
    simp
  · rw [if_neg heq, Function.update_of_ne (Ne.symm heq)]

/-- One step of a run: the node is judged on the states before it and then moves them on. -/
theorem execute_cons {σ : Handle → Tracked} (hσ : ∀ h, x.state? c.protocol.initial h = some (σ h))
    (n : Nat) (ns : List Nat) :
    c.execute g σ (n :: ns) =
      (c.report? g n x).toList ++ c.execute g (fun h => c.effect g n h (σ h)) ns := by
  cases hcall : c.call? g n with
  | none =>
      simp only [effect_of_call_eq_none hcall]
      rw [report?, outcome_of_call_eq_none hcall, execute]
      cases hnode : g.nodes[n]? with
      | none => rfl
      | some node =>
          have hresolve : c.resolve node = none := by simpa [call?, hnode] using hcall
          simp [hresolve, Verdict.violation?]
  | some call =>
      obtain ⟨node, hnode, hresolve⟩ := call?_eq_some.1 hcall
      obtain ⟨m, rfl, hm⟩ := Flow.state?_eq_some.1 (hσ call.handle)
      rw [effect_eq_update hcall, report?, outcome_of_call hnode hresolve]
      simp only [execute, hnode, hresolve]
      -- Unless the call is accepted the handle gets the state that it has.
      cases hs : σ call.handle with
      | unknown =>
          rw [Protocol.call_of_unknown (hm.trans hs), Protocol.advance_unknown,
            Function.update_eq_self_iff.2 hs.symm]
          rfl
      | known s =>
          cases ht : (c.protocol.transition s call.action).accepted with
          | true =>
              rw [Protocol.call_of_accepted (hm.trans hs) ht, Protocol.advance_of_accepted ht]
              simp [ht, Verdict.violation?]
          | false =>
              rw [Protocol.call_of_rejected (hm.trans hs) ht, Protocol.advance_of_rejected ht,
                Function.update_eq_self_iff.2 hs.symm]
              simp [ht, Verdict.violation?]

/-- The last step of a run is judged on the value of the walk before it. -/
theorem execute_snoc (c : Checker) (g : Graph) (seed : Assignment) (ws : List Nat) (n : Nat) :
    c.execute g (seed.state c.protocol.initial) (ws ++ [n]) =
      c.execute g (seed.state c.protocol.initial) ws ++
        (c.report? g n (c.along g seed ws)).toList := by
  suffices H : ∀ (x : Flow) (σ : Handle → Tracked),
      (∀ h, x.state? c.protocol.initial h = some (σ h)) →
      c.execute g σ (ws ++ [n]) = c.execute g σ ws ++
        (c.report? g n (ws.foldl (fun x m => (c.outcome g m x).output) x)).toList from
    H _ _ (Flow.state?_entry seed)
  induction ws with
  | nil =>
      intro x σ hσ
      rw [List.nil_append, execute_cons hσ]
      simp [execute]
  | cons m ws ih =>
      intro x σ hσ
      have hnext : ∀ h, (c.outcome g m x).output.state? c.protocol.initial h =
          some (c.effect g m h (σ h)) := by
        intro h
        rw [state?_outcome, hσ, Option.map_some]
      rw [List.cons_append, execute_cons hσ, execute_cons hσ, ih _ _ hnext, List.append_assoc,
        List.foldl_cons]

/-- Every run to the node of a reported violation ends with it. -/
theorem execute_of_mem_violations (hv : v ∈ (c.check g seed).violations) {ws : List Nat}
    (hwalk : g.Walk ws v.node) :
    c.execute g (seed.state c.protocol.initial) (ws ++ [v.node]) =
      c.execute g (seed.state c.protocol.initial) ws ++ [v] := by
  obtain ⟨-, hreport⟩ := report?_node_of_mem hv
  obtain ⟨node, call, s, hnode, hresolve, hs, ht, heq⟩ := report?_eq_some.1 hreport
  have hagree := (certain_of_known hs).2 ws hwalk
  have hend : c.report? g v.node (c.along g seed ws) = some v :=
    report?_eq_some.2 ⟨node, call, s, hnode, hresolve, hagree, ht, heq⟩
  rw [execute_snoc, hend]
  rfl

/-- With single walks the run along a walk refuses what is reported at its nodes. -/
theorem execute_walk {ws : List Nat} (hg : g.SingleWalks) (hwalk : g.Walk ws n) :
    c.execute g (seed.state c.protocol.initial) (ws ++ [n]) =
      (ws ++ [n]).filterMap fun k => c.report? g k (c.before g seed k) := by
  have hlast : ∀ {vs : List Nat} {m : Nat}, g.Walk vs m →
      (c.report? g m (c.along g seed vs)).toList =
        [m].filterMap fun k => c.report? g k (c.before g seed k) := by
    intro vs m hvs
    rw [← before_eq_along hg hvs]
    cases h : c.report? g m (c.before g seed m) <;> simp [h]
  induction hwalk with
  | entry hentry hn =>
      rw [execute_snoc, hlast (.entry hentry hn)]
      rfl
  | step hwalk harc ih =>
      rw [execute_snoc, ih, hlast (hwalk.step harc), ← List.filterMap_append]

theorem filter_violations {ws : List Nat} (hg : g.SingleWalks) (hwalk : g.Walk ws n) :
    (c.check g seed).violations.filter (fun v => v.node ∈ ws ++ [n]) =
      c.execute g (seed.state c.protocol.initial) (ws ++ [n]) := by
  rw [execute_walk hg hwalk, ← hg.filter_reversePostorder hwalk, List.filterMap_filter,
    hg.filter_reversePostorder hwalk, violations_check, List.filter_filterMap]
  apply List.filterMap_congr
  intro k _
  cases hreport : c.report? g k (c.before g seed k) with
  | none => simp
  | some v =>
      obtain rfl := node_of_report? hreport
      simp [Option.filter]

/-- The state of a handle before a reachable node is known exactly if the walks agree on it there
and on the way there, and a call is reported exactly if it is refused in that state. So what is
reported happens on every run to its node, and in code with single walks it is what the runs
refuse. -/
theorem violations_iff_walks_agree (c : Checker) (g : Graph) (seed : Assignment) :
    (∀ n h, g.Reachable n →
      (∀ s, (c.before g seed n).state? c.protocol.initial h = some (.known s) ↔
        c.Certain g seed h n s) ∧
      ((∀ s, ¬c.Certain g seed h n s) →
        (c.before g seed n).state? c.protocol.initial h = some .unknown)) ∧
    (∀ v, v ∈ (c.check g seed).violations ↔
      ∃ n node call s, g.Reachable n ∧ g.nodes[n]? = some node ∧ c.resolve node = some call ∧
        c.Certain g seed call.handle n s ∧
        (c.protocol.transition s call.action).accepted = false ∧
        v = ⟨call.handle, n, node.span, g.file, call.action,
          (c.protocol.transition s call.action).next, s⟩) ∧
    (∀ v ∈ (c.check g seed).violations, ∀ ws, g.Walk ws v.node →
      c.execute g (seed.state c.protocol.initial) (ws ++ [v.node]) =
        c.execute g (seed.state c.protocol.initial) ws ++ [v]) ∧
    (g.SingleWalks → ∀ ws n, g.Walk ws n →
      (c.check g seed).violations.filter (fun v => v.node ∈ ws ++ [n]) =
        c.execute g (seed.state c.protocol.initial) (ws ++ [n]) ∧
      ((∀ m, g.Reachable m → m ∈ ws ++ [n]) →
        (c.check g seed).violations =
          c.execute g (seed.state c.protocol.initial) (ws ++ [n]))) := by
  refine ⟨fun n h hn => ⟨fun s => before_known_iff hn, before_unknown_of_not_certain hn⟩,
    fun v => mem_violations_iff_certain,
    fun v hv ws hwalk => execute_of_mem_violations hv hwalk, fun hg ws n hwalk => ?_⟩
  have hfilter : (c.check g seed).violations.filter (fun v => v.node ∈ ws ++ [n]) =
      c.execute g (seed.state c.protocol.initial) (ws ++ [n]) := filter_violations hg hwalk
  refine ⟨hfilter, fun hall => ?_⟩
  rw [← hfilter, List.filter_eq_self.2]
  intro v hv
  exact decide_eq_true (hall v.node (report?_node_of_mem hv).1)

/-- In a loop the pet `k` is teased while it eats, each time around, and nothing is known about the
pet `j` that is fed there; without the way back the run refuses the same call. -/
theorem violations_iff_walks_agree_loop :
    let c : Checker := { protocol := .pet, resolve := .ofType "Pet" }
    let nodes : Array Node := #[⟨.invoke "k" (some "Pet") "feed", none⟩,
      ⟨.invoke "k" (some "Pet") "tease", none⟩, ⟨.invoke "j" (some "Pet") "feed", none⟩]
    let loop : Graph := ⟨"loop", none, nodes,
      #[⟨0, 1, .sequential⟩, ⟨1, 2, .sequential⟩, ⟨2, 1, .loopBack⟩], some 0⟩
    let line : Graph := ⟨"line", none, nodes, #[⟨0, 1, .sequential⟩, ⟨1, 2, .sequential⟩], some 0⟩
    let v : Violation :=
      ⟨⟨"k"⟩, 1, none, none, ⟨"tease"⟩, .known ⟨"Playing"⟩, ⟨"Eating"⟩⟩
    c.Certain loop ∅ ⟨"k"⟩ 1 ⟨"Eating"⟩ ∧
      (c.before loop ∅ 1).state? c.protocol.initial ⟨"j"⟩ = some .unknown ∧
      v ∈ (c.check loop ∅).violations ∧
      c.execute loop ((∅ : Assignment).state c.protocol.initial) [0, 1, 2, 1] =
        c.execute loop ((∅ : Assignment).state c.protocol.initial) [0, 1, 2] ++ [v] ∧
      (c.check line ∅).violations =
        c.execute line ((∅ : Assignment).state c.protocol.initial) [0, 1, 2] := by
  intro c nodes loop line v
  have hfirst : loop.Walk [0] 1 := .step (.entry rfl (by decide)) (by decide +kernel)
  have hround : loop.Walk [0, 1] 2 := .step hfirst (by decide +kernel)
  have hagain : loop.Walk [0, 1, 2] 1 := .step hround (by decide +kernel)
  have hlost : ∀ s, ¬c.Certain loop ∅ ⟨"j"⟩ 1 s := by
    rintro s ⟨-, hagree⟩
    have hsame := (hagree _ hfirst).trans (hagree _ hagain).symm
    revert hsame
    decide +kernel
  obtain ⟨hvalues, hreported, hruns, -⟩ := violations_iff_walks_agree c loop ∅
  have heating : c.Certain loop ∅ ⟨"k"⟩ 1 ⟨"Eating"⟩ :=
    ((hvalues 1 ⟨"k"⟩ hfirst.reachable).1 _).1 (by decide +kernel)
  have hv : v ∈ (c.check loop ∅).violations :=
    (hreported v).2 ⟨1, _, ⟨⟨"k"⟩, ⟨"tease"⟩⟩, ⟨"Eating"⟩, hfirst.reachable, rfl,
      by decide +kernel, heating, by decide +kernel, by decide +kernel⟩
  obtain ⟨-, -, -, hline⟩ := violations_iff_walks_agree c line ∅
  have hsingle : line.SingleWalks := Graph.singleWalks_of_line rfl (by decide)
  have hstart : line.Walk [0] 1 := .step (.entry rfl (by decide)) (by decide +kernel)
  have hwalk : line.Walk [0, 1] 2 := .step hstart (by decide +kernel)
  refine ⟨heating, (hvalues 1 ⟨"j"⟩ hfirst.reachable).2 hlost, hv, hruns v hv _ hagain,
    (hline hsingle _ _ hwalk).2 fun m hm => ?_⟩
  have hlt : m < 3 := hm.lt_size
  simp only [List.mem_append, List.mem_cons, List.not_mem_nil, or_false]
  omega

end Typestate.Checker

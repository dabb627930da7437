import Typestate.Proofs.Verdict
import Typestate.Protocol.Standard

/-!
Reached means reachable. The search that orders the nodes and the values that the worklist spreads
find the same nodes: those that a walk leads to from the entry. So a report that keeps the values
has them for exactly these nodes, and they are the solved ones; the empty assignment that stands in
for the value of a node that is not reached is never used.
-/

namespace Typestate

namespace Flow

theorem eq_reached_of_states? {x : Flow} {m : Assignment} (hx : x ≠ .unreachable) :
    x = .reached (x.states?.getD m) := by
  cases x with
  | unreachable => exact absurd rfl hx
  | reached _ => rfl

end Flow

theorem Graph.length_reversePostorder (g : Graph) :
    g.reversePostorder.length = {n | g.Reachable n}.ncard := by
  have hset : {n | g.Reachable n} = (g.reversePostorder.toFinset : Set Nat) := by
    ext n
    simp [mem_reversePostorder]
  rw [hset, Set.ncard_coe_finset, List.toFinset_card_of_nodup g.nodup_reversePostorder]

namespace Checker

variable {c : Checker} {g : Graph} {seed : Assignment} {n : Nat} {f : Finding}

/-! ### Findings -/

theorem map_node_findings (c : Checker) (g : Graph) (seed : Assignment) :
    (c.analyze g seed).findings.map Finding.node = g.reversePostorder := by
  have hnodes : (c.analyze g seed).findings.filterMap (fun f => some f.node) =
      g.reversePostorder.filterMap some := filterMap_findings fun _ _ _ => rfl
  rwa [List.filterMap_eq_map', List.filterMap_some] at hnodes

/-- A finding is about a reachable node and the solved values before and after it. -/
theorem of_mem_findings (hf : f ∈ (c.analyze g seed).findings) :
    g.Reachable f.node ∧ f.input = c.before g seed f.node ∧
      f.outcome.output = c.after g seed f.node := by
  change f ∈ c.findings g (c.solve g seed).inputs at hf
  simp only [findings, List.mem_filterMap, Option.map_eq_some_iff] at hf
  obtain ⟨n, hn, node, -, rfl⟩ := hf
  have hreach : g.Reachable n := Graph.mem_reversePostorder.1 hn
  exact ⟨hreach, rfl, (after_eq hreach.lt_size).symm⟩

@[simp] theorem node_nodeFlow (f : Finding) : (nodeFlow f).node = f.node := rfl

theorem before_after_nodeFlow (hf : f ∈ (c.analyze g seed).findings) :
    c.before g seed f.node = .reached (nodeFlow f).input ∧
      c.after g seed f.node = .reached (nodeFlow f).output := by
  obtain ⟨hn, hinput, houtput⟩ := of_mem_findings hf
  constructor
  · rw [← hinput]
    exact Flow.eq_reached_of_states? (hinput ▸ before_ne_unreachable_iff.2 hn)
  · rw [← houtput]
    exact Flow.eq_reached_of_states? (houtput ▸ after_ne_unreachable_iff.2 hn)

/-! ### Kept values -/

section Kept

variable (hkeep : c.settings.keepFlowStates = true)

include hkeep

theorem flows_check (g : Graph) (seed : Assignment) :
    (c.check g seed).flows = some ((c.analyze g seed).findings.map nodeFlow) :=
  if_pos hkeep

theorem exists_flow? (seed : Assignment) (hn : g.Reachable n) :
    ∃ flow, (c.check g seed).flow? n = some flow ∧ c.before g seed n = .reached flow.input ∧
      c.after g seed n = .reached flow.output := by
  have hmem : n ∈ (c.analyze g seed).findings.map Finding.node := by
    rw [map_node_findings, Graph.mem_reversePostorder]
    exact hn
  obtain ⟨f, hf, rfl⟩ := List.mem_map.1 hmem
  cases hfound : (c.check g seed).flow? f.node with
  | none =>
      simp only [Report.flow?, flows_check hkeep, Option.bind_some, List.find?_eq_none] at hfound
      simpa using hfound (nodeFlow f) (List.mem_map_of_mem hf)
  | some flow =>
      simp only [Report.flow?, flows_check hkeep, Option.bind_some] at hfound
      obtain ⟨f', hf', rfl⟩ := List.mem_map.1 (List.mem_of_find?_eq_some hfound)
      have hnode := List.find?_some hfound
      rw [decide_eq_true_eq, node_nodeFlow] at hnode
      exact ⟨_, rfl, hnode ▸ before_after_nodeFlow hf'⟩

theorem flow?_eq_none (hn : ¬g.Reachable n) : (c.check g seed).flow? n = none := by
  simp only [Report.flow?, flows_check hkeep, Option.bind_some, List.find?_eq_none, List.mem_map]
  rintro _ ⟨f, hf, rfl⟩ hnode
  have hreach := (of_mem_findings hf).1
  exact hn ((of_decide_eq_true hnode : f.node = n) ▸ hreach)

theorem before?_eq_some {m : Assignment} :
    (c.check g seed).before? n = some m ↔ c.before g seed n = .reached m := by
  by_cases hn : g.Reachable n
  · obtain ⟨flow, hflow, hbefore, -⟩ := exists_flow? hkeep seed hn
    simp [Report.before?, hflow, hbefore]
  · simp [Report.before?, flow?_eq_none hkeep hn, before_eq_unreachable_iff.2 hn]

theorem after?_eq_some {m : Assignment} :
    (c.check g seed).after? n = some m ↔ c.after g seed n = .reached m := by
  by_cases hn : g.Reachable n
  · obtain ⟨flow, hflow, -, hafter⟩ := exists_flow? hkeep seed hn
    simp [Report.after?, hflow, hafter]
  · simp [Report.after?, flow?_eq_none hkeep hn, after_eq_unreachable hn]

end Kept

/-- The values before and after a node are reached exactly if the node is reachable, and the
reachable nodes are counted right. No finding falls back to the empty assignment. A report that
keeps the values lists the reachable nodes in reverse postorder, each with its solved values, and
has an answer for these nodes and no other. -/
theorem reached_iff_reachable (c : Checker) (g : Graph) (seed : Assignment) :
    ((c.solve g seed).inputs.size = g.size ∧ (c.solve g seed).outputs.size = g.size) ∧
    (∀ n, ((∃ m, c.before g seed n = .reached m) ↔ g.Reachable n) ∧
      ((∃ m, c.after g seed n = .reached m) ↔ g.Reachable n) ∧
      (¬g.Reachable n → c.before g seed n = .unreachable ∧ c.after g seed n = .unreachable)) ∧
    (c.check g seed).stats.reachableNodes = {n | g.Reachable n}.ncard ∧
    (∀ f ∈ (c.analyze g seed).findings,
      f.input.states?.isSome ∧ f.outcome.output.states?.isSome) ∧
    (c.settings.keepFlowStates = true →
      (∃ flows, (c.check g seed).flows = some flows ∧
        flows.map NodeFlow.node = g.reversePostorder ∧
        (flows.map NodeFlow.node).Nodup ∧
        (∀ n, n ∈ flows.map NodeFlow.node ↔ g.Reachable n) ∧
        ∀ flow ∈ flows, c.before g seed flow.node = .reached flow.input ∧
          c.after g seed flow.node = .reached flow.output) ∧
      ∀ n, (∀ m, (c.check g seed).before? n = some m ↔ c.before g seed n = .reached m) ∧
        (∀ m, (c.check g seed).after? n = some m ↔ c.after g seed n = .reached m) ∧
        (((c.check g seed).before? n).isSome ↔ g.Reachable n) ∧
        (((c.check g seed).after? n).isSome ↔ g.Reachable n)) := by
  have hsized := (c.problem g seed).sized_run (stepLimit g)
  have hbefore : ∀ n, (∃ m, c.before g seed n = .reached m) ↔ g.Reachable n := fun n => by
    rw [← Flow.ne_unreachable_iff, before_ne_unreachable_iff]
  have hafter : ∀ n, (∃ m, c.after g seed n = .reached m) ↔ g.Reachable n := fun n => by
    rw [← Flow.ne_unreachable_iff, after_ne_unreachable_iff]
  refine ⟨⟨hsized.inputs, hsized.outputs⟩, fun n => ⟨hbefore n, hafter n, fun hn => ?_⟩,
    g.length_reversePostorder, fun f hf => ?_, fun hkeep => ⟨?_, fun n => ?_⟩⟩
  · exact ⟨before_eq_unreachable_iff.2 hn, after_eq_unreachable hn⟩
  · obtain ⟨-, hinput, houtput⟩ := of_mem_findings hf
    obtain ⟨hin, hout⟩ := before_after_nodeFlow hf
    simp [hinput, houtput, hin, hout, Flow.states?]
  · have hnodes : ((c.analyze g seed).findings.map nodeFlow).map NodeFlow.node =
        g.reversePostorder := by
      rw [List.map_map, ← c.map_node_findings g seed]
      rfl
    refine ⟨_, flows_check hkeep g seed, hnodes, ?_, fun n => ?_, fun flow hflow => ?_⟩
    · rw [hnodes]
      exact g.nodup_reversePostorder
    · rw [hnodes, Graph.mem_reversePostorder]
    · obtain ⟨f, hf, rfl⟩ := List.mem_map.1 hflow
      exact before_after_nodeFlow hf
  · refine ⟨fun m => before?_eq_some hkeep, fun m => after?_eq_some hkeep, ?_, ?_⟩
    · simp only [Option.isSome_iff_exists, before?_eq_some hkeep, hbefore]
    · simp only [Option.isSome_iff_exists, after?_eq_some hkeep, hafter]

/-- The entry is set behind a dead node that leads to it, and the pet `k` is fed there in a loop. -/
theorem reached_iff_reachable_loop :
    let c : Checker :=
      { protocol := .pet, resolve := .ofType "Pet", settings := { keepFlowStates := true } }
    let g : Graph := ⟨"loop", none, #[⟨.invoke "k" (some "Pet") "scare", none⟩,
      ⟨.invoke "k" (some "Pet") "feed", none⟩, ⟨.invoke "j" (some "Pet") "feed", none⟩],
      #[⟨0, 1, .sequential⟩, ⟨1, 2, .sequential⟩, ⟨2, 2, .loopBack⟩], some 1⟩
    let fed : Assignment := (∅ : Assignment).assign ⟨"Sleeping"⟩ ⟨"k"⟩ (.known ⟨"Eating"⟩)
    {n | g.Reachable n}.ncard = 2 ∧
      (c.check g ∅).before? 0 = none ∧ c.after g ∅ 0 = .unreachable ∧
      (c.check g ∅).before? 1 = some ∅ ∧ (c.check g ∅).after? 1 = some fed ∧
      ((c.check g ∅).before? 2).isSome := by
  intro c g fed
  have hdead : ¬g.Reachable 0 := by decide +kernel
  have hlive : g.Reachable 2 := by decide +kernel
  obtain ⟨-, hvalues, hcount, -, hkept⟩ := reached_iff_reachable c g ∅
  obtain ⟨-, hanswers⟩ := hkept rfl
  refine ⟨hcount.symm.trans (by decide +kernel), ?_, ((hvalues 0).2.2 hdead).2, ?_, ?_, ?_⟩
  · have hnone : ¬((c.check g ∅).before? 0).isSome := fun hsome =>
      hdead ((hanswers 0).2.2.1.1 hsome)
    simpa using hnone
  · exact ((hanswers 1).1 ∅).2 (by decide +kernel)
  · exact ((hanswers 1).2.1 fed).2 (by decide +kernel)
  · exact (hanswers 2).2.2.1.2 hlive

end Checker

end Typestate

import Typestate.Proofs.Findings
import Typestate.Protocol.Standard

/-!
Dead code has no influence. Two procedures that agree on the nodes that control can get to, and on
the edges that leave these nodes, are analysed step by step in the same way: both searches meet the
same nodes in the same order, and a dead node never contributes more than the unreachable value to
the nodes that it leads to. So dead nodes may hold any statement and lead anywhere, and nothing of
the analysis changes, not even the number of its steps.
-/

namespace Typestate

/-- A strictly ascending list is determined by its members. -/
theorem Ascending.ext {ms ns : List Nat} (hms : ms.Pairwise (· < ·)) (hns : ns.Pairwise (· < ·))
    (hmem : ∀ k, k ∈ ms ↔ k ∈ ns) : ms = ns := by
  have hperm : ms.Perm ns :=
    (List.perm_ext_iff_of_nodup (hms.imp Nat.ne_of_lt) (hns.imp Nat.ne_of_lt)).2 hmem
  exact hperm.eq_of_pairwise (fun _ _ _ _ hab hba => absurd hba (Nat.lt_asymm hab)) hms hns

namespace Graph

variable {g g' : Graph} {n : Nat}

/-- The two procedures differ at most in what stands at dead nodes and in the edges that leave
them. -/
structure SameLive (g g' : Graph) : Prop where
  name : g'.name = g.name
  file : g'.file = g.file
  size : g'.size = g.size
  entry : g'.entry = g.entry
  node : ∀ n, g.Reachable n → g'.nodes[n]? = g.nodes[n]?
  targets : ∀ n, g.Reachable n → g'.targets n = g.targets n

namespace SameLive

theorem reversePostorder (hlive : g.SameLive g') : g'.reversePostorder = g.reversePostorder :=
  reversePostorder_congr hlive.size hlive.entry hlive.targets

theorem reachable (hlive : g.SameLive g') : g'.Reachable n ↔ g.Reachable n := by
  rw [← mem_reversePostorder, hlive.reversePostorder, mem_reversePostorder]

theorem schedule (hlive : g.SameLive g') : g'.schedule = g.schedule := by
  unfold Graph.schedule
  rw [hlive.reversePostorder, hlive.size]

theorem successors (hlive : g.SameLive g') (hn : g.Reachable n) :
    g'.successors n = g.successors n := by
  unfold Graph.successors
  rw [hlive.targets n hn]

/-- A node, live or dead, has the same live predecessors in both procedures. -/
theorem filter_predecessors (hlive : g.SameLive g') (n : Nat) :
    (g'.predecessors n).filter (g.Reachable ·) = (g.predecessors n).filter (g.Reachable ·) := by
  apply Ascending.ext
  · exact (Ascending.pairwise_ofList _).filter _
  · exact (Ascending.pairwise_ofList _).filter _
  · intro m
    simp only [List.mem_filter, decide_eq_true_eq, mem_predecessors]
    constructor
    · rintro ⟨hm, hreach⟩
      exact ⟨hlive.successors hreach ▸ hm, hreach⟩
    · rintro ⟨hm, hreach⟩
      exact ⟨hlive.successors hreach ▸ hm, hreach⟩

end SameLive

end Graph

namespace Checker

open Dataflow (Progress)

variable {c : Checker} {g g' : Graph} {seed : Assignment} {s : Progress Flow}

/-- The states in which a run can be, as far as dead nodes are concerned. -/
def Confined (c : Checker) (g : Graph) (seed : Assignment) (s : Progress Flow) : Prop :=
  (c.problem g seed).Sized s ∧
    (c.problem g seed).Within (c.Admissible g seed) (c.Admissible g seed) s

theorem confined_start (c : Checker) (g : Graph) (seed : Assignment) :
    c.Confined g seed (c.problem g seed).start :=
  ⟨(c.problem g seed).sized_start, (c.closed_admissible g seed).start⟩

theorem Confined.step (hs : c.Confined g seed s) :
    c.Confined g seed ((c.problem g seed).step s) :=
  ⟨Dataflow.Problem.sized_step hs.1,
    (c.closed_admissible g seed).step (c.lawful_problem g seed) hs.1 hs.2⟩

theorem Confined.output_of_dead (hs : c.Confined g seed s) {n : Nat} (hn : ¬g.Reachable n) :
    (c.problem g seed).value s.outputs n = .unreachable := by
  by_contra hne
  exact hn ((hs.2 n).2.reachable hne)

theorem Confined.inflow_of_dead (hs : c.Confined g seed s) {n : Nat} (hlt : n < g.size)
    (hn : ¬g.Reachable n) : (c.problem g seed).inflow s.outputs n = .unreachable := by
  have hinflow : c.Admissible g seed n ((c.problem g seed).inflow s.outputs n) :=
    (c.closed_admissible g seed).merged (fun m => (hs.2 m).2) hlt
  by_contra hne
  exact hn (hinflow.reachable hne)

/-- Only the value after a live node changes. -/
theorem Confined.reachable_of_changes (hs : c.Confined g seed s) {n : Nat} (hlt : n < g.size)
    (hnew : (c.problem g seed).transfer n ((c.problem g seed).inflow s.outputs n) ≠
      (c.problem g seed).value s.outputs n) : g.Reachable n := by
  by_contra hn
  rw [hs.inflow_of_dead hlt hn, hs.output_of_dead hn] at hnew
  simp [problem] at hnew

section SameLive

variable (hlive : g.SameLive g')

include hlive

/-- Dead predecessors, of which the procedures may have different ones, contribute nothing. -/
theorem inflow_of_sameLive (hs : c.Confined g seed s) (n : Nat) :
    (c.problem g' seed).inflow s.outputs n = (c.problem g seed).inflow s.outputs n := by
  have hdead : ∀ m, decide (g.Reachable m) = false →
      (c.problem g seed).value s.outputs m = .unreachable :=
    fun m hm => hs.output_of_dead (of_decide_eq_false hm)
  have hfilter : ∀ k : Graph, (c.problem k seed).inflow s.outputs n =
      ((k.predecessors n).filter (g.Reachable ·)).foldl
        (fun x m => x.join c.protocol.initial ((c.problem g seed).value s.outputs m))
        ((c.problem k seed).source n) := fun k =>
    Dataflow.Problem.merged_eq_filter (P := c.problem k seed) Flow.join_unreachable
      fun m _ => hdead m
  rw [hfilter, hfilter, hlive.filter_predecessors]
  simp only [problem, hlive.entry]

theorem agrees_of_sameLive (hs : c.Confined g seed s) {n : Nat} (hn : n < g.size) :
    (c.problem g seed).Agrees (c.problem g' seed) s.outputs n := by
  by_cases hreach : g.Reachable n
  · refine ⟨inflow_of_sameLive hlive hs n, ?_, rfl, fun _ => hlive.successors hreach⟩
    exact congrArg Outcome.output (c.outcome_congr (hlive.node n hreach) _)
  · have hinflow := hs.inflow_of_dead hn hreach
    refine ⟨inflow_of_sameLive hlive hs n, ?_, rfl, fun hnew => ?_⟩
    · rw [hinflow]
      simp [problem]
    · -- The successors of a dead node do not matter.
      exact absurd (hs.reachable_of_changes hn hnew) hreach

theorem solve_of_sameLive (c : Checker) (seed : Assignment) :
    c.solve g' seed = c.solve g seed := by
  have hstart : (c.problem g' seed).start = (c.problem g seed).start := by
    simp only [Dataflow.Problem.start, problem, hlive.size, hlive.schedule]
  have hstep : ∀ s, c.Confined g seed s →
      (c.problem g' seed).step s = (c.problem g seed).step s := fun s hs =>
    Dataflow.Problem.step_congr (c.lawful_problem g seed) hlive.schedule
      fun n hn => agrees_of_sameLive hlive hs hn
  have hrun : ∀ k, (c.problem g' seed).step^[k] (c.problem g' seed).start =
      (c.problem g seed).step^[k] (c.problem g seed).start := by
    intro k
    rw [hstart]
    exact Dataflow.Problem.iterate_congr (Q := c.Confined g seed) (fun _ => Confined.step) hstep
      (c.confined_start g seed) k
  have hsolve : ∀ k : Graph, c.solve k seed =
      (c.problem k seed).step^[stepLimit k] (c.problem k seed).start :=
    fun k => (c.problem k seed).run_eq_iterate _ _
  -- The limits of the two runs differ, but both runs end before their limit.
  have hend := (c.solve_ends g seed).1
  have hend' := (c.solve_ends g' seed).1
  rw [hsolve] at hend hend'
  rw [hsolve, hsolve, hrun]
  rw [hrun] at hend'
  exact Dataflow.Problem.iterate_eq_of_pending_eq_nil hend' hend

theorem findings_of_sameLive (c : Checker) (inputs : Array Flow) :
    c.findings g' inputs = c.findings g inputs := by
  unfold findings
  rw [hlive.reversePostorder]
  apply List.filterMap_congr
  intro n hn
  have hnode := hlive.node n (Graph.mem_reversePostorder.1 hn)
  rw [hnode]
  simp only [c.outcome_congr hnode]

end SameLive

/-- Dead nodes and the edges that leave them have no influence: the report is the same, violations
in their order and all counts, and so are the visits of the worklist one by one. -/
theorem check_eq_of_sameLive (c : Checker) (g g' : Graph) (seed : Assignment)
    (hlive : g.SameLive g') :
    c.check g' seed = c.check g seed ∧
      (c.analyze g' seed).visits = (c.analyze g seed).visits ∧
      (c.analyze g' seed).findings = (c.analyze g seed).findings := by
  have hanalyze : c.analyze g' seed = c.analyze g seed := by
    simp only [analyze, solve_of_sameLive hlive, findings_of_sameLive hlive,
      hlive.reversePostorder, hlive.name, hlive.file, hlive.size]
  refine ⟨?_, ?_, ?_⟩
  · exact congrArg Analysis.report hanalyze
  · exact congrArg Analysis.visits hanalyze
  · exact congrArg Analysis.findings hanalyze

/-- The pet `k` is teased while it eats, in a loop. Before the entry and beside the loop stand dead
nodes, which in the second procedure frighten the pet and lead into the loop. -/
theorem check_eq_of_sameLive_loop :
    let c : Checker :=
      { protocol := .pet, resolve := .ofType "Pet", settings := { keepFlowStates := true } }
    let g : Graph := ⟨"loop", none, #[⟨.nop, none⟩, ⟨.invoke "k" (some "Pet") "feed", none⟩,
      ⟨.invoke "k" (some "Pet") "tease", none⟩, ⟨.nop, none⟩],
      #[⟨1, 2, .sequential⟩, ⟨2, 2, .loopBack⟩], some 1⟩
    let g' : Graph := ⟨"loop", none, #[⟨.invoke "k" (some "Pet") "scare", none⟩,
      ⟨.invoke "k" (some "Pet") "feed", none⟩, ⟨.invoke "k" (some "Pet") "tease", none⟩,
      ⟨.invoke "j" (some "Pet") "ignore", none⟩],
      #[⟨0, 2, .sequential⟩, ⟨1, 2, .sequential⟩, ⟨3, 0, .exception⟩, ⟨0, 1, .sequential⟩,
        ⟨2, 2, .loopBack⟩, ⟨3, 3, .loopBack⟩], some 1⟩
    let v : Violation := ⟨⟨"k"⟩, 2, none, none, ⟨"tease"⟩, .known ⟨"Playing"⟩, ⟨"Eating"⟩⟩
    g.SameLive g' ∧ (c.check g ∅).violations = [v] ∧ (c.check g ∅).stats.worklistPops = 5 ∧
      c.check g' ∅ = c.check g ∅ := by
  intro c g g' v
  have hnode : ∀ n < g.size, g.Reachable n → g'.nodes[n]? = g.nodes[n]? := by decide +kernel
  have htargets : ∀ n < g.size, g.Reachable n → g'.targets n = g.targets n := by decide +kernel
  have hlive : g.SameLive g' :=
    ⟨rfl, rfl, rfl, rfl, fun n hn => hnode n hn.lt_size hn, fun n hn => htargets n hn.lt_size hn⟩
  have hv : (c.check g ∅).violations = [v] := by decide +kernel
  have hpops : (c.check g ∅).stats.worklistPops = 5 := by decide +kernel
  exact ⟨hlive, hv, hpops, (check_eq_of_sameLive c g g' ∅ hlive).1⟩

end Checker

end Typestate

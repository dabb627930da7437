import Mathlib.Algebra.BigOperators.Ring.Finset
import Mathlib.Data.Set.Card
import Typestate.Proofs.Dataflow
import Typestate.Proofs.Reach
import Typestate.Proofs.Transfer

/-!
How long the worklist runs. A value after a node is first unreachable; once it is reached every
change makes the state of a handle unknown that was known, for good, and only handles that are
called at reachable nodes ever change. So the value after a reachable node changes at most once for
each of these handles and once more, and the values after other nodes never change. Each change
makes the successors of its node pending, which bounds the visits by the nodes and the edges that
leave reachable nodes.
-/

namespace Typestate

namespace Graph

/-- The pairs of nodes that an edge joins and whose first node is reachable. -/
def liveEdges (g : Graph) : Finset (Nat × Nat) :=
  (g.edges.toList.map fun e => (e.source, e.target)).toFinset.filter fun e => g.Reachable e.1

theorem mem_liveEdges {g : Graph} {m n : Nat} :
    (m, n) ∈ g.liveEdges ↔ n ∈ g.successors m ∧ g.Reachable m := by
  simp only [liveEdges, Finset.mem_filter, List.mem_toFinset, List.mem_map, Array.mem_toList_iff,
    Prod.mk.injEq, mem_successors]

theorem card_liveEdges_le (g : Graph) : g.liveEdges.card ≤ g.edges.size := by
  calc
    g.liveEdges.card ≤ (g.edges.toList.map fun e => (e.source, e.target)).toFinset.card :=
      Finset.card_filter_le _ _
    _ ≤ (g.edges.toList.map fun e => (e.source, e.target)).length := List.toFinset_card_le _
    _ = g.edges.size := by simp

theorem card_liveEdges_from (g : Graph) (n : Nat) :
    (g.liveEdges.filter fun e => e.1 = n).card =
      if g.Reachable n then (g.successors n).length else 0 := by
  split
  · next hn =>
    have hnodup : (g.successors n).Nodup := (Ascending.pairwise_ofList _).imp Nat.ne_of_lt
    have himage : (g.liveEdges.filter fun e => e.1 = n) =
        (g.successors n).toFinset.image fun m => (n, m) := by
      ext ⟨m, k⟩
      simp only [Finset.mem_filter, mem_liveEdges, Finset.mem_image, List.mem_toFinset,
        Prod.mk.injEq]
      constructor
      · rintro ⟨⟨hk, -⟩, rfl⟩
        exact ⟨k, hk, rfl, rfl⟩
      · rintro ⟨k, hk, rfl, rfl⟩
        exact ⟨⟨hk, hn⟩, rfl⟩
    rw [himage, Finset.card_image_of_injective _ (Prod.mk_right_injective n),
      List.toFinset_card_of_nodup hnodup]
  · next hn =>
    rw [Finset.card_eq_zero, Finset.filter_eq_empty_iff]
    rintro ⟨m, k⟩ hmem rfl
    exact hn (mem_liveEdges.1 hmem).2

/-- The successors of reachable nodes, counted node by node, are the live edges. -/
theorem sum_successors (g : Graph) (k : Nat) :
    ∑ n ∈ Finset.range g.size, (g.successors n).length * (if g.Reachable n then k else 0) =
      k * g.liveEdges.card := by
  have hmaps : (g.liveEdges : Set (Nat × Nat)).MapsTo Prod.fst (Finset.range g.size) := by
    rintro ⟨m, n⟩ hmem
    exact Finset.mem_coe.2 (Finset.mem_range.2 (mem_liveEdges.1 hmem).2.lt_size)
  rw [Finset.card_eq_sum_card_fiberwise hmaps, Finset.mul_sum]
  refine Finset.sum_congr rfl fun n _ => ?_
  rw [card_liveEdges_from]
  split <;> simp [Nat.mul_comm]

end Graph

namespace Checker

variable {c : Checker} {g : Graph} {seed : Assignment}

theorem lawful_problem (c : Checker) (g : Graph) (seed : Assignment) :
    (c.problem g seed).Lawful where
  nodup_order := g.nodup_schedule
  mem_order _ := Graph.mem_schedule
  mem_successors _ _ := Graph.mem_predecessors.1

theorem monotone_problem (c : Checker) (g : Graph) (seed : Assignment) :
    (c.problem g seed).Monotone (Flow.Under c.protocol.initial) where
  refl := Flow.Under.refl
  trans _ _ _ := Flow.Under.trans
  bottom_le := Flow.unreachable_under
  le_join_left := Flow.under_join_left
  le_join_right := Flow.under_join_right
  join_le _ _ _ := Flow.join_under
  transfer_le _ _ _ := outcome_under

/-! ### Handles that are called -/

/-- Some reachable node calls an operation on the handle. -/
def Called (c : Checker) (g : Graph) (h : Handle) : Prop :=
  ∃ n call, g.Reachable n ∧ c.call? g n = some call ∧ call.handle = h

/-- A node leaves a handle alone that no reachable node calls. -/
theorem effect_of_not_called {n : Nat} (hn : g.Reachable n) {h : Handle} (hh : ¬c.Called g h)
    (s : Tracked) : c.effect g n h s = s := by
  unfold effect
  cases hcall : c.call? g n with
  | none => rfl
  | some call => exact if_neg fun heq => hh ⟨n, call, hn, hcall, heq⟩

theorem mem_handles {inputs : Array Flow} {h : Handle} :
    h ∈ c.handles (c.findings g inputs) ↔ c.Called g h := by
  rw [handles, Std.ExtTreeSet.mem_ofList, List.contains_iff_mem]
  simp only [findings, List.mem_filterMap, Option.map_eq_some_iff, Called, call?_eq_some]
  constructor
  · rintro ⟨f, ⟨n, hn, node, hnode, rfl⟩, call, hcall, rfl⟩
    exact ⟨n, call, Graph.mem_reversePostorder.1 hn, ⟨node, hnode, hcall⟩, rfl⟩
  · rintro ⟨n, call, hn, ⟨node, hnode, hcall⟩, rfl⟩
    exact ⟨_, ⟨n, Graph.mem_reversePostorder.2 hn, node, hnode, rfl⟩, call, hcall, rfl⟩

theorem length_findings (c : Checker) (g : Graph) (inputs : Array Flow) :
    (c.findings g inputs).length = g.reversePostorder.length := by
  apply List.filterMap_length_eq_length.2
  intro n hn
  have hlt : n < g.nodes.size := (Graph.mem_reversePostorder.1 hn).lt_size
  simp [hlt]

theorem length_reversePostorder_le (g : Graph) : g.reversePostorder.length ≤ g.size := by
  rw [← g.length_schedule]
  simp [Graph.schedule]

/-! ### Values that can occur -/

/-- What is known of any value that stands before or after a node. -/
structure Admissible (c : Checker) (g : Graph) (seed : Assignment) (n : Nat) (x : Flow) :
    Prop where
  canonical : x.Canonical c.protocol.initial
  reachable : x ≠ .unreachable → g.Reachable n
  untouched : ∀ h s, ¬c.Called g h → x.state? c.protocol.initial h = some s →
    s = seed.state c.protocol.initial h

theorem admissible_unreachable (n : Nat) : c.Admissible g seed n .unreachable where
  canonical := Flow.canonical_unreachable
  reachable h := absurd rfl h
  untouched h s _ hs := by simp at hs

theorem Admissible.join {n : Nat} {x y : Flow} (hx : c.Admissible g seed n x)
    (hy : c.Admissible g seed n y) :
    c.Admissible g seed n (x.join c.protocol.initial y) where
  canonical := hx.canonical.join hy.canonical
  reachable hne := (Flow.ne_unreachable_of_join hne).elim hx.reachable hy.reachable
  untouched h _ hh :=
    Flow.eq_of_state?_join (fun t => hx.untouched h t hh) fun t => hy.untouched h t hh

theorem Admissible.outcome {n : Nat} {x : Flow} (hx : c.Admissible g seed n x) :
    c.Admissible g seed n (c.outcome g n x).output where
  canonical := canonical_outcome hx.canonical
  reachable hne := hx.reachable fun h => hne (by simp [h])
  untouched h s hh hs := by
    rw [state?_outcome] at hs
    obtain ⟨t, ht, rfl⟩ := Option.map_eq_some_iff.1 hs
    have hn : g.Reachable n := hx.reachable fun h => by simp [h] at ht
    rw [effect_of_not_called hn hh]
    exact hx.untouched h t hh ht

theorem closed_admissible (c : Checker) (g : Graph) (seed : Assignment) :
    (c.problem g seed).Closed (c.Admissible g seed) (c.Admissible g seed) where
  bottom_input := admissible_unreachable
  bottom_output := admissible_unreachable
  source n hn := by
    change c.Admissible g seed n (if g.entry = some n then _ else _)
    split
    · next hentry =>
      exact ⟨Flow.canonical_entry seed, fun _ => ⟨n, hentry, hn, .refl n⟩, fun h s _ hs => by
        simpa [eq_comm] using hs⟩
    · exact admissible_unreachable n
  join _ _ _ _ := Admissible.join
  edge n hn m hm x hx :=
    ⟨hx.canonical, fun hne => (hx.reachable hne).arc ⟨Graph.mem_predecessors.1 hm, hn⟩,
      hx.untouched⟩
  transfer _ _ _ := Admissible.outcome

/-! ### Heights -/

/-- The handles that are called at reachable nodes. -/
def tracked (c : Checker) (g : Graph) : List Handle :=
  (c.handles (c.findings g #[])).toList

theorem mem_tracked {h : Handle} : h ∈ c.tracked g ↔ c.Called g h := by
  rw [tracked, Std.ExtTreeSet.mem_toList, mem_handles]

/-- The number of handles that is reported is that of the handles that are called. -/
theorem size_handles (c : Checker) (g : Graph) (inputs : Array Flow) :
    (c.handles (c.findings g inputs)).size = (c.tracked g).length := by
  have hsame : c.handles (c.findings g inputs) = c.handles (c.findings g #[]) :=
    Std.ExtTreeSet.ext_mem fun h => by rw [mem_handles, mem_handles]
  rw [hsame, tracked, Std.ExtTreeSet.length_toList]

theorem length_tracked_le (c : Checker) (g : Graph) : (c.tracked g).length ≤ g.size := by
  rw [← size_handles c g #[]]
  calc
    (c.handles (c.findings g #[])).size ≤
        ((c.findings g #[]).filterMap fun f => (c.resolve f.content).map Call.handle).length :=
      Std.ExtTreeSet.size_ofList_le
    _ ≤ (c.findings g #[]).length := List.length_filterMap_le _ _
    _ = g.reversePostorder.length := c.length_findings g #[]
    _ ≤ g.size := length_reversePostorder_le g

theorem length_tracked_eq_ncard (c : Checker) (g : Graph) :
    (c.tracked g).length = {h | c.Called g h}.ncard := by
  have hset : {h | c.Called g h} = ((c.tracked g).toFinset : Set Handle) := by
    ext h
    simp [mem_tracked]
  have hnodup : (c.tracked g).Nodup :=
    Std.ExtTreeSet.distinct_toList.imp fun hne heq => hne (by simp [heq])
  rw [hset, Set.ncard_coe_finset, List.toFinset_card_of_nodup hnodup]

/-- How often a value can still change: the tracked handles whose state is known, and one change
more while the node is not reached. -/
def rank (c : Checker) (g : Graph) : Flow → Nat
  | .unreachable => 1 + (c.tracked g).length
  | .reached m => (c.tracked g).countP fun h => !(m.state c.protocol.initial h).isUnknown

/-- How often the value after a node can still change. -/
def height (c : Checker) (g : Graph) (n : Nat) (x : Flow) : Nat :=
  if g.Reachable n then c.rank g x else 0

/-- A value that rises loses a handle with a known state, or is reached for the first time. -/
theorem rank_lt {n : Nat} {x y : Flow} (hx : c.Admissible g seed n x)
    (hy : c.Admissible g seed n y) (hxy : x.Under c.protocol.initial y) (hne : x ≠ y) :
    c.rank g y < c.rank g x := by
  cases y with
  | unreachable =>
      refine absurd (Flow.Under.antisymm hx.canonical hy.canonical hxy ?_) hne
      exact Flow.unreachable_under x
  | reached m' =>
      cases x with
      | unreachable => exact Nat.lt_one_add_iff.2 List.countP_le_length
      | reached m =>
          obtain ⟨h, s, hknown, hlost⟩ := Flow.Under.exists_lost hx.canonical hy.canonical hxy
            fun heq => hne (congrArg Flow.reached heq)
          -- A handle that is not called has the state of the seed in both values.
          have hcalled : c.Called g h := by
            by_contra hh
            have hsame := (hx.untouched h _ hh rfl).trans (hy.untouched h _ hh rfl).symm
            simp [hknown, hlost] at hsame
          refine Graph.countP_lt_countP (fun k hk => ?_) (mem_tracked.2 hcalled) ?_ ?_
          · rcases Flow.under_reached.1 hxy k with hsame | hunknown
            · rwa [← hsame]
            · simp [hunknown, Tracked.isUnknown] at hk
          · simp [hlost, Tracked.isUnknown]
          · simp [hknown, Tracked.isUnknown]

theorem falls_height (c : Checker) (g : Graph) (seed : Assignment) :
    (c.problem g seed).Falls (Flow.Under c.protocol.initial) (c.Admissible g seed)
      (c.height g) := by
  intro n _ x y hx hy hxy hne
  have hn : g.Reachable n := by
    refine hy.reachable fun h => hne ?_
    subst h
    exact Flow.Under.antisymm hx.canonical hy.canonical hxy (Flow.unreachable_under x)
  simp only [height, if_pos hn]
  exact rank_lt hx hy hxy hne

theorem potential_start (c : Checker) (g : Graph) (seed : Assignment) :
    (c.problem g seed).potential (c.height g) (c.problem g seed).start =
      g.size + (1 + (c.tracked g).length) * g.liveEdges.card := by
  have hpending : (c.problem g seed).start.pending.length = g.size := by
    simp [Dataflow.Problem.start, problem, g.length_schedule]
  unfold Dataflow.Problem.potential
  rw [hpending, ← g.sum_successors]
  simp only [Dataflow.Problem.start, Dataflow.Problem.value_replicate, height]
  rfl

/-! ### The run -/

theorem potential_le_stepLimit (c : Checker) (g : Graph) :
    g.size + (1 + (c.tracked g).length) * g.liveEdges.card ≤ stepLimit g := by
  have hhandles := c.length_tracked_le g
  unfold stepLimit
  gcongr
  exact g.card_liveEdges_le

/-- The worklist runs empty before the limit is met, after no more visits than the bound says. -/
theorem solve_ends (c : Checker) (g : Graph) (seed : Assignment) :
    (c.solve g seed).pending = [] ∧
      (c.solve g seed).visits.length ≤
        g.size + (1 + (c.tracked g).length) * g.liveEdges.card := by
  have hlimit : (c.problem g seed).potential (c.height g) (c.problem g seed).start ≤
      stepLimit g := by
    rw [potential_start]
    exact c.potential_le_stepLimit g
  have hend := Dataflow.Problem.run_of_potential_le (c.monotone_problem g seed)
    (c.falls_height g seed) (c.lawful_problem g seed) (c.closed_admissible g seed)
    (Dataflow.Problem.sound_start (c.monotone_problem g seed) (c.closed_admissible g seed)) hlimit
  rw [potential_start] at hend
  exact ⟨hend.1, hend.2.trans_eq (Nat.zero_add _)⟩

theorem size_le_visits (c : Checker) (g : Graph) (seed : Assignment) :
    g.size ≤ (c.solve g seed).visits.length := by
  rw [← g.length_schedule]
  exact ((c.problem g seed).covered_run _).length_le (c.solve_ends g seed).1

/-- The nodes of the order are judged once more when the values are solved. -/
theorem transferApplications_check (c : Checker) (g : Graph) (seed : Assignment) :
    (c.check g seed).stats.transferApplications =
      (c.check g seed).stats.worklistPops + (c.check g seed).stats.reachableNodes :=
  congrArg ((c.solve g seed).visits.length + ·) (c.length_findings g _)

/-- The worklist ends without a limit on its steps. Every node is visited, and the visits beyond
the first ones are paid for by the live edges, each once for every handle that is called and once
more; handles that are only seeded do not count. -/
theorem worklistPops_le (c : Checker) (g : Graph) (seed : Assignment) :
    let P := c.problem g seed
    let stats := (c.check g seed).stats
    (∃ k, (P.step^[k] P.start).pending = [] ∧ c.solve g seed = P.step^[k] P.start) ∧
      stats.nodes = g.size ∧
      stats.trackedHandles = {h | c.Called g h}.ncard ∧
      stats.nodes ≤ stats.worklistPops ∧
      stats.worklistPops ≤ stats.nodes + (1 + stats.trackedHandles) * g.liveEdges.card ∧
      stats.transferApplications = stats.worklistPops + stats.reachableNodes := by
  intro P stats
  have hend := c.solve_ends g seed
  have hhandles : stats.trackedHandles = (c.tracked g).length := c.size_handles g _
  have hsolve : c.solve g seed = P.step^[stepLimit g] P.start := P.run_eq_iterate _ _
  refine ⟨⟨stepLimit g, hsolve ▸ hend.1, hsolve⟩, rfl, ?_, c.size_le_visits g seed, ?_,
    c.transferApplications_check g seed⟩
  · rw [hhandles, length_tracked_eq_ncard]
  · rw [hhandles]
    exact hend.2

end Checker

end Typestate

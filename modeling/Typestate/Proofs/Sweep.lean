import Typestate.Proofs.DeadCode
import Typestate.Proofs.Postorder

/-!
Acyclic code settles in one sweep. If no visit makes a place pending that is behind it, the worklist
visits the places of the order from the first to the last and is done. The order of the checker puts
the live nodes first, each before those it leads to unless they lead back; what stands behind them
is dead, and the value after a dead node never changes, so cycles among dead nodes do no harm.
-/

namespace Typestate

namespace Dataflow.Problem

variable {α : Type} {P : Problem α} {s : Progress α}

theorem pairwise_enqueue {nodes pending : List Nat} (hpending : pending.Pairwise (· < ·)) :
    (P.enqueue nodes pending).Pairwise (· < ·) := by
  unfold enqueue
  induction nodes generalizing pending with
  | nil => exact hpending
  | cons n nodes ih => exact ih (Ascending.pairwise_insert hpending)

/-- A visit that changes the value after its node makes only later places pending. -/
def Forward (P : Problem α) (s : Progress α) : Prop :=
  ∀ position n, P.order[position]? = some n →
    P.transfer n (P.inflow s.outputs n) ≠ P.value s.outputs n →
    ∀ m ∈ P.successors n, position < P.order.idxOf m

/-- The first `k` places have been visited once, in their order; those after them are pending, and
nothing before them is. -/
structure Swept (P : Problem α) (k : Nat) (s : Progress α) : Prop where
  ascending : s.pending.Pairwise (· < ·)
  le_of_mem : ∀ p ∈ s.pending, k ≤ p
  mem_of_le : ∀ p < P.order.length, k ≤ p → p ∈ s.pending
  positions : s.visits.map Visit.position = (List.range k).reverse
  nodes : s.visits.map Visit.node = (P.order.take k).reverse

theorem swept_start (P : Problem α) : P.Swept 0 P.start where
  ascending := List.pairwise_lt_range
  le_of_mem _ _ := Nat.zero_le _
  mem_of_le _ hp _ := List.mem_range.2 hp
  positions := rfl
  nodes := rfl

variable [DecidableEq α] {k : Nat}

/-- While there is a place left it is the first pending one. -/
theorem Swept.exists_step (h : P.Swept k s) (hk : k < P.order.length) :
    ∃ n rest, s.pending = k :: rest ∧ P.order[k]? = some n ∧ P.step s = P.visit s n k rest := by
  have hmem := h.mem_of_le k hk (Nat.le_refl k)
  have hhead : ∃ rest, s.pending = k :: rest := by
    cases hpending : s.pending with
    | nil => simp [hpending] at hmem
    | cons p rest =>
        have hle : k ≤ p := h.le_of_mem p (by simp [hpending])
        have hlt := (List.pairwise_cons.1 (hpending ▸ h.ascending)).1
        rcases List.mem_cons.1 (hpending ▸ hmem) with rfl | hrest
        · exact ⟨rest, rfl⟩
        · exact absurd (hlt k hrest) (Nat.not_lt_of_le hle)
  obtain ⟨rest, hpending⟩ := hhead
  have hnode : P.order[k]? = some P.order[k] := List.getElem?_eq_getElem hk
  exact ⟨P.order[k], rest, hpending, hnode, step_eq_visit hpending hnode⟩

theorem Swept.step (h : P.Swept k s) (hforward : P.Forward s) (hk : k < P.order.length) :
    P.Swept (k + 1) (P.step s) := by
  obtain ⟨n, rest, hpending, hn, hstep⟩ := h.exists_step hk
  obtain ⟨hlt, hrest⟩ := List.pairwise_cons.1 (hpending ▸ h.ascending)
  rw [hstep]
  refine ⟨?_, fun p hp => ?_, fun p hp hle => ?_, ?_, ?_⟩
  · rw [pending_visit]
    split
    · exact hrest
    · exact pairwise_enqueue hrest
  · rw [pending_visit] at hp
    split at hp
    · exact hlt p hp
    · next hnew =>
      rcases mem_enqueue.1 hp with hp | ⟨m, hm, rfl⟩
      · exact hlt p hp
      · exact hforward k n hn hnew m hm
  · have hmem := h.mem_of_le p hp (Nat.le_of_succ_le hle)
    rw [hpending] at hmem
    exact mem_pending_visit_of_mem ((List.mem_cons.1 hmem).resolve_left (Nat.ne_of_gt hle))
  · simp [h.positions, List.range_succ]
  · simp [h.nodes, List.take_add_one, hn]

/-- When all places have been visited nothing but places without a node can be pending. -/
theorem Swept.step_of_le (h : P.Swept k s) (hk : P.order.length ≤ k) : P.Swept k (P.step s) := by
  rcases P.step_cases s with
    ⟨-, hstep⟩ | ⟨position, rest, hpending, -, hstep⟩ | ⟨position, rest, n, hpending, hn, -⟩
  · rwa [hstep]
  · rw [hstep]
    refine ⟨(List.pairwise_cons.1 (hpending ▸ h.ascending)).2, fun p hp => ?_, fun p hp hle => ?_,
      h.positions, h.nodes⟩
    · exact h.le_of_mem p (by simp [hpending, hp])
    · omega
  · have hle := h.le_of_mem position (by simp [hpending])
    have hlt := (List.getElem?_eq_some_iff.1 hn).1
    omega

/-- If visits make only later places pending, in all states that a run can be in, then as many
steps as there are places visit each of them once, and further steps visit nothing. -/
theorem swept_iterate {Q : Progress α → Prop} (hkeep : ∀ s, Q s → Q (P.step s))
    (hforward : ∀ s, Q s → P.Forward s) (hstart : Q P.start) (k : Nat) :
    P.Swept (min k P.order.length) (P.step^[k] P.start) := by
  suffices Q (P.step^[k] P.start) ∧ P.Swept (min k P.order.length) (P.step^[k] P.start) from this.2
  induction k with
  | zero => exact ⟨hstart, by simpa using P.swept_start⟩
  | succ k ih =>
      obtain ⟨hQ, hswept⟩ := ih
      rw [Function.iterate_succ_apply']
      refine ⟨hkeep _ hQ, ?_⟩
      rcases Nat.lt_or_ge k P.order.length with hk | hk
      · rw [Nat.min_eq_left hk.le] at hswept
        rw [Nat.min_eq_left hk]
        exact hswept.step (hforward _ hQ) hk
      · rw [Nat.min_eq_right hk] at hswept
        rw [Nat.min_eq_right (Nat.le_succ_of_le hk)]
        exact hswept.step_of_le (Nat.le_refl _)

end Dataflow.Problem

/-- In acyclic code the order of visits puts a live node before the ends of its edges; an end that
is no node has no place and counts as last. -/
theorem Graph.Acyclic.idxOf_schedule_lt {g : Graph} {m n : Nat} (hg : g.Acyclic)
    (hm : g.Reachable m) (hn : n ∈ g.successors m) : g.schedule.idxOf m < g.schedule.idxOf n := by
  by_cases hlt : n < g.size
  · have harc : g.Arc m n := ⟨hn, hlt⟩
    have hplace : ∀ k, g.Reachable k → g.schedule.idxOf k = g.reversePostorder.idxOf k :=
      fun k hk => List.idxOf_append_of_mem (mem_reversePostorder.2 hk)
    rw [hplace m hm, hplace n (hm.arc harc)]
    exact hg.idxOf_lt hm harc
  · have hnone : g.schedule.idxOf n = g.schedule.length :=
      List.idxOf_eq_length (mt mem_schedule.1 hlt)
    rw [hnone]
    exact List.idxOf_lt_length_of_mem (mem_schedule.2 hm.lt_size)

namespace Checker

open Dataflow (Progress Visit)

variable {c : Checker} {g : Graph} {seed : Assignment} {s : Progress Flow}

theorem Confined.forward (hg : g.Acyclic) (hs : c.Confined g seed s) :
    (c.problem g seed).Forward s := by
  intro position n hn hnew m hm
  have hlawful := c.lawful_problem g seed
  rw [← hlawful.idxOf hn]
  exact hg.idxOf_schedule_lt (hs.reachable_of_changes (hlawful.lt_size hn) hnew) hm

theorem size_le_stepLimit (g : Graph) : g.size ≤ stepLimit g :=
  Nat.le_add_right _ _

theorem swept_solve (hg : g.Acyclic) (c : Checker) (seed : Assignment) :
    (c.problem g seed).Swept g.size (c.solve g seed) := by
  have hswept := Dataflow.Problem.swept_iterate (Q := c.Confined g seed) (fun _ => Confined.step)
    (fun _ => Confined.forward hg) (c.confined_start g seed) (stepLimit g)
  have hlength : (c.problem g seed).order.length = g.size := g.length_schedule
  rw [hlength, Nat.min_eq_right (size_le_stepLimit g)] at hswept
  have hsolve : c.solve g seed = (c.problem g seed).step^[stepLimit g] (c.problem g seed).start :=
    (c.problem g seed).run_eq_iterate _ _
  rwa [hsolve]

/-- Where control never gets to a cycle the worklist visits the places of the order one after the
other: every node is visited once, and judged once more if it is reachable. Dead nodes may lead
anywhere. -/
theorem visits_of_acyclic (c : Checker) (g : Graph) (seed : Assignment) (hg : g.Acyclic) :
    let visits := (c.analyze g seed).visits
    let stats := (c.check g seed).stats
    visits.map Visit.position = List.range g.size ∧
      visits.map Visit.node = g.schedule ∧
      (∀ n < g.size, (visits.map Visit.node).count n = 1) ∧
      stats.nodes = g.size ∧
      stats.worklistPops = stats.nodes ∧
      stats.transferApplications = stats.nodes + stats.reachableNodes := by
  intro visits stats
  have hswept := swept_solve hg c seed
  have hpositions : visits.map Visit.position = List.range g.size := by
    rw [← List.reverse_reverse (List.range g.size), ← hswept.positions, ← List.map_reverse]
    rfl
  have hnodes : visits.map Visit.node = g.schedule := by
    have htake : (c.problem g seed).order.take g.size = g.schedule :=
      List.take_of_length_le g.length_schedule.le
    rw [← List.reverse_reverse g.schedule, ← htake, ← hswept.nodes, ← List.map_reverse]
    rfl
  have hpops : stats.worklistPops = g.size := by
    have hlength := congrArg List.length hswept.positions
    rwa [List.length_map, List.length_reverse, List.length_range] at hlength
  refine ⟨hpositions, hnodes, fun n hn => ?_, rfl, hpops, ?_⟩
  · rw [hnodes]
    exact List.count_eq_one_of_mem g.nodup_schedule (Graph.mem_schedule.2 hn)
  · have hsize : stats.nodes = g.size := rfl
    rw [c.transferApplications_check g seed, hpops, hsize]

/-- The pet `k` is fed or frightened before the branches meet and it is teased. Two dead nodes stand
on a cycle, one of them also leads to itself, and both lead into the branches. -/
theorem visits_of_acyclic_branch :
    let c : Checker := { protocol := .pet, resolve := .ofType "Pet" }
    let g : Graph := ⟨"branch", none, #[⟨.nop, none⟩, ⟨.invoke "k" (some "Pet") "feed", none⟩,
      ⟨.invoke "k" (some "Pet") "scare", none⟩, ⟨.invoke "k" (some "Pet") "tease", none⟩,
      ⟨.nop, none⟩, ⟨.invoke "k" (some "Pet") "pet", none⟩],
      #[⟨4, 5, .sequential⟩, ⟨5, 4, .loopBack⟩, ⟨4, 4, .loopBack⟩, ⟨5, 3, .exception⟩,
        ⟨2, 3, .sequential⟩, ⟨0, 2, .falseBranch⟩, ⟨1, 3, .sequential⟩, ⟨0, 1, .trueBranch⟩,
        ⟨4, 1, .exception⟩, ⟨0, 1, .exception⟩], some 0⟩
    g.Acyclic ∧ g.OnCycle 4 ∧
      (c.analyze g ∅).visits.map Visit.node = [0, 1, 2, 3, 4, 5] ∧
      (c.check g ∅).stats.worklistPops = 6 ∧
      (c.check g ∅).stats.transferApplications = 10 := by
  intro c g
  have hrank : ∀ m < g.size, ∀ n < g.size, g.Reachable m → g.Arc m n → m < n := by decide +kernel
  have hacyclic : g.Acyclic := Graph.acyclic_of_rank id fun m n hm harc =>
    hrank m hm.lt_size n harc.2 hm harc
  have hcycle : g.OnCycle 4 := .single (by decide +kernel)
  obtain ⟨-, hnodes, -, hsize, hpops, happlied⟩ := visits_of_acyclic c g ∅ hacyclic
  have hreachable : (c.check g ∅).stats.reachableNodes = 4 := by decide +kernel
  refine ⟨hacyclic, hcycle, hnodes.trans (by decide +kernel), hpops.trans hsize, ?_⟩
  rw [happlied, hsize, hreachable]
  rfl

end Checker

end Typestate

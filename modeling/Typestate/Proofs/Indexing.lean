import Typestate.Proofs.GraphEdits
import Typestate.Proofs.Sweep

/-!
The analysis on tables. The order of visits, the place of each node in it, marks of the nodes that
are met and the values before and after the nodes are kept in tables with one entry for each node,
and `Checker.analyze?` has no result if it reads or writes outside of a table, or if it comes upon a
number that belongs to no node. For graphs that are built by their operations this never happens:
after every step the tables hold what the worklist holds, and what is pending are places of the
order.
-/

namespace Typestate

/-- Replaces an entry of a table; there must be one. -/
def store? {α : Type} (table : Array α) (n : Nat) (x : α) : Option (Array α) :=
  if n < table.size then some (table.setIfInBounds n x) else none

theorem store?_eq_some {α : Type} {table : Array α} {n : Nat} (hn : n < table.size) (x : α) :
    store? table n x = some (table.setIfInBounds n x) :=
  if_pos hn

/-- A loop does not fail if no round fails while an invariant holds, which speaks of the rounds made
so far and is kept by every round. -/
theorem exists_foldlM_eq_some {α β : Type} {f : β → α → Option β} {Q : List α → β → Prop}
    {xs : List α} {b : β} (hb : Q [] b)
    (hround : ∀ x ∈ xs, ∀ done b, Q done b → ∃ b', f b x = some b' ∧ Q (done ++ [x]) b') :
    ∃ r, xs.foldlM f b = some r ∧ Q xs r := by
  induction xs using List.reverseRecOn with
  | nil => exact ⟨b, rfl, hb⟩
  | append_singleton xs x ih =>
      obtain ⟨r, hr, hQ⟩ := ih fun y hy => hround y (by simp [hy])
      obtain ⟨r', hr', hQ'⟩ := hround x (by simp) xs r hQ
      refine ⟨r', ?_, hQ'⟩
      rw [List.foldlM_append, hr]
      simpa using hr'

/-- A loop whose rounds do not fail ends with the value that belongs to all rounds. -/
theorem foldlM_eq_some {α β : Type} {f : β → α → Option β} {F : List α → β} {xs : List α} {b : β}
    (hb : b = F []) (hround : ∀ x ∈ xs, ∀ done, f (F done) x = some (F (done ++ [x]))) :
    xs.foldlM f b = some (F xs) := by
  obtain ⟨r, hr, rfl⟩ := exists_foldlM_eq_some (Q := fun done r => r = F done) hb
    fun x hx done r hr => ⟨_, hr ▸ hround x hx done, rfl⟩
  exact hr

/-! ### Neighbours and places -/

namespace Graph

variable {g : Graph}

theorem Sound.successors_lt (hg : g.Sound) (n : Nat) : ∀ m ∈ g.successors n, m < g.size :=
  fun _ hm => (hg.lt_of_mem_successors hm).2

theorem Sound.predecessors_lt (hg : g.Sound) (n : Nat) : ∀ m ∈ g.predecessors n, m < g.size :=
  fun _ hm => (hg.lt_of_mem_successors (mem_predecessors.1 hm)).1

theorem exists_node_of_schedule {i n : Nat} (hn : g.schedule[i]? = some n) :
    ∃ node, g.nodes[n]? = some node :=
  ⟨_, Array.getElem?_eq_getElem (mem_schedule.1 (List.mem_of_getElem? hn))⟩

end Graph

namespace Dataflow.Problem

variable {α : Type} {P : Problem α} {s : Progress α}

/-- All values are stored, and what is pending are places of the order, each once. -/
structure Indexed (P : Problem α) (s : Progress α) : Prop where
  sized : P.Sized s
  ascending : s.pending.Pairwise (· < ·)
  lt_length : ∀ i ∈ s.pending, i < P.order.length

theorem indexed_start (P : Problem α) : P.Indexed P.start where
  sized := P.sized_start
  ascending := List.pairwise_lt_range
  lt_length _ hi := List.mem_range.1 hi

variable [DecidableEq α]

/-- No step drops a place: it visits the node that stands there. -/
theorem Indexed.step_cases (hs : P.Indexed s) :
    (s.pending = [] ∧ P.step s = s) ∨
      ∃ position rest n, s.pending = position :: rest ∧ P.order[position]? = some n ∧
        P.step s = P.visit s n position rest := by
  rcases P.step_cases s with hdone | ⟨position, rest, hpending, hnone, -⟩ | hvisit
  · exact .inl hdone
  · have hlt := hs.lt_length position (by simp [hpending])
    exact absurd (List.getElem?_eq_none_iff.1 hnone) (Nat.not_le_of_lt hlt)
  · exact .inr hvisit

theorem indexed_step (hL : P.Lawful) (hP : ∀ n, ∀ m ∈ P.successors n, m < P.size)
    (hs : P.Indexed s) : P.Indexed (P.step s) := by
  rcases hs.step_cases with ⟨-, hstep⟩ | ⟨position, rest, n, hpending, -, hstep⟩
  · rwa [hstep]
  · have hrest := (List.pairwise_cons.1 (hpending ▸ hs.ascending)).2
    have hold : ∀ i ∈ rest, i < P.order.length :=
      fun i hi => hs.lt_length i (by simp [hpending, hi])
    rw [hstep]
    refine ⟨sized_visit hs.sized, ?_, fun i hi => ?_⟩
    · rw [pending_visit]
      split
      · exact hrest
      · exact pairwise_enqueue hrest
    · rw [pending_visit] at hi
      split at hi
      · exact hold i hi
      · rcases mem_enqueue.1 hi with hi | ⟨m, hm, rfl⟩
        · exact hold i hi
        · exact List.idxOf_lt_length_of_mem ((hL.mem_order m).2 (hP n m hm))

theorem indexed_iterate (hL : P.Lawful) (hP : ∀ n, ∀ m ∈ P.successors n, m < P.size) (k : Nat) :
    P.Indexed (P.step^[k] P.start) := by
  rw [← P.run_eq_iterate]
  exact run_induction (Q := P.Indexed) (fun _ => indexed_step hL hP) k P.indexed_start

end Dataflow.Problem

namespace Checker

open Dataflow (Progress)

/-! ### Tables -/

/-- What an analysis stores, in tables. -/
structure Tables where
  /-- The nodes in the order of their visits. -/
  order : Array Nat
  /-- The place of each node in the order. -/
  position : Array Nat
  /-- How many nodes of the order are reachable; they come first. -/
  reachable : Nat
  inputs : Array Flow
  outputs : Array Flow
  /-- Places in the order that are still to be visited, ascending. -/
  pending : List Nat
  deriving DecidableEq

namespace Tables

/-- Marks nodes. -/
def marks? (g : Graph) (ns : List Nat) : Option (Array Bool) :=
  ns.foldlM (fun marks n => store? marks n true) (Array.replicate g.size false)

/-- The given nodes, followed by those that are not marked. -/
def order? (g : Graph) (marks : Array Bool) (reached : List Nat) : Option (Array Nat) :=
  (List.range g.size).foldlM
    (fun order n => do return if ← marks[n]? then order else order.push n) reached.toArray

/-- The place of each node in an order; a node that is missing there would be at the first place. -/
def position? (g : Graph) (order : Array Nat) : Option (Array Nat) :=
  order.toList.zipIdx.foldlM (fun position entry => store? position entry.1 entry.2)
    (Array.replicate g.size 0)

/-- The tables before the first visit. -/
def start? (g : Graph) : Option Tables := do
  let reached := g.reversePostorder
  let marks ← marks? g reached
  let order ← order? g marks reached
  let position ← position? g order
  return { order := order
           position := position
           reachable := reached.length
           inputs := Array.replicate g.size .unreachable
           outputs := Array.replicate g.size .unreachable
           pending := List.range order.size }

/-- The tables with the values and the pending places of a progress. -/
def holding (t : Tables) (s : Progress Flow) : Tables :=
  { t with inputs := s.inputs, outputs := s.outputs, pending := s.pending }

end Tables

/-- The value before a node, by its equation. -/
def inflow? (c : Checker) (g : Graph) (seed : Assignment) (outputs : Array Flow) (n : Nat) :
    Option Flow :=
  (g.predecessors n).foldlM (fun x m => do return x.join c.protocol.initial (← outputs[m]?))
    (if g.entry = some n then Flow.entry c.protocol.initial seed else .unreachable)

/-- Makes nodes pending. -/
def enqueue? (position : Array Nat) (nodes pending : List Nat) : Option (List Nat) :=
  nodes.foldlM (fun ps m => do return Ascending.insert (← position[m]?) ps) pending

/-- Visits a node. -/
def visit? (c : Checker) (g : Graph) (seed : Assignment) (t : Tables) (n : Nat) (node : Node)
    (rest : List Nat) : Option Tables := do
  let input ← c.inflow? g seed t.outputs n
  let output := (c.protocol.transfer c.resolve n node input).output
  let inputs ← store? t.inputs n input
  let stored ← t.outputs[n]?
  if output = stored then return { t with inputs := inputs, pending := rest }
  else
    let outputs ← store? t.outputs n output
    let pending ← enqueue? t.position (g.successors n) rest
    return { t with inputs := inputs, outputs := outputs, pending := pending }

/-- Visits the pending node that comes first. -/
def step? (c : Checker) (g : Graph) (seed : Assignment) (t : Tables) : Option Tables :=
  match t.pending with
  | [] => some t
  | i :: rest => do
    let n ← t.order[i]?
    let node ← g.nodes[n]?
    c.visit? g seed t n node rest

/-- Takes the given number of steps. -/
def run? (c : Checker) (g : Graph) (seed : Assignment) : Nat → Tables → Option Tables
  | 0, t => some t
  | k + 1, t => c.step? g seed t >>= c.run? g seed k

/-- Judges a node on the value before it. -/
def finding? (c : Checker) (g : Graph) (inputs : Array Flow) (n : Nat) : Option Finding := do
  let node ← g.nodes[n]?
  let input ← inputs[n]?
  return ⟨n, node, input, c.protocol.transfer c.resolve n node input⟩

/-- Judges the nodes that come first in the order, as many as are reachable. -/
def findings? (c : Checker) (g : Graph) (t : Tables) : Option (List Finding) :=
  if t.reachable ≤ t.order.size then
    (t.order.toList.take t.reachable).foldlM
      (fun fs n => do return fs ++ [← c.finding? g t.inputs n]) []
  else none

/-- Analyses a procedure on tables. -/
def analyze? (c : Checker) (g : Graph) (seed : Assignment) : Option (List Finding) := do
  let start ← Tables.start? g
  let solved ← c.run? g seed (stepLimit g) start
  c.findings? g solved

/-! ### The tables at the start -/

variable {c : Checker} {g : Graph} {seed : Assignment} {t : Tables} {s : Progress Flow}

namespace Tables

theorem exists_marks? {ns : List Nat} (hns : ∀ n ∈ ns, n < g.size) :
    ∃ marks, marks? g ns = some marks ∧ marks.size = g.size ∧
      ∀ n < g.size, marks[n]? = some (decide (n ∈ ns)) := by
  refine exists_foldlM_eq_some (Q := fun done (marks : Array Bool) => marks.size = g.size ∧
    ∀ n < g.size, marks[n]? = some (decide (n ∈ done))) ?_ ?_
  · exact ⟨Array.size_replicate, fun n hn => by simp [hn]⟩
  · rintro n hn done marks ⟨hsize, hread⟩
    have hlt : n < marks.size := hsize ▸ hns n hn
    refine ⟨_, store?_eq_some hlt true, by simpa using hsize, fun m hm => ?_⟩
    rw [Array.getElem?_setIfInBounds]
    by_cases hmn : n = m
    · subst hmn
      simp [hlt]
    · rw [if_neg hmn, hread m hm]
      simp [Ne.symm hmn]

theorem order?_eq_some {marks : Array Bool} {reached : List Nat}
    (hmarks : ∀ n < g.size, marks[n]? = some (decide (n ∈ reached))) :
    order? g marks reached =
      some (reached ++ (List.range g.size).filter (· ∉ reached)).toArray := by
  refine foldlM_eq_some (F := fun done => (reached ++ done.filter (· ∉ reached)).toArray)
    (by simp) fun n hn done => ?_
  rw [hmarks n (List.mem_range.1 hn)]
  by_cases hmem : n ∈ reached <;> simp [hmem]

/-- A node stands at one place only, so no place that is stored is overwritten by another one. -/
theorem exists_position? {order : List Nat} (hnodup : order.Nodup) (hlt : ∀ n ∈ order, n < g.size) :
    ∃ position, position? g order.toArray = some position ∧ position.size = g.size ∧
      ∀ i n : Nat, order[i]? = some n → position[n]? = some i := by
  have hplace : ∀ i j : Nat, ∀ n, order[i]? = some n → order[j]? = some n → i = j := by
    intro i j n hi hj
    have hi' : i < order.length := (List.getElem?_eq_some_iff.1 hi).1
    exact (List.getElem?_inj hi' hnodup).1 (hi.trans hj.symm)
  obtain ⟨position, hposition, hsize, hread⟩ : ∃ position,
      position? g order.toArray = some position ∧ position.size = g.size ∧
      ∀ i n : Nat, (n, i) ∈ order.zipIdx → order[i]? = some n → position[n]? = some i := by
    refine exists_foldlM_eq_some (Q := fun done (position : Array Nat) => position.size = g.size ∧
      ∀ i n : Nat, (n, i) ∈ done → order[i]? = some n → position[n]? = some i) ?_ ?_
    · exact ⟨Array.size_replicate, by simp⟩
    · rintro ⟨n, i⟩ hentry done position ⟨hsize, hread⟩
      have hi : order[i]? = some n := List.mk_mem_zipIdx_iff_getElem?.1 hentry
      have hn : n < position.size := hsize ▸ hlt n (List.mem_of_getElem? hi)
      refine ⟨_, store?_eq_some hn i, by simpa using hsize, fun j m hj hm => ?_⟩
      rw [Array.getElem?_setIfInBounds]
      by_cases hnm : n = m
      · -- An earlier entry for the node would name the same place.
        subst hnm
        simp [hn, hplace i j n hi hm]
      · rw [if_neg hnm]
        exact hread j m (by simpa [Ne.symm hnm] using hj) hm
  exact ⟨position, hposition, hsize, fun i n hi =>
    hread i n (List.mk_mem_zipIdx_iff_getElem?.2 hi) hi⟩

/-- The order is the one in which an analysis visits the nodes, and the places are those in it. -/
structure Lists (t : Tables) (g : Graph) : Prop where
  order : t.order = g.schedule.toArray
  position : ∀ n i : Nat, t.position[n]? = some i ↔ g.schedule[i]? = some n
  reachable : t.reachable = g.reversePostorder.length

theorem exists_start? (g : Graph) :
    ∃ t, start? g = some t ∧ t.Lists g ∧
      ∀ c seed, t.holding (problem c g seed).start = t := by
  obtain ⟨marks, hmarks, -, hmarked⟩ := exists_marks? (g := g)
    fun n hn => (Graph.mem_reversePostorder.1 hn).lt_size
  have horder : order? g marks g.reversePostorder = some g.schedule.toArray :=
    order?_eq_some hmarked
  obtain ⟨position, hposition, hsize, hplaces⟩ := exists_position? g.nodup_schedule
    fun n hn => Graph.mem_schedule.1 hn
  refine ⟨⟨g.schedule.toArray, position, g.reversePostorder.length,
    Array.replicate g.size .unreachable, Array.replicate g.size .unreachable,
    List.range g.schedule.toArray.size⟩, ?_, ⟨rfl, fun n i => ⟨fun hi => ?_, hplaces i n⟩, rfl⟩,
    fun c seed => rfl⟩
  · simp [start?, hmarks, horder, hposition]
  · have hn : n < g.size := hsize ▸ (Array.getElem?_eq_some_iff.1 hi).1
    obtain ⟨j, hj⟩ := List.mem_iff_getElem?.1 (Graph.mem_schedule.2 hn)
    have hij : i = j := Option.some_inj.1 (hi.symm.trans (hplaces j n hj))
    rw [hij, hj]

end Tables

/-! ### Steps -/

theorem inflow?_eq_some (c : Checker) (seed : Assignment) (hg : g.Sound) {outputs : Array Flow}
    (hsize : outputs.size = g.size) (n : Nat) :
    c.inflow? g seed outputs n = some ((c.problem g seed).inflow outputs n) := by
  refine foldlM_eq_some (F := fun done => done.foldl
    (fun x m => x.join c.protocol.initial ((c.problem g seed).value outputs m))
    ((c.problem g seed).source n)) rfl fun m hm done => ?_
  have hlt : m < outputs.size := hsize ▸ hg.predecessors_lt n m hm
  rw [List.foldl_append]
  simp [Dataflow.Problem.value, Array.getD, hlt]

theorem enqueue?_eq_some (c : Checker) (seed : Assignment) (ht : t.Lists g) {nodes : List Nat}
    (hnodes : ∀ m ∈ nodes, m < g.size) (pending : List Nat) :
    enqueue? t.position nodes pending = some ((c.problem g seed).enqueue nodes pending) := by
  refine foldlM_eq_some (F := fun done => (c.problem g seed).enqueue done pending) rfl
    fun m hm done => ?_
  have hplace : t.position[m]? = some (g.schedule.idxOf m) :=
    (ht.position m _).2 (List.getElem?_idxOf (Graph.mem_schedule.2 (hnodes m hm)))
  simp [hplace, Dataflow.Problem.enqueue, problem]

theorem visit?_eq_some (hg : g.Sound) (ht : t.Lists g) (hs : (c.problem g seed).Sized s) {n : Nat}
    {node : Node} (hnode : g.nodes[n]? = some node) (position : Nat) (rest : List Nat) :
    c.visit? g seed (t.holding s) n node rest =
      some (t.holding ((c.problem g seed).visit s n position rest)) := by
  have hn : n < g.size := (Array.getElem?_eq_some_iff.1 hnode).1
  have hinputs : n < s.inputs.size := hs.inputs.symm ▸ hn
  have houtputs : n < s.outputs.size := hs.outputs.symm ▸ hn
  have hinflow := inflow?_eq_some c seed hg hs.outputs n
  have hstored : s.outputs[n]? = some ((c.problem g seed).value s.outputs n) := by
    simp [Dataflow.Problem.value, Array.getD, houtputs]
  have hpending := enqueue?_eq_some c seed ht (hg.successors_lt n) rest
  have htransfer : (c.problem g seed).transfer n ((c.problem g seed).inflow s.outputs n) =
      (c.protocol.transfer c.resolve n node ((c.problem g seed).inflow s.outputs n)).output :=
    congrArg Outcome.output (outcome_of_node hnode _)
  -- No access fails, so both visits compare the same two values.
  unfold visit? Dataflow.Problem.visit
  simp only [Tables.holding, hinflow, htransfer, store?_eq_some hinputs, store?_eq_some houtputs,
    hstored, hpending, Option.bind_eq_bind, Option.bind_some]
  split
  · rfl
  · rfl

theorem step?_eq_some (hg : g.Sound) (ht : t.Lists g) (hs : (c.problem g seed).Indexed s) :
    c.step? g seed (t.holding s) = some (t.holding ((c.problem g seed).step s)) := by
  rcases hs.step_cases with ⟨hpending, hstep⟩ | ⟨position, rest, n, hpending, hn, hstep⟩
  · rw [hstep]
    simp [step?, Tables.holding, hpending]
  · obtain ⟨node, hnode⟩ := Graph.exists_node_of_schedule hn
    have horder : t.order[position]? = some n := by
      rw [ht.order, List.getElem?_toArray]
      exact hn
    have hvisit := visit?_eq_some hg ht hs.sized hnode position rest
    rw [hstep, ← hvisit]
    simp [step?, Tables.holding, hpending, horder, hnode]

theorem run?_eq_some (hg : g.Sound) (ht : t.Lists g) (k : Nat)
    (hs : (c.problem g seed).Indexed s) :
    c.run? g seed k (t.holding s) = some (t.holding ((c.problem g seed).step^[k] s)) := by
  induction k generalizing s with
  | zero => rfl
  | succ k ih =>
      have hnext := Dataflow.Problem.indexed_step (c.lawful_problem g seed) hg.successors_lt hs
      rw [run?, step?_eq_some hg ht hs, Function.iterate_succ_apply, ← ih hnext]
      rfl

/-! ### Judgements -/

theorem finding?_of_node {inputs : Array Flow} (hsize : inputs.size = g.size) {n : Nat}
    {node : Node} (hnode : g.nodes[n]? = some node) :
    c.finding? g inputs n = some ⟨n, node, inputs.getD n .unreachable,
      c.outcome g n (inputs.getD n .unreachable)⟩ := by
  have hn : n < inputs.size := hsize ▸ (Array.getElem?_eq_some_iff.1 hnode).1
  have hread : inputs[n]? = some (inputs.getD n .unreachable) := by
    simp [Array.getD, hn]
  rw [outcome_of_node hnode]
  simp only [finding?, hnode, hread, Option.bind_eq_bind, Option.bind_some, Option.pure_def]

theorem findings?_eq_some (ht : t.Lists g) (hs : s.inputs.size = g.size) :
    c.findings? g (t.holding s) = some (c.findings g s.inputs) := by
  have hlive : t.order.toList.take t.reachable = g.reversePostorder := by
    rw [ht.order, ht.reachable]
    exact List.take_left
  have hle : t.reachable ≤ t.order.size := by
    rw [ht.order, ht.reachable, List.size_toArray, g.length_schedule]
    exact length_reversePostorder_le g
  unfold findings?
  simp only [Tables.holding, if_pos hle, hlive]
  refine foldlM_eq_some (F := fun done => done.filterMap fun n => g.nodes[n]?.map fun node =>
    (⟨n, node, s.inputs.getD n .unreachable,
      c.outcome g n (s.inputs.getD n .unreachable)⟩ : Finding)) rfl fun n hn done => ?_
  have hlt : n < g.nodes.size := (Graph.mem_reversePostorder.1 hn).lt_size
  have hnode : g.nodes[n]? = some g.nodes[n] := Array.getElem?_eq_getElem hlt
  rw [finding?_of_node hs hnode, List.filterMap_append]
  simp [hnode]

/-- An analysis on tables stays in range. The order lists all nodes once, those that the entry leads
to in reverse postorder and then the others by number, and the places are the inverse of it. However
many steps are taken, none fails and the tables hold what the worklist holds; what is pending are
places of the order, and at each of them stands a node with neighbours that are nodes. So solving
and judging end with the findings of the analysis. -/
theorem indices_in_range (c : Checker) (g : Graph) (seed : Assignment) (hg : g.Built) :
    let P := c.problem g seed
    (∃ t, Tables.start? g = some t ∧
      t.order.toList.Perm (List.range g.size) ∧
      (∃ dead, t.order.toList = g.reversePostorder ++ dead ∧ dead.Pairwise (· < ·) ∧
        ∀ n, n ∈ dead ↔ n < g.size ∧ ¬g.Reachable n) ∧
      t.reachable = g.reversePostorder.length ∧
      (∀ n i : Nat, t.position[n]? = some i ↔ t.order[i]? = some n) ∧
      (∀ k, let s := P.step^[k] P.start
        c.run? g seed k t = some (t.holding s) ∧
        s.inputs.size = g.size ∧ s.outputs.size = g.size ∧ s.pending.Pairwise (· < ·) ∧
        ∀ i ∈ s.pending, ∃ n node, t.order[i]? = some n ∧ g.nodes[n]? = some node ∧
          (∀ m ∈ g.predecessors n, m < g.size) ∧ ∀ m ∈ g.successors n, m < g.size) ∧
      c.findings? g (t.holding (c.solve g seed)) = some (c.analyze g seed).findings) ∧
    (c.solve g seed).pending = [] ∧
    c.analyze? g seed = some (c.analyze g seed).findings := by
  intro P
  have hsound := hg.sound
  obtain ⟨t, hstart, ht, hhold⟩ := Tables.exists_start? g
  have hlawful := c.lawful_problem g seed
  have hindexed : ∀ k, P.Indexed (P.step^[k] P.start) :=
    Dataflow.Problem.indexed_iterate hlawful hsound.successors_lt
  have hrun : ∀ k, c.run? g seed k t = some (t.holding (P.step^[k] P.start)) := by
    intro k
    rw [← run?_eq_some hsound ht k P.indexed_start, hhold]
  have hsolve : c.solve g seed = P.step^[stepLimit g] P.start := P.run_eq_iterate _ _
  have hjudged : c.findings? g (t.holding (c.solve g seed)) = some (c.analyze g seed).findings :=
    findings?_eq_some ht (hsolve ▸ (hindexed (stepLimit g)).sized.inputs)
  have horder : t.order.toList = g.schedule := by rw [ht.order]
  refine ⟨⟨t, hstart, ?_, ⟨_, horder, ?_, fun n => ?_⟩, ht.reachable, fun n i => ?_, fun k => ?_,
    hjudged⟩, (c.solve_ends g seed).1, ?_⟩
  · rw [horder]
    exact g.perm_schedule
  · exact List.pairwise_lt_range.filter _
  · simp [Graph.mem_reversePostorder]
  · rw [ht.position, ht.order, List.getElem?_toArray]
  · refine ⟨hrun k, (hindexed k).sized.inputs, (hindexed k).sized.outputs, (hindexed k).ascending,
      fun i hi => ?_⟩
    have hlt : i < g.schedule.length := (hindexed k).lt_length i hi
    have hn : g.schedule[i]? = some g.schedule[i] := List.getElem?_eq_getElem hlt
    obtain ⟨node, hnode⟩ := Graph.exists_node_of_schedule hn
    refine ⟨_, node, ?_, hnode, hsound.predecessors_lt _, hsound.successors_lt _⟩
    rw [ht.order, List.getElem?_toArray, hn]
  · simp only [analyze?, hstart, Option.bind_eq_bind, Option.bind_some, hrun, ← hsolve]
    exact hjudged

/-- The entry is node 1, where the pet `k` is teased although it sleeps. It leads to node 3 by two
edges and back; nodes 0 and 2 are dead, the first leads into the loop and the other one to itself.
The second visit makes the entry pending again. -/
theorem indices_in_range_loop :
    let c : Checker := { protocol := .pet, resolve := .ofType "Pet" }
    let d : GraphDocument := ⟨"loop", none, some 1, [⟨.nop, none, none⟩,
      ⟨.invoke "k" (some "Pet") "tease", none, none⟩, ⟨.nop, none, none⟩, ⟨.nop, none, none⟩],
      [⟨2, 2, .loopBack⟩, ⟨1, 3, .sequential⟩, ⟨0, 3, .sequential⟩, ⟨3, 1, .loopBack⟩,
        ⟨1, 3, .exception⟩]⟩
    let g := d.plainGraph
    let P := c.problem g ∅
    g.Built ∧ (P.step^[2] P.start).pending = [0, 2, 3] ∧
      (∃ t, Tables.start? g = some t ∧ t.order = #[1, 3, 0, 2] ∧ t.position = #[2, 0, 3, 1] ∧
        c.run? g ∅ 2 t = some (t.holding (P.step^[2] P.start)) ∧
        ∀ i ∈ [0, 2, 3], ∃ n node, t.order[i]? = some n ∧ g.nodes[n]? = some node) ∧
      ∃ fs, c.analyze? g ∅ = some fs ∧ fs.map Finding.node = [1, 3] ∧
        (violations g.file fs).length = 1 := by
  intro c d g P
  have hbuilt : g.Built := Graph.built_of_toGraph (d := d) (by decide +kernel)
  obtain ⟨⟨t, hstart, -, -, -, -, hsteps, -⟩, -, hanalyze⟩ := indices_in_range c g ∅ hbuilt
  have hpending : (P.step^[2] P.start).pending = [0, 2, 3] := by decide +kernel
  have htables : (Tables.start? g).map (fun t => (t.order, t.position)) =
      some (#[1, 3, 0, 2], #[2, 0, 3, 1]) := by decide +kernel
  rw [hstart, Option.map_some, Option.some_inj, Prod.mk.injEq] at htables
  obtain ⟨hrun, -, -, -, hplaces⟩ := hsteps 2
  refine ⟨hbuilt, hpending, ⟨t, hstart, htables.1, htables.2, hrun, fun i hi => ?_⟩, _, hanalyze,
    by decide +kernel, by decide +kernel⟩
  obtain ⟨n, node, hn, hnode, -⟩ := hplaces i (hpending ▸ hi)
  exact ⟨n, node, hn, hnode⟩

-- An edge that starts at no node is out of range at its end.
example : ({ protocol := .pet, resolve := .all } : Checker).analyze?
    ⟨"f", none, #[⟨.nop, none⟩], #[⟨7, 0, .sequential⟩], some 0⟩ ∅ = none := by
  decide +kernel

end Checker

end Typestate

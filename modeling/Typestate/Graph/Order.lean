import Typestate.Graph.Basic

/-!
The depth-first order of a graph. A search from the entry follows the edges of each node oldest
first and finishes a node when all that it leads to is finished; the reverse postorder lists the
nodes from the last finished to the first, so without cycles each node stands before those that it
leads to. `Graph.schedule` appends the nodes that the search does not meet.
-/

namespace Typestate.Graph

/-- What a depth-first search has yet to do with a node. -/
inductive Task where
  /-- Search from the node, if it is new. -/
  | visit (node : Nat)
  /-- Finish the node: all that it leads to is done. -/
  | finish (node : Nat)
  deriving DecidableEq

/-- The number of nodes that a search has not met. -/
def unseen (g : Graph) (seen : List Nat) : Nat :=
  (List.range g.size).countP (· ∉ seen)

/-- A stronger condition that fails at some member is met less often. -/
theorem countP_lt_countP {α : Type} {p q : α → Bool} (hpq : ∀ k, p k = true → q k = true) {n : α}
    {ns : List α} (hn : n ∈ ns) (hp : p n = false) (hq : q n = true) :
    ns.countP p < ns.countP q := by
  obtain ⟨before, after, rfl⟩ := List.append_of_mem hn
  have hb : before.countP p ≤ before.countP q := List.countP_mono_left fun k _ => hpq k
  have ha : after.countP p ≤ after.countP q := List.countP_mono_left fun k _ => hpq k
  simp only [List.countP_append, List.countP_cons, hp, hq]
  simp only [Bool.false_eq_true, ↓reduceIte]
  omega

theorem unseen_cons_lt (g : Graph) {n : Nat} {seen : List Nat} (hn : n < g.size)
    (hs : n ∉ seen) : g.unseen (n :: seen) < g.unseen seen := by
  apply countP_lt_countP _ (List.mem_range.2 hn)
  · simp
  · simpa using hs
  · intro k hk
    simp only [decide_eq_true_eq, List.mem_cons, not_or] at hk ⊢
    exact hk.2

theorem length_targets_le (g : Graph) (n : Nat) : (g.targets n).length ≤ g.edges.size := by
  simpa [targets] using List.length_filter_le (fun e : Edge => e.source = n) g.edges.toList

/-- Works off the tasks of a search. The nodes met so far are `seen`; the finished ones are in
`done`, last finished first. -/
def search (g : Graph) (tasks : List Task) (seen done : List Nat) : List Nat :=
  match tasks with
  | [] => done
  | .finish n :: rest => g.search rest seen (n :: done)
  | .visit n :: rest =>
    if n < g.size ∧ n ∉ seen then
      g.search ((g.targets n).map .visit ++ .finish n :: rest) (n :: seen) done
    else g.search rest seen done
termination_by g.unseen seen * (g.edges.size + 1) + tasks.length
decreasing_by
  · simp
  · next h =>
    have hunseen := g.unseen_cons_lt h.1 h.2
    have htargets := g.length_targets_le n
    have hstep : (g.unseen (n :: seen) + 1) * (g.edges.size + 1)
        ≤ g.unseen seen * (g.edges.size + 1) := Nat.mul_le_mul_right _ hunseen
    simp only [List.length_append, List.length_map, List.length_cons]
    rw [Nat.add_mul] at hstep
    omega
  · simp

/-- The nodes that the entry leads to, last finished first. -/
def reversePostorder (g : Graph) : List Nat :=
  match g.entry with
  | none => []
  | some n => g.search [.visit n] [] []

/-- All nodes in the order in which an analysis visits them: those that the entry leads to in
reverse postorder, then the others by number. -/
def schedule (g : Graph) : List Nat :=
  let reached := g.reversePostorder
  reached ++ (List.range g.size).filter (· ∉ reached)

end Typestate.Graph

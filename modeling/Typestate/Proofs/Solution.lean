import Typestate.Proofs.Bound
import Typestate.Protocol.Standard

/-!
The values that the checker computes are the least solution of the dataflow equations. `before` and
`after` are the values that are stored for a node when the worklist has run empty.
-/

namespace Typestate.Checker

/-- The value before a node, once the equations are solved. -/
def before (c : Checker) (g : Graph) (seed : Assignment) (n : Nat) : Flow :=
  (c.solve g seed).inputs.getD n .unreachable

/-- The value after a node, once the equations are solved. -/
def after (c : Checker) (g : Graph) (seed : Assignment) (n : Nat) : Flow :=
  (c.solve g seed).outputs.getD n .unreachable

/-- Canonical values before and after the nodes that satisfy the dataflow equations: the value
before a node joins the values after its predecessors and, at the entry, what enters the
procedure. -/
structure IsSolution (c : Checker) (g : Graph) (seed : Assignment) (input output : Nat → Flow) :
    Prop where
  canonical_input : ∀ n < g.size, (input n).Canonical c.protocol.initial
  canonical_output : ∀ n < g.size, (output n).Canonical c.protocol.initial
  input_eq : ∀ n < g.size, input n =
    (g.predecessors n).foldl (fun x m => x.join c.protocol.initial (output m))
      (if g.entry = some n then Flow.entry c.protocol.initial seed else .unreachable)
  output_eq : ∀ n < g.size, output n = (c.outcome g n (input n)).output

variable {c : Checker} {g : Graph} {seed : Assignment}

theorem IsSolution.solution {input output : Nat → Flow} (h : c.IsSolution g seed input output) :
    (c.problem g seed).Solution input output :=
  ⟨h.input_eq, h.output_eq⟩

/-- What the equations do not lead out of holds of the solved values. -/
theorem closed_solve {I O : Nat → Flow → Prop} (hC : (c.problem g seed).Closed I O) (n : Nat) :
    I n (c.before g seed n) ∧ O n (c.after g seed n) :=
  hC.run (c.lawful_problem g seed) (stepLimit g) n

theorem solution_solve (c : Checker) (g : Graph) (seed : Assignment) :
    (c.problem g seed).Solution (c.before g seed) (c.after g seed) :=
  (Dataflow.Problem.settled_run (c.lawful_problem g seed) (stepLimit g)).solution
    (c.lawful_problem g seed) (c.solve_ends g seed).1

theorem admissible_before (c : Checker) (g : Graph) (seed : Assignment) (n : Nat) :
    c.Admissible g seed n (c.before g seed n) :=
  (closed_solve (c.closed_admissible g seed) n).1

theorem admissible_after (c : Checker) (g : Graph) (seed : Assignment) (n : Nat) :
    c.Admissible g seed n (c.after g seed n) :=
  (closed_solve (c.closed_admissible g seed) n).2

theorem isSolution_solve (c : Checker) (g : Graph) (seed : Assignment) :
    c.IsSolution g seed (c.before g seed) (c.after g seed) where
  canonical_input n _ := (c.admissible_before g seed n).canonical
  canonical_output n _ := (c.admissible_after g seed n).canonical
  input_eq := (c.solution_solve g seed).input_eq
  output_eq := (c.solution_solve g seed).output_eq

/-- The solved values are below all values that are at least what the equations make of them. -/
theorem under_of_supersolution {input output : Nat → Flow}
    (hS : (c.problem g seed).Supersolution (Flow.Under c.protocol.initial) input output) (n : Nat) :
    (c.before g seed n).Under c.protocol.initial (input n) ∧
      (c.after g seed n).Under c.protocol.initial (output n) := by
  obtain ⟨hinput, houtput, hbottom⟩ := closed_solve ((c.monotone_problem g seed).closed_below hS) n
  refine ⟨hinput, ?_⟩
  by_cases hn : n < g.size
  · exact houtput hn
  · rw [hbottom (Nat.le_of_not_lt hn)]
    exact Flow.unreachable_under _

theorem IsSolution.under {input output : Nat → Flow} (h : c.IsSolution g seed input output)
    (n : Nat) :
    (c.before g seed n).Under c.protocol.initial (input n) ∧
      (c.after g seed n).Under c.protocol.initial (output n) :=
  under_of_supersolution ((c.monotone_problem g seed).supersolution h.solution) n

/-- Solved values that are below each other are equal. -/
theorem before_after_eq_of_under {g' : Graph} {seed' : Assignment} {n n' : Nat}
    (hle : (c.before g seed n).Under c.protocol.initial (c.before g' seed' n') ∧
      (c.after g seed n).Under c.protocol.initial (c.after g' seed' n'))
    (hge : (c.before g' seed' n').Under c.protocol.initial (c.before g seed n) ∧
      (c.after g' seed' n').Under c.protocol.initial (c.after g seed n)) :
    c.before g seed n = c.before g' seed' n' ∧ c.after g seed n = c.after g' seed' n' := by
  constructor
  · exact Flow.Under.antisymm (c.admissible_before g seed n).canonical
      (c.admissible_before g' seed' n').canonical hle.1 hge.1
  · exact Flow.Under.antisymm (c.admissible_after g seed n).canonical
      (c.admissible_after g' seed' n').canonical hle.2 hge.2

/-- What enters the procedure is below the value before the entry. -/
theorem entry_under_before {n : Nat} (hentry : g.entry = some n) (hn : n < g.size) :
    (Flow.entry c.protocol.initial seed).Under c.protocol.initial (c.before g seed n) := by
  rw [(c.solution_solve g seed).input_eq n hn]
  have hsource := (c.monotone_problem g seed).source_le_merged (c.after g seed) n
  simpa only [problem, if_pos hentry] using hsource

/-- The value after a node is below the values before its successors. -/
theorem after_under_before (c : Checker) (seed : Assignment) {m n : Nat} (harc : g.Arc m n) :
    (c.after g seed m).Under c.protocol.initial (c.before g seed n) := by
  rw [(c.solution_solve g seed).input_eq n harc.2]
  exact (c.monotone_problem g seed).le_merged _ (Graph.mem_predecessors.2 harc.1)

theorem after_eq {n : Nat} (hn : n < g.size) :
    c.after g seed n = (c.outcome g n (c.before g seed n)).output :=
  (c.solution_solve g seed).output_eq n hn

/-- When the worklist has run empty the stored values satisfy the dataflow equations at every node,
and they are below all other canonical values that do. -/
theorem solve_isLeast (c : Checker) (g : Graph) (seed : Assignment) :
    (c.solve g seed).pending = [] ∧
      (c.solve g seed).inputs.size = g.size ∧ (c.solve g seed).outputs.size = g.size ∧
      c.IsSolution g seed (c.before g seed) (c.after g seed) ∧
      ∀ input output, c.IsSolution g seed input output → ∀ n < g.size,
        (c.before g seed n).Le c.protocol.initial (input n) ∧
          (c.after g seed n).Le c.protocol.initial (output n) := by
  have hsized := (c.problem g seed).sized_run (stepLimit g)
  refine ⟨(c.solve_ends g seed).1, hsized.inputs, hsized.outputs, c.isSolution_solve g seed, ?_⟩
  intro input output hsolution n hn
  obtain ⟨hinput, houtput⟩ := hsolution.under n
  exact ⟨(Flow.le_iff_under (hsolution.canonical_input n hn)).2 hinput,
    (Flow.le_iff_under (hsolution.canonical_output n hn)).2 houtput⟩

/-- A loop through one node has a second solution, in which the state of a handle is unknown
although nothing is called; the solved values are below it. -/
theorem solve_isLeast_loop :
    let c : Checker := { protocol := .pet, resolve := .ofType "Pet" }
    let g : Graph := ⟨"loop", none, #[⟨.nop, none⟩], #[⟨0, 0, .loopBack⟩], some 0⟩
    let lost : Flow := .reached ((∅ : Assignment).assign ⟨"Sleeping"⟩ ⟨"k"⟩ .unknown)
    c.IsSolution g ∅ (fun _ => lost) (fun _ => lost) ∧ c.before g ∅ 0 ≠ lost ∧
      (c.before g ∅ 0).Le c.protocol.initial lost ∧
      (c.after g ∅ 0).Le c.protocol.initial lost := by
  intro c g lost
  have hcanonical : lost.Canonical c.protocol.initial :=
    Assignment.canonical_empty.assign ⟨"k"⟩ .unknown
  have hlost : c.IsSolution g ∅ (fun _ => lost) (fun _ => lost) := by
    refine ⟨fun _ _ => hcanonical, fun _ _ => hcanonical, ?_, ?_⟩
    · intro n hn
      obtain rfl : n = 0 := Nat.lt_one_iff.1 hn
      decide +kernel
    · intro n hn
      obtain rfl : n = 0 := Nat.lt_one_iff.1 hn
      decide +kernel
  obtain ⟨-, -, -, -, hleast⟩ := solve_isLeast c g ∅
  exact ⟨hlost, by decide +kernel, hleast _ _ hlost 0 (by decide)⟩

end Typestate.Checker

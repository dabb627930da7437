import Typestate.Proofs.DeadCode

/-!
Canonical values throughout an analysis. What enters a procedure is stored without the handles that
are in the initial state, and no operation on values stores such a handle, so the values of a run
are canonical after every step. On canonical values equality is agreement on the state of every
handle (`Flow.eq_iff_sameStates`). So the worklist takes a value for new exactly if something else
can be read out of it, and a seed counts for no more than the states that it gives to handles.
-/

namespace Typestate

/-- Assignments that give every handle the same state differ in handles stored in the initial state
alone. -/
theorem Assignment.normalize_congr {initial : State} {m n : Assignment}
    (hsame : ∀ h, m.state initial h = n.state initial h) :
    m.normalize initial = n.normalize initial := by
  refine (canonical_normalize m).ext (canonical_normalize n) fun h => ?_
  rw [state_normalize, state_normalize, hsame]

namespace Flow

variable {initial : State} {x y : Flow}

/-- Neither value is reached, or both are and every handle has the same state in both. -/
def SameStates (initial : State) : Flow → Flow → Prop
  | unreachable, unreachable => True
  | reached m, reached n => ∀ h, m.state initial h = n.state initial h
  | unreachable, reached _ => False
  | reached _, unreachable => False

theorem sameStates_iff :
    SameStates initial x y ↔ ∀ h, x.state? initial h = y.state? initial h := by
  cases x with
  | unreachable =>
      cases y with
      | unreachable => simp [SameStates]
      | reached n => simpa [SameStates] using ⟨⟨""⟩⟩
  | reached m =>
      cases y with
      | unreachable => simpa [SameStates] using ⟨⟨""⟩⟩
      | reached n => simp [SameStates]

theorem eq_iff_sameStates (hx : x.Canonical initial) (hy : y.Canonical initial) :
    x = y ↔ SameStates initial x y := by
  rw [sameStates_iff]
  constructor
  · rintro rfl h
    rfl
  · exact hx.ext hy

end Flow

namespace Checker

open Dataflow (Progress)

variable {c : Checker} {g : Graph} {seed : Assignment} {s : Progress Flow}

theorem confined_iterate (c : Checker) (g : Graph) (seed : Assignment) (k : Nat) :
    c.Confined g seed ((c.problem g seed).step^[k] (c.problem g seed).start) := by
  induction k with
  | zero => exact c.confined_start g seed
  | succ k ih =>
      rw [Function.iterate_succ_apply']
      exact ih.step

theorem Confined.canonical (hs : c.Confined g seed s) (n : Nat) :
    ((c.problem g seed).value s.inputs n).Canonical c.protocol.initial ∧
      ((c.problem g seed).value s.outputs n).Canonical c.protocol.initial :=
  ⟨(hs.2 n).1.canonical, (hs.2 n).2.canonical⟩

/-- The value that a visit gives a node is compared with the stored one by what can be read out of
the two. -/
theorem Confined.transfer_eq_value_iff (hs : c.Confined g seed s) {n : Nat} (hn : n < g.size) :
    (c.problem g seed).transfer n ((c.problem g seed).inflow s.outputs n) =
        (c.problem g seed).value s.outputs n ↔
      Flow.SameStates c.protocol.initial
        ((c.problem g seed).transfer n ((c.problem g seed).inflow s.outputs n))
        ((c.problem g seed).value s.outputs n) := by
  have hinflow : c.Admissible g seed n ((c.problem g seed).inflow s.outputs n) :=
    (c.closed_admissible g seed).merged (fun m => (hs.2 m).2) hn
  exact Flow.eq_iff_sameStates (canonical_outcome hinflow.canonical) (hs.canonical n).2

/-- Of a seed only the states matter that it gives to handles. -/
theorem analyze_congr_seed {seed' : Assignment} (c : Checker) (g : Graph)
    (hsame : ∀ h, seed'.state c.protocol.initial h = seed.state c.protocol.initial h) :
    c.analyze g seed' = c.analyze g seed := by
  have hentry : Flow.entry c.protocol.initial seed' = Flow.entry c.protocol.initial seed :=
    congrArg Flow.reached (Assignment.normalize_congr hsame)
  have hproblem : c.problem g seed' = c.problem g seed := by
    simp only [problem, hentry]
  simp only [analyze, solve, hproblem]

/-- No value of an analysis stores a handle in the initial state: not what enters the procedure,
whatever the seed, and not the values before and after the nodes, however many steps of the worklist
have been taken. Giving a handle a state, joining and passing a node keep it so. For such values
equality means that every handle has the same state. So a visit takes the value after its node for
new, stores it and makes the successors pending exactly if a handle has another state in it, or if it
is the first one that is reached; and seeds that give all handles the same states are analysed alike,
visit by visit. -/
theorem canonical_throughout (c : Checker) (g : Graph) (seed : Assignment) :
    let P := c.problem g seed
    let initial := c.protocol.initial
    (Flow.entry initial seed).Canonical initial ∧
    (∀ k, let s := P.step^[k] P.start
      (s.inputs.size = g.size ∧ s.outputs.size = g.size) ∧
      ∀ n, (P.value s.inputs n).Canonical initial ∧ (P.value s.outputs n).Canonical initial) ∧
    (∀ m : Assignment, m.Canonical initial → ∀ h t, (m.assign initial h t).Canonical initial) ∧
    (∀ x y : Flow, x.Canonical initial → y.Canonical initial →
      (x.join initial y).Canonical initial) ∧
    (∀ x : Flow, x.Canonical initial → ∀ n node,
      (c.protocol.transfer c.resolve n node x).output.Canonical initial) ∧
    (∀ x y : Flow, x.Canonical initial → y.Canonical initial →
      (x = y ↔ Flow.SameStates initial x y)) ∧
    (∀ k position rest n, let s := P.step^[k] P.start
      s.pending = position :: rest → g.schedule[position]? = some n →
        let same := Flow.SameStates initial (P.transfer n (P.inflow s.outputs n))
          (P.value s.outputs n)
        ((P.step s).outputs = s.outputs ↔ same) ∧
        (same → (P.step s).pending = rest) ∧
        (¬same → (P.step s).pending = P.enqueue (g.successors n) rest)) ∧
    ∀ seed' : Assignment, (∀ h, seed'.state initial h = seed.state initial h) →
      c.check g seed' = c.check g seed ∧ c.analyze g seed' = c.analyze g seed := by
  intro P initial
  refine ⟨Flow.canonical_entry seed, fun k => ?_, fun m hm h t => hm.assign h t,
    fun x y hx hy => hx.join hy, fun x hx n node => Protocol.canonical_transfer hx,
    fun x y hx hy => Flow.eq_iff_sameStates hx hy, ?_, fun seed' hsame => ?_⟩
  · have hconfined := c.confined_iterate g seed k
    exact ⟨⟨hconfined.1.inputs, hconfined.1.outputs⟩, hconfined.canonical⟩
  · intro k position rest n s hpending hn same
    have hconfined : c.Confined g seed s := c.confined_iterate g seed k
    have hlt : n < g.size := (c.lawful_problem g seed).lt_size hn
    have hsame := hconfined.transfer_eq_value_iff hlt
    rw [Dataflow.Problem.step_eq_visit hpending hn, Dataflow.Problem.pending_visit]
    refine ⟨(Dataflow.Problem.outputs_visit_eq_iff hconfined.1 hlt).trans hsame, fun h => ?_,
      fun h => ?_⟩
    · exact if_pos (hsame.2 h)
    · exact if_neg (mt hsame.1 h)
  · have hanalyze := c.analyze_congr_seed g hsame
    exact ⟨congrArg Analysis.report hanalyze, hanalyze⟩

/-- The pet `k` runs in and is petted in a loop, which is refused. The second visit to the node
finds the same states as the first and ends the run, and it makes no difference if the seed says of
another pet that it is asleep. -/
theorem canonical_throughout_loop :
    let c : Checker :=
      { protocol := .pet, resolve := .ofType "Pet", settings := { keepFlowStates := true } }
    let g : Graph := ⟨"loop", none, #[⟨.invoke "k" (some "Pet") "pet", none⟩],
      #[⟨0, 0, .loopBack⟩], some 0⟩
    let running : Assignment := (∅ : Assignment).insert ⟨"k"⟩ (.known ⟨"Running"⟩)
    let asleep : Assignment := running.insert ⟨"j"⟩ (.known ⟨"Sleeping"⟩)
    let P := c.problem g running
    let s := P.step P.start
    s.pending = [0] ∧
      Flow.SameStates c.protocol.initial (P.transfer 0 (P.inflow s.outputs 0))
        (P.value s.outputs 0) ∧
      (P.step s).pending = [] ∧
      (∀ h, asleep.state c.protocol.initial h = running.state c.protocol.initial h) ∧
      asleep ≠ running ∧ (c.check g running).violations.length = 1 ∧
      c.check g asleep = c.check g running := by
  intro c g running asleep P s
  obtain ⟨-, -, -, -, -, -, hvisit, hseeds⟩ := canonical_throughout c g running
  have hpending : s.pending = [0] := by decide +kernel
  have hfound : P.transfer 0 (P.inflow s.outputs 0) = .reached running ∧
      P.value s.outputs 0 = .reached running := by decide +kernel
  have hsame : Flow.SameStates c.protocol.initial (P.transfer 0 (P.inflow s.outputs 0))
      (P.value s.outputs 0) := by
    rw [hfound.1, hfound.2]
    exact fun h => rfl
  have hstates : ∀ h, asleep.state c.protocol.initial h = running.state c.protocol.initial h := by
    intro h
    simp only [asleep, Assignment.state, Std.ExtTreeMap.getD_insert]
    split
    · next heq =>
      obtain rfl := Std.LawfulEqOrd.compare_eq_iff_eq.1 heq
      decide +kernel
    · rfl
  exact ⟨hpending, hsame, (hvisit 1 0 [] 0 hpending (by decide +kernel)).2.1 hsame, hstates,
    by decide +kernel, by decide +kernel, (hseeds asleep hstates).1⟩

end Checker

end Typestate

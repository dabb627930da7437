import Mathlib.Algebra.Order.BigOperators.Group.Finset
import Typestate.Dataflow

/-!
The worklist solves its equations. All invariants of a run come from three facts about one step:
the values stay in any family of sets that is closed under the equations (`Problem.Closed`), every
node that is not pending satisfies its equations (`Problem.Settled`), and the values after nodes
only rise (`Problem.Rising`). The first gives that the result is below every solution, the second
that it is one when nothing is pending, and the third that a potential pays for every step.
-/

namespace Typestate.Dataflow.Problem

variable {α : Type}

/-! ### Equations -/

/-- The value before a node, by its equation, for given values after the nodes. -/
def merged (P : Problem α) (output : Nat → α) (n : Nat) : α :=
  (P.predecessors n).foldl (fun x m => P.join x (output m)) (P.source n)

/-- Values before and after the nodes that satisfy all equations. -/
structure Solution (P : Problem α) (input output : Nat → α) : Prop where
  input_eq : ∀ n < P.size, input n = P.merged output n
  output_eq : ∀ n < P.size, output n = P.transfer n (input n)

/-- Values before and after the nodes that are at least what the equations make of them. -/
structure Supersolution (P : Problem α) (le : α → α → Prop) (input output : Nat → α) : Prop where
  source_le : ∀ n < P.size, le (P.source n) (input n)
  output_le : ∀ n < P.size, ∀ m < P.size, m ∈ P.predecessors n → le (output m) (input n)
  transfer_le : ∀ n < P.size, le (P.transfer n (input n)) (output n)

/-- The order lists every node once, and an edge is known at both of its ends. -/
structure Lawful (P : Problem α) : Prop where
  nodup_order : P.order.Nodup
  mem_order : ∀ n, n ∈ P.order ↔ n < P.size
  mem_successors : ∀ n m, m ∈ P.predecessors n → n ∈ P.successors m

/-- The join is a least upper bound, and the transfer functions are monotone. -/
structure Monotone (P : Problem α) (le : α → α → Prop) : Prop where
  refl : ∀ x, le x x
  trans : ∀ x y z, le x y → le y z → le x z
  bottom_le : ∀ x, le P.bottom x
  le_join_left : ∀ x y, le x (P.join x y)
  le_join_right : ∀ x y, le y (P.join x y)
  join_le : ∀ x y z, le x z → le y z → le (P.join x y) z
  transfer_le : ∀ n x y, le x y → le (P.transfer n x) (P.transfer n y)

/-- Sets of values before and after each node that the equations do not lead out of. -/
structure Closed (P : Problem α) (I O : Nat → α → Prop) : Prop where
  bottom_input : ∀ n, I n P.bottom
  bottom_output : ∀ n, O n P.bottom
  source : ∀ n < P.size, I n (P.source n)
  join : ∀ n < P.size, ∀ x y, I n x → I n y → I n (P.join x y)
  edge : ∀ n < P.size, ∀ m ∈ P.predecessors n, ∀ x, O m x → I n x
  transfer : ∀ n < P.size, ∀ x, I n x → O n (P.transfer n x)

variable {P : Problem α} {I O : Nat → α → Prop} {le : α → α → Prop}

/-- What holds of the source of a node and is kept by joining the value after a predecessor holds
of the value before the node. -/
theorem merged_induction {Q : α → Prop} {output : Nat → α} {n : Nat} (hsource : Q (P.source n))
    (hjoin : ∀ m ∈ P.predecessors n, ∀ x, Q x → Q (P.join x (output m))) :
    Q (P.merged output n) := by
  unfold merged
  generalize P.predecessors n = ms at hjoin
  generalize P.source n = x at hsource
  induction ms generalizing x with
  | nil => exact hsource
  | cons m ms ih =>
      exact ih (fun k hk => hjoin k (by simp [hk])) _ (hjoin m (by simp) x hsource)

theorem Closed.merged (hC : P.Closed I O) {output : Nat → α} (hout : ∀ m, O m (output m)) {n : Nat}
    (hn : n < P.size) : I n (P.merged output n) := by
  apply merged_induction (hC.source n hn)
  intro m hm x hx
  exact hC.join n hn _ _ hx (hC.edge n hn m hm _ (hout m))

theorem Lawful.lt_size (hL : P.Lawful) {position n : Nat} (hn : P.order[position]? = some n) :
    n < P.size :=
  (hL.mem_order n).1 (List.mem_of_getElem? hn)

theorem Lawful.idxOf (hL : P.Lawful) {position n : Nat} (hn : P.order[position]? = some n) :
    P.order.idxOf n = position := by
  obtain ⟨hlt, rfl⟩ := List.getElem?_eq_some_iff.1 hn
  exact hL.nodup_order.idxOf_getElem position hlt

theorem Lawful.exists_position (hL : P.Lawful) {n : Nat} (hn : n < P.size) :
    ∃ position : Nat, P.order[position]? = some n :=
  List.mem_iff_getElem?.1 ((hL.mem_order n).2 hn)

/-- A fold of joins is above its start and above everything that it joins. -/
theorem Monotone.le_foldl (hM : P.Monotone le) (output : Nat → α) (ms : List Nat) (x : α) :
    le x (ms.foldl (fun x m => P.join x (output m)) x) ∧
      ∀ m ∈ ms, le (output m) (ms.foldl (fun x m => P.join x (output m)) x) := by
  induction ms generalizing x with
  | nil => exact ⟨hM.refl x, by simp⟩
  | cons k ms ih =>
      obtain ⟨hstart, hms⟩ := ih (P.join x (output k))
      refine ⟨hM.trans _ _ _ (hM.le_join_left _ _) hstart, fun m hm => ?_⟩
      rcases List.mem_cons.1 hm with rfl | hm
      · exact hM.trans _ _ _ (hM.le_join_right _ _) hstart
      · exact hms m hm

theorem Monotone.source_le_merged (hM : P.Monotone le) (output : Nat → α) (n : Nat) :
    le (P.source n) (P.merged output n) :=
  (hM.le_foldl output (P.predecessors n) (P.source n)).1

theorem Monotone.le_merged (hM : P.Monotone le) (output : Nat → α) {n m : Nat}
    (hm : m ∈ P.predecessors n) : le (output m) (P.merged output n) :=
  (hM.le_foldl output (P.predecessors n) (P.source n)).2 m hm

/-- The values below a supersolution are closed under the equations. -/
theorem Monotone.closed_below (hM : P.Monotone le) {input output : Nat → α}
    (hS : P.Supersolution le input output) :
    P.Closed (fun n x => le x (input n))
      (fun n x => (n < P.size → le x (output n)) ∧ (P.size ≤ n → x = P.bottom)) where
  bottom_input n := hM.bottom_le _
  bottom_output n := ⟨fun _ => hM.bottom_le _, fun _ => rfl⟩
  source := hS.source_le
  join n _ x y := hM.join_le x y _
  edge n hn m hm x hx := by
    by_cases hlt : m < P.size
    · exact hM.trans _ _ _ (hx.1 hlt) (hS.output_le n hn m hlt hm)
    · rw [hx.2 (Nat.le_of_not_lt hlt)]
      exact hM.bottom_le _
  transfer n hn x hx :=
    ⟨fun _ => hM.trans _ _ _ (hM.transfer_le n _ _ hx) (hS.transfer_le n hn),
      fun hle => absurd hn (Nat.not_lt_of_le hle)⟩

theorem Monotone.supersolution (hM : P.Monotone le) {input output : Nat → α}
    (hS : P.Solution input output) : P.Supersolution le input output where
  source_le n hn := by
    rw [hS.input_eq n hn]
    exact hM.source_le_merged output n
  output_le n hn m _ hm := by
    rw [hS.input_eq n hn]
    exact hM.le_merged output hm
  transfer_le n hn := by
    rw [← hS.output_eq n hn]
    exact hM.refl _

/-- Larger values after the nodes give a larger value before a node. -/
theorem Monotone.merged_le (hM : P.Monotone le) {output output' : Nat → α}
    (hle : ∀ m, le (output m) (output' m)) (n : Nat) :
    le (P.merged output n) (P.merged output' n) := by
  apply merged_induction (Q := fun x => le x (P.merged output' n)) (hM.source_le_merged output' n)
  intro m hm x hx
  exact hM.join_le _ _ _ hx (hM.trans _ _ _ (hle m) (hM.le_merged output' hm))

/-- The value before a node depends on the values after its predecessors alone. -/
theorem merged_congr {output output' : Nat → α} {n : Nat}
    (heq : ∀ m ∈ P.predecessors n, output m = output' m) :
    P.merged output n = P.merged output' n := by
  unfold merged
  generalize P.predecessors n = ms at heq
  generalize P.source n = x
  induction ms generalizing x with
  | nil => rfl
  | cons m ms ih =>
      rw [List.foldl_cons, List.foldl_cons, heq m (by simp)]
      exact ih (fun k hk => heq k (by simp [hk])) _

/-! ### One step -/

@[simp] theorem value_replicate (n m : Nat) : P.value (Array.replicate n P.bottom) m = P.bottom := by
  unfold value
  rw [Array.getD_eq_getD_getElem?, Array.getElem?_replicate]
  split <;> rfl

theorem value_set {values : Array α} {n : Nat} (hn : n < values.size) (x : α) :
    P.value (values.setIfInBounds n x) = Function.update (P.value values) n x := by
  funext m
  unfold value
  rw [Array.getD_eq_getD_getElem?, Array.getElem?_setIfInBounds]
  by_cases hm : m = n
  · subst hm
    simp [hn]
  · rw [if_neg (Ne.symm hm), Function.update_of_ne hm, ← Array.getD_eq_getD_getElem?]

theorem mem_enqueue {p : Nat} {nodes pending : List Nat} :
    p ∈ P.enqueue nodes pending ↔ p ∈ pending ∨ ∃ n ∈ nodes, P.order.idxOf n = p := by
  unfold enqueue
  induction nodes generalizing pending with
  | nil => simp
  | cons m nodes ih =>
      rw [List.foldl_cons, ih, Ascending.mem_insert]
      simp only [List.mem_cons, exists_eq_or_imp]
      rw [or_assoc, or_left_comm, eq_comm]

theorem length_insert_le (n : Nat) (ms : List Nat) :
    (Ascending.insert n ms).length ≤ ms.length + 1 := by
  induction ms with
  | nil => simp [Ascending.insert]
  | cons m ms ih =>
      simp only [Ascending.insert]
      split
      · simp
      · split
        · simp
        · simpa using ih

theorem length_enqueue_le (nodes pending : List Nat) :
    (P.enqueue nodes pending).length ≤ pending.length + nodes.length := by
  unfold enqueue
  induction nodes generalizing pending with
  | nil => simp
  | cons m nodes ih =>
      have hinsert := length_insert_le (P.order.idxOf m) pending
      have hrest := ih (Ascending.insert (P.order.idxOf m) pending)
      simp only [List.foldl_cons, List.length_cons]
      omega

structure Sized (P : Problem α) (s : Progress α) : Prop where
  inputs : s.inputs.size = P.size
  outputs : s.outputs.size = P.size

theorem sized_start (P : Problem α) : P.Sized P.start :=
  ⟨Array.size_replicate, Array.size_replicate⟩

variable [DecidableEq α] {s : Progress α}

section Visit

variable {n position : Nat} {rest : List Nat}

@[simp] theorem visits_visit :
    (P.visit s n position rest).visits = ⟨n, position, P.inflow s.outputs n⟩ :: s.visits := by
  unfold visit
  dsimp only
  split <;> rfl

theorem inputs_visit :
    (P.visit s n position rest).inputs = s.inputs.setIfInBounds n (P.inflow s.outputs n) := by
  unfold visit
  dsimp only
  split <;> rfl

theorem value_inputs_visit (hs : P.Sized s) (hn : n < P.size) :
    P.value (P.visit s n position rest).inputs =
      Function.update (P.value s.inputs) n (P.inflow s.outputs n) := by
  rw [inputs_visit, value_set (hs.inputs ▸ hn)]

/-- The value after the visited node is stored, whether or not it is new. -/
theorem value_outputs_visit (hs : P.Sized s) (hn : n < P.size) :
    P.value (P.visit s n position rest).outputs =
      Function.update (P.value s.outputs) n (P.transfer n (P.inflow s.outputs n)) := by
  unfold visit
  dsimp only
  split
  · next heq => rw [heq, Function.update_eq_self]
  · rw [value_set (hs.outputs ▸ hn)]

theorem sized_visit (hs : P.Sized s) : P.Sized (P.visit s n position rest) := by
  unfold visit
  dsimp only
  split
  · exact ⟨by simpa using hs.inputs, hs.outputs⟩
  · exact ⟨by simpa using hs.inputs, by simpa using hs.outputs⟩

/-- What is pending after a visit: what was, and the successors if the value after the node is
new. -/
theorem pending_visit :
    (P.visit s n position rest).pending =
      if P.transfer n (P.inflow s.outputs n) = P.value s.outputs n then rest
      else P.enqueue (P.successors n) rest := by
  unfold visit
  dsimp only
  split <;> rfl

/-- The values after the nodes stay as they are exactly if the visit finds the value that is
stored. -/
theorem outputs_visit_eq_iff (hs : P.Sized s) (hn : n < P.size) :
    (P.visit s n position rest).outputs = s.outputs ↔
      P.transfer n (P.inflow s.outputs n) = P.value s.outputs n := by
  constructor
  · intro hsame
    have hvalue : P.value (P.visit s n position rest).outputs n =
        P.transfer n (P.inflow s.outputs n) := by
      rw [value_outputs_visit hs hn, Function.update_self]
    rw [← hvalue, hsame]
  · intro hsame
    unfold visit
    rw [if_pos hsame]

theorem mem_pending_visit_of_mem {p : Nat} (hp : p ∈ rest) :
    p ∈ (P.visit s n position rest).pending := by
  rw [pending_visit]
  split
  · exact hp
  · exact mem_enqueue.2 (.inl hp)

end Visit

/-- All that a step can do: nothing, drop a place that no node stands at, or visit the node that
stands at the first pending place. -/
theorem step_cases (P : Problem α) (s : Progress α) :
    (s.pending = [] ∧ P.step s = s) ∨
      (∃ position rest, s.pending = position :: rest ∧ P.order[position]? = none ∧
        P.step s = { s with pending := rest }) ∨
      ∃ position rest n, s.pending = position :: rest ∧ P.order[position]? = some n ∧
        P.step s = P.visit s n position rest := by
  unfold step
  cases hpending : s.pending with
  | nil => exact .inl ⟨rfl, rfl⟩
  | cons position rest =>
      cases hnode : P.order[position]? with
      | none => exact .inr (.inl ⟨position, rest, rfl, hnode, by simp [hnode]⟩)
      | some n => exact .inr (.inr ⟨position, rest, n, rfl, hnode, by simp [hnode]⟩)

theorem step_eq_visit {position n : Nat} {rest : List Nat} (hpending : s.pending = position :: rest)
    (hn : P.order[position]? = some n) : P.step s = P.visit s n position rest := by
  simp only [step, hpending, hn]

theorem sized_step (hs : P.Sized s) : P.Sized (P.step s) := by
  rcases P.step_cases s with ⟨-, hstep⟩ | ⟨_, _, -, -, hstep⟩ | ⟨_, _, _, -, -, hstep⟩
  · rwa [hstep]
  · rw [hstep]
    exact ⟨hs.inputs, hs.outputs⟩
  · rw [hstep]
    exact sized_visit hs

/-! ### Closed sets -/

/-- The values of a progress lie in the given sets. -/
def Within (P : Problem α) (I O : Nat → α → Prop) (s : Progress α) : Prop :=
  ∀ n, I n (P.value s.inputs n) ∧ O n (P.value s.outputs n)

omit [DecidableEq α] in
theorem Closed.start (hC : P.Closed I O) : P.Within I O P.start := by
  intro n
  simp only [Problem.start, value_replicate]
  exact ⟨hC.bottom_input n, hC.bottom_output n⟩

theorem Closed.step (hC : P.Closed I O) (hL : P.Lawful) (hs : P.Sized s) (hw : P.Within I O s) :
    P.Within I O (P.step s) := by
  rcases P.step_cases s with ⟨-, hstep⟩ | ⟨_, _, -, -, hstep⟩ | ⟨position, rest, n, -, hn, hstep⟩
  · rwa [hstep]
  · rwa [hstep]
  · have hlt := hL.lt_size hn
    have hinput : I n (P.inflow s.outputs n) := hC.merged (fun m => (hw m).2) hlt
    intro m
    rw [hstep, value_inputs_visit hs hlt, value_outputs_visit hs hlt]
    by_cases hm : m = n
    · subst hm
      simp only [Function.update_self]
      exact ⟨hinput, hC.transfer m hlt _ hinput⟩
    · simp only [Function.update_of_ne hm]
      exact hw m

/-! ### Settled nodes -/

/-- Every node that is not pending satisfies its equations. -/
def Settled (P : Problem α) (s : Progress α) : Prop :=
  ∀ position n, P.order[position]? = some n → position ∉ s.pending →
    P.value s.inputs n = P.inflow s.outputs n ∧
      P.value s.outputs n = P.transfer n (P.value s.inputs n)

omit [DecidableEq α] in
theorem settled_start (P : Problem α) : P.Settled P.start := by
  intro position n hn hpending
  have hlt : position < P.order.length := (List.getElem?_eq_some_iff.1 hn).1
  exact absurd (List.mem_range.2 hlt) hpending

/-- A visit settles its node. What it may unsettle, the successors of a node with a new value,
becomes pending. -/
theorem settled_visit (hL : P.Lawful) (hs : P.Sized s) (hsettled : P.Settled s)
    {position n : Nat} {rest : List Nat} (hpending : s.pending = position :: rest)
    (hn : P.order[position]? = some n) : P.Settled (P.visit s n position rest) := by
  intro p m hm hp
  have hlt := hL.lt_size hn
  have hrest : p ∉ rest := fun h => hp (mem_pending_visit_of_mem h)
  -- The value before `m` is still what its equation says, or `m` would be pending.
  have hinflow : P.inflow (P.visit s n position rest).outputs m = P.inflow s.outputs m := by
    apply merged_congr
    intro k hk
    rw [value_outputs_visit hs hlt]
    by_cases hkn : k = n
    · subst hkn
      rw [Function.update_self]
      by_contra hnew
      rw [pending_visit, if_neg hnew, mem_enqueue] at hp
      exact hp (.inr ⟨m, hL.mem_successors m k hk, hL.idxOf hm⟩)
    · rw [Function.update_of_ne hkn]
  rw [hinflow, value_inputs_visit hs hlt, value_outputs_visit hs hlt]
  by_cases hmn : m = n
  · subst hmn
    simp only [Function.update_self, and_self]
  · simp only [Function.update_of_ne hmn]
    have hne : p ≠ position := by
      rintro rfl
      exact hmn (Option.some_inj.1 (hm.symm.trans hn))
    exact hsettled p m hm (by simp [hpending, hne, hrest])

theorem settled_step (hL : P.Lawful) (hs : P.Sized s) (hsettled : P.Settled s) :
    P.Settled (P.step s) := by
  rcases P.step_cases s with
    ⟨-, hstep⟩ | ⟨position, rest, hpending, hnone, hstep⟩ | ⟨position, rest, n, hpending, hn, hstep⟩
  · rwa [hstep]
  · rw [hstep]
    intro p m hm hp
    have hne : p ≠ position := by
      rintro rfl
      simp [hnone] at hm
    exact hsettled p m hm (by simpa [hpending, hne] using hp)
  · rw [hstep]
    exact settled_visit hL hs hsettled hpending hn

omit [DecidableEq α] in
/-- When nothing is pending the stored values satisfy all equations. -/
theorem Settled.solution (hL : P.Lawful) (hsettled : P.Settled s) (hpending : s.pending = []) :
    P.Solution (P.value s.inputs) (P.value s.outputs) where
  input_eq n hn := by
    obtain ⟨position, hposition⟩ := hL.exists_position hn
    exact (hsettled position n hposition (by simp [hpending])).1
  output_eq n hn := by
    obtain ⟨position, hposition⟩ := hL.exists_position hn
    exact (hsettled position n hposition (by simp [hpending])).2

/-! ### Rising values -/

/-- A visit to any node would only raise the value after it. -/
def Rising (P : Problem α) (le : α → α → Prop) (s : Progress α) : Prop :=
  ∀ n < P.size, le (P.value s.outputs n) (P.transfer n (P.inflow s.outputs n))

omit [DecidableEq α] in
theorem Monotone.rising_start (hM : P.Monotone le) : P.Rising le P.start := by
  intro n _
  simp only [Problem.start, value_replicate]
  exact hM.bottom_le _

/-- A visit raises the value after its node and with it what visits to other nodes would give. -/
theorem Monotone.rising_step (hM : P.Monotone le) (hL : P.Lawful) (hs : P.Sized s)
    (hrising : P.Rising le s) : P.Rising le (P.step s) := by
  rcases P.step_cases s with ⟨-, hstep⟩ | ⟨_, _, -, -, hstep⟩ | ⟨position, rest, n, -, hn, hstep⟩
  · rwa [hstep]
  · rwa [hstep]
  · have hlt := hL.lt_size hn
    have hraised : ∀ m, le (P.value s.outputs m) (P.value (P.step s).outputs m) := by
      intro m
      rw [hstep, value_outputs_visit hs hlt]
      by_cases hm : m = n
      · subst hm
        rw [Function.update_self]
        exact hrising m hlt
      · rw [Function.update_of_ne hm]
        exact hM.refl _
    intro m hm
    -- What is stored now is at most what a visit before the step would have given, and that rises.
    have hstay : le (P.value (P.step s).outputs m) (P.transfer m (P.inflow s.outputs m)) := by
      rw [hstep, value_outputs_visit hs hlt]
      by_cases hmn : m = n
      · subst hmn
        rw [Function.update_self]
        exact hM.refl _
      · rw [Function.update_of_ne hmn]
        exact hrising m hm
    exact hM.trans _ _ _ hstay (hM.transfer_le m _ _ (hM.merged_le hraised m))

/-! ### Whole runs -/

theorem step_of_pending_eq_nil (hpending : s.pending = []) : P.step s = s := by
  unfold step
  rw [hpending]

/-- A run is a number of steps: once nothing is pending a step changes nothing. -/
theorem run_eq_iterate (P : Problem α) (k : Nat) (s : Progress α) : P.run k s = P.step^[k] s := by
  induction k generalizing s with
  | zero => rfl
  | succ k ih =>
      rw [run, Function.iterate_succ_apply, ih]
      split
      · next hempty =>
        have hfix : P.step s = s := step_of_pending_eq_nil (List.isEmpty_iff.1 hempty)
        rw [hfix, Function.iterate_fixed hfix]
      · rfl

/-- What every step keeps every run keeps. -/
theorem run_induction {Q : Progress α → Prop} (hstep : ∀ s, Q s → Q (P.step s)) (k : Nat)
    (hs : Q s) : Q (P.run k s) := by
  rw [run_eq_iterate]
  induction k generalizing s with
  | zero => exact hs
  | succ k ih => exact ih (hstep s hs)

theorem sized_run (P : Problem α) (k : Nat) : P.Sized (P.run k P.start) :=
  run_induction (Q := P.Sized) (fun _ => sized_step) k P.sized_start

theorem Closed.run (hC : P.Closed I O) (hL : P.Lawful) (k : Nat) :
    P.Within I O (P.run k P.start) :=
  (run_induction (Q := fun s => P.Sized s ∧ P.Within I O s)
    (fun _ h => ⟨sized_step h.1, hC.step hL h.1 h.2⟩) k ⟨P.sized_start, hC.start⟩).2

theorem settled_run (hL : P.Lawful) (k : Nat) : P.Settled (P.run k P.start) :=
  (run_induction (Q := fun s => P.Sized s ∧ P.Settled s)
    (fun _ h => ⟨sized_step h.1, settled_step hL h.1 h.2⟩) k ⟨P.sized_start, P.settled_start⟩).2

/-! ### Potential -/

/-- What is pending, and for every node its successors once for each time that the value after it
can still change. -/
def potential (P : Problem α) (height : Nat → α → Nat) (s : Progress α) : Nat :=
  s.pending.length +
    ∑ n ∈ Finset.range P.size, (P.successors n).length * height n (P.value s.outputs n)

/-- Every change of a value after a node, among the values in `O`, lowers its height. -/
def Falls (P : Problem α) (le : α → α → Prop) (O : Nat → α → Prop) (height : Nat → α → Nat) :
    Prop :=
  ∀ n < P.size, ∀ x y, O n x → O n y → le x y → x ≠ y → height n y < height n x

variable {height : Nat → α → Nat}

omit [DecidableEq α] in
/-- The new value of a node pays for its successors. -/
theorem sum_update_le (output : Nat → α) {n : Nat} (hn : n < P.size) {x : α}
    (hx : height n x < height n (output n)) :
    (∑ m ∈ Finset.range P.size,
        (P.successors m).length * height m (Function.update output n x m)) +
        (P.successors n).length ≤
      ∑ m ∈ Finset.range P.size, (P.successors m).length * height m (output m) := by
  have hmem : n ∈ Finset.range P.size := Finset.mem_range.2 hn
  have hothers : ∑ m ∈ (Finset.range P.size).erase n,
        (P.successors m).length * height m (Function.update output n x m) =
      ∑ m ∈ (Finset.range P.size).erase n, (P.successors m).length * height m (output m) :=
    Finset.sum_congr rfl fun m hm => by rw [Function.update_of_ne (Finset.ne_of_mem_erase hm)]
  have hnode : (P.successors n).length * height n x + (P.successors n).length ≤
      (P.successors n).length * height n (output n) :=
    Nat.mul_le_mul_left _ (Nat.succ_le_of_lt hx)
  rw [← Finset.add_sum_erase _ _ hmem, ← Finset.add_sum_erase _ _ hmem, hothers,
    Function.update_self]
  omega

theorem potential_visit_lt (hfalls : P.Falls le O height) (hL : P.Lawful) (hC : P.Closed I O)
    (hs : P.Sized s) (hw : P.Within I O s) (hrising : P.Rising le s) {position n : Nat}
    {rest : List Nat} (hpending : s.pending = position :: rest)
    (hn : P.order[position]? = some n) :
    P.potential height (P.visit s n position rest) < P.potential height s := by
  have hlt := hL.lt_size hn
  unfold potential
  rw [hpending, pending_visit, value_outputs_visit hs hlt]
  split
  · next hsame =>
    rw [hsame, Function.update_eq_self]
    simp
  · next hnew =>
    -- The height that the new value loses pays for the successors that become pending.
    have hin : O n (P.transfer n (P.inflow s.outputs n)) :=
      hC.transfer n hlt _ (hC.merged (fun m => (hw m).2) hlt)
    have hfall := hfalls n hlt _ _ (hw n).2 hin (hrising n hlt) (Ne.symm hnew)
    have hsum := sum_update_le (P.value s.outputs) hlt hfall
    have hlength := P.length_enqueue_le (P.successors n) rest
    simp only [List.length_cons]
    omega

theorem potential_step_lt (hfalls : P.Falls le O height) (hL : P.Lawful) (hC : P.Closed I O)
    (hs : P.Sized s) (hw : P.Within I O s) (hrising : P.Rising le s) (hpending : s.pending ≠ []) :
    P.potential height (P.step s) < P.potential height s := by
  rcases P.step_cases s with
    ⟨hempty, -⟩ | ⟨position, rest, hcons, -, hstep⟩ | ⟨position, rest, n, hcons, hn, hstep⟩
  · exact absurd hempty hpending
  · rw [hstep]
    simp [potential, hcons]
  · rw [hstep]
    exact potential_visit_lt hfalls hL hC hs hw hrising hcons hn

theorem length_visits_step_le (P : Problem α) (s : Progress α) :
    (P.step s).visits.length ≤ s.visits.length + 1 := by
  rcases P.step_cases s with ⟨-, hstep⟩ | ⟨_, _, -, -, hstep⟩ | ⟨_, _, _, -, -, hstep⟩ <;>
    simp [hstep]

/-- What a run keeps while it pays for its steps. -/
structure Sound (P : Problem α) (le : α → α → Prop) (I O : Nat → α → Prop) (s : Progress α) :
    Prop where
  sized : P.Sized s
  within : P.Within I O s
  rising : P.Rising le s

omit [DecidableEq α] in
theorem sound_start (hM : P.Monotone le) (hC : P.Closed I O) : P.Sound le I O P.start :=
  ⟨P.sized_start, hC.start, hM.rising_start⟩

theorem sound_step (hM : P.Monotone le) (hL : P.Lawful) (hC : P.Closed I O)
    (hs : P.Sound le I O s) : P.Sound le I O (P.step s) :=
  ⟨sized_step hs.sized, hC.step hL hs.sized hs.within, hM.rising_step hL hs.sized hs.rising⟩

/-- With as many steps as its potential a run ends, and it makes no more visits than that. -/
theorem run_of_potential_le (hM : P.Monotone le) (hfalls : P.Falls le O height) (hL : P.Lawful)
    (hC : P.Closed I O) {k : Nat} (hs : P.Sound le I O s) (hk : P.potential height s ≤ k) :
    (P.run k s).pending = [] ∧
      (P.run k s).visits.length ≤ s.visits.length + P.potential height s := by
  induction k generalizing s with
  | zero =>
      have hlength : s.pending.length = 0 := by
        unfold potential at hk
        omega
      exact ⟨List.eq_nil_of_length_eq_zero hlength, Nat.le_add_right _ _⟩
  | succ k ih =>
      rw [run]
      split
      · next hempty => exact ⟨List.isEmpty_iff.1 hempty, Nat.le_add_right _ _⟩
      · next hpending =>
        have hdrop := potential_step_lt hfalls hL hC hs.sized hs.within hs.rising
          (fun h => hpending (List.isEmpty_iff.2 h))
        have hvisits := P.length_visits_step_le s
        obtain ⟨hend, hcount⟩ := ih (sound_step hM hL hC hs) (by omega)
        exact ⟨hend, by omega⟩

/-! ### Visits -/

/-- Every place of the order is pending or was visited. -/
def Covered (P : Problem α) (s : Progress α) : Prop :=
  ∀ position < P.order.length, position ∈ s.pending ∨ ∃ v ∈ s.visits, v.position = position

theorem covered_step (hcovered : P.Covered s) : P.Covered (P.step s) := by
  intro p hp
  rcases P.step_cases s with
    ⟨-, hstep⟩ | ⟨position, rest, hcons, hnone, hstep⟩ | ⟨position, rest, n, hcons, hn, hstep⟩
  · rw [hstep]
    exact hcovered p hp
  · have hne : p ≠ position := by
      rintro rfl
      exact absurd (List.getElem?_eq_none_iff.1 hnone) (Nat.not_le_of_lt hp)
    rw [hstep]
    simpa [hcons, hne] using hcovered p hp
  · rw [hstep, visits_visit]
    rcases hcovered p hp with hpending | ⟨v, hv, rfl⟩
    · rw [hcons] at hpending
      rcases List.mem_cons.1 hpending with rfl | hrest
      · exact .inr ⟨_, List.mem_cons_self, rfl⟩
      · exact .inl (mem_pending_visit_of_mem hrest)
    · exact .inr ⟨v, List.mem_cons_of_mem _ hv, rfl⟩

theorem covered_run (P : Problem α) (k : Nat) : P.Covered (P.run k P.start) :=
  run_induction (Q := P.Covered) (fun _ => covered_step) k fun _ hp => .inl (List.mem_range.2 hp)

omit [DecidableEq α] in
theorem Covered.length_le (hcovered : P.Covered s) (hpending : s.pending = []) :
    P.order.length ≤ s.visits.length := by
  have hsubset : List.range P.order.length ⊆ s.visits.map Visit.position := by
    intro p hp
    rcases hcovered p (List.mem_range.1 hp) with h | ⟨v, hv, rfl⟩
    · simp [hpending] at h
    · exact List.mem_map_of_mem hv
  have hperm := List.subperm_of_subset List.nodup_range hsubset
  simpa using hperm.length_le

/-! ### Runs that agree -/

omit [DecidableEq α] in
/-- Predecessors whose value is the bottom add nothing to the value before a node. -/
theorem merged_eq_filter {output : Nat → α} {n : Nat} {live : Nat → Bool}
    (hjoin : ∀ x, P.join x P.bottom = x)
    (hdead : ∀ m ∈ P.predecessors n, live m = false → output m = P.bottom) :
    P.merged output n =
      ((P.predecessors n).filter live).foldl (fun x m => P.join x (output m)) (P.source n) := by
  unfold merged
  generalize P.predecessors n = ms at hdead
  generalize P.source n = x
  induction ms generalizing x with
  | nil => rfl
  | cons m ms ih =>
      have hms := ih fun k hk => hdead k (by simp [hk])
      cases hm : live m with
      | true => rw [List.filter_cons_of_pos hm, List.foldl_cons, List.foldl_cons, hms]
      | false =>
          rw [List.filter_cons_of_neg (by simp [hm]), List.foldl_cons, hdead m (by simp) hm, hjoin,
            hms]

/-- The two problems make the same of a visit to the node. They may differ in its successors where
the value after it stays as it is. -/
structure Agrees (P P' : Problem α) (outputs : Array α) (n : Nat) : Prop where
  inflow : P'.inflow outputs n = P.inflow outputs n
  transfer : P'.transfer n (P.inflow outputs n) = P.transfer n (P.inflow outputs n)
  value : P'.value outputs n = P.value outputs n
  successors : P.transfer n (P.inflow outputs n) ≠ P.value outputs n →
    P'.successors n = P.successors n

variable {P' : Problem α}

theorem Agrees.visit {n : Nat} (h : P.Agrees P' s.outputs n) (horder : P'.order = P.order)
    (position : Nat) (rest : List Nat) :
    P'.visit s n position rest = P.visit s n position rest := by
  unfold Problem.visit
  dsimp only
  rw [h.inflow, h.transfer, h.value]
  split
  · rfl
  · next hnew =>
    unfold enqueue
    rw [h.successors hnew, horder]

theorem step_congr (hL : P.Lawful) (horder : P'.order = P.order)
    (hagrees : ∀ n < P.size, P.Agrees P' s.outputs n) : P'.step s = P.step s := by
  unfold step
  rw [horder]
  cases s.pending with
  | nil => rfl
  | cons position rest =>
      dsimp only
      cases hn : P.order[position]? with
      | none => rfl
      | some n => exact (hagrees n (hL.lt_size hn)).visit horder position rest

/-- Steps that agree on all states that a run can be in make the same run. -/
theorem iterate_congr {Q : Progress α → Prop} (hkeep : ∀ s, Q s → Q (P.step s))
    (hcongr : ∀ s, Q s → P'.step s = P.step s) (hs : Q s) (k : Nat) :
    P'.step^[k] s = P.step^[k] s := by
  induction k generalizing s with
  | zero => rfl
  | succ k ih =>
      rw [Function.iterate_succ_apply, Function.iterate_succ_apply, hcongr s hs]
      exact ih (hkeep s hs)

/-- A run ends in one state, whatever number of steps it is given. -/
theorem iterate_eq_of_pending_eq_nil {j k : Nat} (hj : (P.step^[j] s).pending = [])
    (hk : (P.step^[k] s).pending = []) : P.step^[j] s = P.step^[k] s := by
  wlog hle : j ≤ k generalizing j k
  · exact (this hk hj (Nat.le_of_not_le hle)).symm
  · obtain ⟨d, rfl⟩ := Nat.exists_eq_add_of_le' hle
    rw [Function.iterate_add_apply, Function.iterate_fixed (step_of_pending_eq_nil hj)]

end Typestate.Dataflow.Problem

import Typestate.Proofs.Verdict

/-!
Refused calls are inert. Taking a call that is reported out of the procedure leaves every solved
value as it is and takes its violation, and no other, out of the report. Each of the two least
solutions solves the equations of the other procedure: the call has no effect on the value that the
first one finds before it, and the second one is below the first, so the call is refused there
too.
-/

namespace Typestate

namespace Graph

variable {g g' : Graph}

/-- Puts a statement without effect in the place of a node's statement. -/
def silence (g : Graph) (n : Nat) : Graph :=
  { g with nodes := g.nodes.modify n fun node => { node with statement := .nop } }

@[simp] theorem size_silence (g : Graph) (n : Nat) : (g.silence n).size = g.size :=
  Array.size_modify

theorem getElem?_silence_of_ne {m n : Nat} (hne : m ≠ n) :
    (g.silence n).nodes[m]? = g.nodes[m]? := by
  simp [silence, Array.getElem?_modify, Ne.symm hne]

theorem getElem?_silence_self (g : Graph) (n : Nat) :
    (g.silence n).nodes[n]? = g.nodes[n]?.map fun node => { node with statement := .nop } := by
  simp [silence, Array.getElem?_modify]

theorem reversePostorder_silence (g : Graph) (n : Nat) :
    (g.silence n).reversePostorder = g.reversePostorder :=
  reversePostorder_congr (g.size_silence n) rfl fun _ _ => rfl

end Graph

namespace Checker

variable {c : Checker} {g : Graph} {seed : Assignment} {m n : Nat} {v : Violation}

theorem outcome_silence_of_ne (hne : m ≠ n) (x : Flow) :
    c.outcome (g.silence n) m x = c.outcome g m x := by
  unfold outcome
  rw [Graph.getElem?_silence_of_ne hne]

/-- A silenced node does nothing, if the resolver finds no call where nothing is called. -/
theorem outcome_silence_self (hnop : ∀ span, c.resolve ⟨.nop, span⟩ = none) (x : Flow) :
    c.outcome (g.silence n) n x = ⟨x, .quiet⟩ := by
  apply outcome_of_call_eq_none
  rw [call?, Graph.getElem?_silence_self]
  cases g.nodes[n]? with
  | none => rfl
  | some node => exact hnop node.span

/-- The node of a violation refuses its call on every reached value below the solved one. -/
theorem output_of_under_before (hv : v ∈ (c.check g seed).violations) {x : Flow}
    (hx : x.Under c.protocol.initial (c.before g seed v.node)) :
    (c.outcome g v.node x).output = x := by
  obtain ⟨-, hreport⟩ := report?_node_of_mem hv
  obtain ⟨node, call, s, hnode, hresolve, hs, ht, -⟩ := report?_eq_some.1 hreport
  cases hxs : x.state? c.protocol.initial call.handle with
  | none =>
      obtain rfl := Flow.state?_eq_none.1 hxs
      simp
  | some u =>
      obtain rfl := hx.known hxs hs
      exact output_of_rejected (outcome_rejected_iff.2 ⟨node, call, s, hnode, hresolve, hxs, ht, rfl⟩)

/-- A solution of the equations of one procedure solves those of the other if the call has no
effect on the value before it. -/
theorem isSolution_silence_iff (hnop : ∀ span, c.resolve ⟨.nop, span⟩ = none)
    {input output : Nat → Flow} (hinert : (c.outcome g n (input n)).output = input n) :
    c.IsSolution (g.silence n) seed input output ↔ c.IsSolution g seed input output := by
  have houtcome : ∀ k, (c.outcome (g.silence n) k (input k)).output =
      (c.outcome g k (input k)).output := by
    intro k
    by_cases hk : k = n
    · subst hk
      rw [outcome_silence_self hnop, hinert]
    · rw [outcome_silence_of_ne hk]
  constructor
  · rintro ⟨hinput, houtput, hin, hout⟩
    rw [Graph.size_silence] at hinput houtput hin hout
    exact ⟨hinput, houtput, hin, fun k hk => (hout k hk).trans (houtcome k)⟩
  · rintro ⟨hinput, houtput, hin, hout⟩
    refine ⟨?_, ?_, ?_, ?_⟩ <;> rw [Graph.size_silence]
    · exact hinput
    · exact houtput
    · exact hin
    · exact fun k hk => (hout k hk).trans (houtcome k).symm

theorem before_after_silence (hnop : ∀ span, c.resolve ⟨.nop, span⟩ = none)
    (hv : v ∈ (c.check g seed).violations) (n : Nat) :
    c.before (g.silence v.node) seed n = c.before g seed n ∧
      c.after (g.silence v.node) seed n = c.after g seed n := by
  have hforth : c.IsSolution (g.silence v.node) seed (c.before g seed) (c.after g seed) :=
    (isSolution_silence_iff hnop (output_of_under_before hv (.refl _))).2
      (c.isSolution_solve g seed)
  -- The values without the call are below those with it, so the call would be refused on them.
  have hback : c.IsSolution g seed (c.before (g.silence v.node) seed)
      (c.after (g.silence v.node) seed) :=
    (isSolution_silence_iff hnop (output_of_under_before hv (hforth.under v.node).1)).1
      (c.isSolution_solve (g.silence v.node) seed)
  exact before_after_eq_of_under (hforth.under n) (hback.under n)

theorem report?_silence_of_ne (hne : m ≠ n) (x : Flow) :
    c.report? (g.silence n) m x = c.report? g m x := by
  unfold report?
  rw [outcome_silence_of_ne hne]
  rfl

theorem report?_silence_self (hnop : ∀ span, c.resolve ⟨.nop, span⟩ = none) (x : Flow) :
    c.report? (g.silence n) n x = none := by
  unfold report?
  rw [outcome_silence_self hnop]
  rfl

/-- Taking out a call that is reported changes no value, and of the report only its violation. -/
theorem check_silence (c : Checker) (type : String) (hc : c.resolve = .ofType type) (g : Graph)
    (seed : Assignment) (v : Violation) (hv : v ∈ (c.check g seed).violations) :
    (∀ n, c.before (g.silence v.node) seed n = c.before g seed n ∧
        c.after (g.silence v.node) seed n = c.after g seed n) ∧
      ∃ vs ws, (c.check g seed).violations = vs ++ v :: ws ∧
        (c.check (g.silence v.node) seed).violations = vs ++ ws := by
  have hnop : ∀ span, c.resolve ⟨.nop, span⟩ = none := fun span => by rw [hc]; rfl
  have hvalues := before_after_silence hnop hv
  refine ⟨hvalues, ?_⟩
  obtain ⟨hreach, hreport⟩ := report?_node_of_mem hv
  obtain ⟨ms, ns, hsplit⟩ := List.append_of_mem (Graph.mem_reversePostorder.2 hreach)
  have hnodup := g.nodup_reversePostorder
  rw [hsplit, List.nodup_middle, List.nodup_cons] at hnodup
  have hothers : ∀ ks : List Nat, ks ⊆ ms ++ ns →
      ks.filterMap (fun k => c.report? (g.silence v.node) k (c.before g seed k)) =
        ks.filterMap fun k => c.report? g k (c.before g seed k) := by
    intro ks hks
    apply List.filterMap_congr
    intro k hk
    exact report?_silence_of_ne (ne_of_mem_of_not_mem (hks hk) hnodup.1) _
  refine ⟨ms.filterMap fun k => c.report? g k (c.before g seed k),
    ns.filterMap fun k => c.report? g k (c.before g seed k), ?_, ?_⟩
  · rw [violations_check, hsplit, List.filterMap_append, List.filterMap_cons, hreport]
  · simp only [violations_check, Graph.reversePostorder_silence, hvalues]
    rw [hsplit, List.filterMap_append, List.filterMap_cons, report?_silence_self hnop,
      hothers ms (List.subset_append_left ms ns), hothers ns (List.subset_append_right ms ns)]

/-- A pet that eats is teased in a loop and then ignored, both against the protocol. Without the
first of the calls the second one is still reported. -/
theorem check_silence_loop :
    let c : Checker := { protocol := .pet, resolve := .ofType "Pet" }
    let g : Graph := ⟨"loop", none, #[⟨.invoke "k" (some "Pet") "feed", none⟩,
      ⟨.invoke "k" (some "Pet") "tease", none⟩, ⟨.invoke "k" (some "Pet") "ignore", none⟩],
      #[⟨0, 1, .sequential⟩, ⟨1, 1, .loopBack⟩, ⟨1, 2, .sequential⟩], some 0⟩
    let teased : Violation :=
      ⟨⟨"k"⟩, 1, none, none, ⟨"tease"⟩, .known ⟨"Playing"⟩, ⟨"Eating"⟩⟩
    let ignored : Violation :=
      ⟨⟨"k"⟩, 2, none, none, ⟨"ignore"⟩, .known ⟨"Plotting"⟩, ⟨"Eating"⟩⟩
    (c.check g ∅).violations = [teased, ignored] ∧
      (∀ n, c.before (g.silence 1) ∅ n = c.before g ∅ n ∧
        c.after (g.silence 1) ∅ n = c.after g ∅ n) ∧
      (c.check (g.silence 1) ∅).violations = [ignored] := by
  intro c g teased ignored
  have hboth : (c.check g ∅).violations = [teased, ignored] := by decide +kernel
  have hteased : teased ∈ (c.check g ∅).violations := hboth ▸ List.mem_cons_self
  obtain ⟨hvalues, vs, ws, hsplit, hrest⟩ := check_silence c "Pet" rfl g ∅ teased hteased
  refine ⟨hboth, hvalues, hrest.trans ?_⟩
  rw [hboth] at hsplit
  cases vs with
  | nil => exact (List.cons.inj hsplit).2.symm
  | cons w vs =>
      -- The violation is in the list once, so nothing stands before it.
      obtain ⟨-, htail⟩ := List.cons.inj hsplit
      have hmem : teased ∈ [ignored] := htail ▸ List.mem_append_right _ List.mem_cons_self
      exact absurd hmem (by decide +kernel)

end Checker

end Typestate
